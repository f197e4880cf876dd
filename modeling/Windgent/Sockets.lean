import Mathlib.Logic.Function.Basic
import Windgent.Custody
import Windgent.Transition

namespace Windgent.Sockets

open Transition Custody

variable (A : Type)

/-- A socket of the kernel with what `getsockname` and `getpeername` return. The last field is
history: the number of the socket. -/
structure File where
  name : A
  peer : Option A
  number : Nat

structure Socket where
  sockfd : Option Nat
  family : Nat
  isConnected : Bool
  localAddress : Option A
  remoteAddress : Option A

/-- The descriptors, the objects, and how often `close` was called on a descriptor that is not
open. The others are history: how many sockets were opened, the numbers of those that were closed
and of those that no object was made for. -/
structure State where
  files : Nat → Option (File A)
  socks : Nat → Option (Socket A)
  faults : Nat
  opened : Nat
  closed : List Nat
  leaked : List Nat

inductive Action where
  | create (i family : Nat)
  -- an address of a family; the descriptor and the address of a new socket, and the address
  -- that the socket has been bound to
  | bind (i family : Nat) (new : Option (Nat × A)) (name : Option A)
  -- the same, with both addresses of the connection, and whether `getpeername` finds it alive
  | connect (i family : Nat) (new : Option (Nat × A)) (peer : Option (A × A)) (alive : Bool)
  -- the new object, the descriptor and its addresses, and whether `FdManager` has a context of
  -- an open socket for it
  | accept (i j : Nat) (new : Option (Nat × A × A)) (managed alive : Bool)
  | getLocalAddress (i : Nat)
  | getRemoteAddress (i : Nat) (alive : Bool)
  | close (i : Nat)
  | destroy (i : Nat)

variable {A}

def Socket.new (family : Nat) : Socket A := ⟨none, family, false, none, none⟩

def State.put (s : State A) (i : Nat) (o : Option (Socket A)) : State A :=
  { s with socks := Function.update s.socks i o }

def State.openFile (s : State A) (fd : Nat) (name : A) (peer : Option A) : State A :=
  { s with files := Function.update s.files fd (some ⟨name, peer, s.opened⟩), opened := s.opened + 1 }

def newSocket (s : State A) (i : Nat) (o : Socket A) : Option (Nat × A) → Option (State A × Socket A)
  | none => some (s, o)
  | some (fd, name) =>
    if (s.files fd).isSome then none
    else
      let o := { o with sockfd := some fd }
      some ((s.openFile fd name none).put i (some o), o)

/-- The head of `bind` and `connect`. -/
def valid (s : State A) (i : Nat) (o : Socket A) (new : Option (Nat × A)) : Option (State A × Socket A) :=
  if o.sockfd.isSome then some (s, o) else newSocket s i o new

def Socket.getLocalAddress (s : State A) (o : Socket A) : Socket A :=
  match o.localAddress, o.sockfd.bind s.files with
  | none, some f => { o with localAddress := some f.name }
  | _, _ => o

def Socket.getRemoteAddress (s : State A) (alive : Bool) (o : Socket A) : Socket A :=
  match o.remoteAddress, alive, (o.sockfd.bind s.files).bind File.peer with
  | none, true, some peer => { o with remoteAddress := some peer }
  | _, _, _ => o

/-- `close()`, with what becomes of the object. -/
def close (s : State A) (i : Nat) (o : Socket A) (x : Option (Socket A)) : State A :=
  match o.sockfd with
  | none => s.put i x
  | some fd =>
    match s.files fd with
    | none => { s.put i x with faults := s.faults + 1 }
    | some f => { s.put i x with files := Function.update s.files fd none, closed := f.number :: s.closed }

def Socket.closed (o : Socket A) : Socket A := { o with isConnected := false, sockfd := none }

def State.rename (s : State A) (fd : Nat) (name : A) (peer : Option A) : State A :=
  { s with files := Function.update s.files fd ((s.files fd).map fun f => { f with name := name, peer := peer }) }

def step (s : State A) : Action A → Option (State A)
  | .create i family => if (s.socks i).isSome then none else some (s.put i (some (.new family)))
  | .bind i family new name => do
    let o ← s.socks i
    let (s, o) ← valid s i o new
    match o.sockfd, name with
    | some fd, some name =>
      if family ≠ o.family then some s
      else
        let s := s.rename fd name ((s.files fd).bind File.peer)
        some (s.put i (some (o.getLocalAddress s)))
    | _, _ => some s
  | .connect i family new peer alive => do
    let o ← s.socks i
    let (s, o) ← valid s i o new
    match o.sockfd with
    | none => some s
    | some fd =>
      if family ≠ o.family then some s
      else
        match peer with
        | none => some (close s i o (some o.closed))
        | some (name, peer) =>
          let s := s.rename fd name (some peer)
          let o := { o with isConnected := true }
          some (s.put i (some ((o.getLocalAddress s).getRemoteAddress s alive)))
  | .accept i j new managed alive => do
    let o ← s.socks i
    match new with
    | none => some s
    | some (fd, name, peer) =>
      if o.sockfd.isNone || (s.socks j).isSome || (s.files fd).isSome then none
      else
        let s' := s.openFile fd name (some peer)
        if managed then
          let o : Socket A := { Socket.new o.family with sockfd := some fd, isConnected := true }
          some (s'.put j (some ((o.getLocalAddress s').getRemoteAddress s' alive)))
        else some { s' with leaked := s.opened :: s.leaked }
  | .getLocalAddress i => do
    let o ← s.socks i
    some (s.put i (some (o.getLocalAddress s)))
  | .getRemoteAddress i alive => do
    let o ← s.socks i
    some (s.put i (some (o.getRemoteAddress s alive)))
  | .close i => do
    let o ← s.socks i
    some (close s i o (some o.closed))
  | .destroy i => do
    let o ← s.socks i
    some (close s i o none)

def noSockets : State A := ⟨fun _ => none, fun _ => none, 0, 0, [], []⟩

/-- Who has a socket that was opened: an object, or nobody any more. -/
inductive Holder where
  | sock (i : Nat)
  | closed
  | leaked
deriving DecidableEq

def held (num fds : Nat → Option Nat) (closed leaked : List Nat) : Holder → List Nat
  | .sock i => ((fds i).bind num).toList
  | .closed => closed
  | .leaked => leaked

/-- Each socket that was opened has one holder, and the open ones are those that are not closed. -/
structure Books (num fds : Nat → Option Nat) (closed leaked : List Nat) (opened : Nat) : Prop where
  kept : Kept (held num fds closed leaked) opened
  valid : ∀ i fd, fds i = some fd → (num fd).isSome
  inj : ∀ fd fd' n, num fd = some n → num fd' = some n → fd = fd'
  known : ∀ fd n, num fd = some n → n ∈ leaked ∨ ∃ i, fds i = some fd
  left : ∀ n ∈ leaked, ∃ fd, num fd = some n

section Descriptors

variable {B : Type} {f : Nat → Option B} {x : B} {a b : Nat}

theorem ne_of_free (ha : f a = some x) (hb : f b = none) : a ≠ b := by
  rintro rfl
  rw [hb] at ha
  cases ha

theorem ne_of_freed (ha : Function.update f b none a = some x) : a ≠ b :=
  ne_of_free ha (Function.update_self ..)

end Descriptors

section Books

variable {num fds : Nat → Option Nat} {closed leaked : List Nat} {opened i fd n : Nat}

theorem mem_held (hi : fds i = some fd) (hn : num fd = some n) : n ∈ held num fds closed leaked (.sock i) := by
  simp [held, hi, hn]

theorem Books.lt (h : Books num fds closed leaked opened) (hn : num fd = some n) : n < opened := by
  rcases h.known fd n hn with hl | ⟨i, hi⟩
  · exact h.kept.lt (h := .leaked) hl
  · exact h.kept.lt (mem_held hi hn)

theorem Books.unique (h : Books num fds closed leaked opened) {j : Nat} (hi : fds i = some fd)
    (hj : fds j = some fd) : i = j := by
  obtain ⟨n, hn⟩ := Option.isSome_iff_exists.mp (h.valid i fd hi)
  have he := h.kept.unique (mem_held hi hn) (mem_held hj hn)
  injection he

theorem Books.ne (h : Books num fds closed leaked opened) (hi : fds i = some fd) {fd' : Nat}
    (hfd : num fd' = none) : fd ≠ fd' := by
  obtain ⟨n, hn⟩ := Option.isSome_iff_exists.mp (h.valid i fd hi)
  exact ne_of_free hn hfd

theorem held_sock {num' fds' : Nat → Option Nat} {closed' leaked' : List Nat} (hi : fds' i = fds i)
    (hn : ∀ fd, fds i = some fd → num' fd = num fd) :
    held num' fds' closed' leaked' (.sock i) = held num fds closed leaked (.sock i) := by
  simp only [held, hi]
  cases hfd : fds i with
  | none => rfl
  | some fd => simp [hn fd hfd]

theorem Books.open_inj (h : Books num fds closed leaked opened) (fd₁ fd₂ n : Nat)
    (h₁ : Function.update num fd (some opened) fd₁ = some n) (h₂ : Function.update num fd (some opened) fd₂ = some n) :
    fd₁ = fd₂ := by
  by_cases he₁ : fd₁ = fd <;> by_cases he₂ : fd₂ = fd
  · rw [he₁, he₂]
  · rw [he₁, Function.update_self] at h₁
    rw [Function.update_of_ne he₂] at h₂
    obtain rfl := Option.some.inj h₁
    exact absurd (h.lt h₂) (Nat.lt_irrefl _)
  · rw [he₂, Function.update_self] at h₂
    rw [Function.update_of_ne he₁] at h₁
    obtain rfl := Option.some.inj h₂
    exact absurd (h.lt h₁) (Nat.lt_irrefl _)
  · rw [Function.update_of_ne he₁] at h₁
    rw [Function.update_of_ne he₂] at h₂
    exact h.inj fd₁ fd₂ n h₁ h₂

theorem Books.still_left (h : Books num fds closed leaked opened) (hfd : num fd = none) (m : Nat) (hm : m ∈ leaked) :
    ∃ fd', Function.update num fd (some opened) fd' = some m := by
  obtain ⟨fd', hfd'⟩ := h.left m hm
  exact ⟨fd', by rwa [Function.update_of_ne (ne_of_free hfd' hfd)]⟩

theorem Books.create (h : Books num fds closed leaked opened) (hi : fds i = none) (hfd : num fd = none) :
    Books (Function.update num fd (some opened)) (Function.update fds i (some fd)) closed leaked (opened + 1) := by
  refine ⟨h.kept.create (a := .sock i) (fun n => ?_) fun k n hk => ?_, fun j fd' hj => ?_, h.open_inj,
    fun fd' n hn => ?_, h.still_left hfd⟩
  · simp [held, hi]
  · cases k with
    | sock j =>
      have hj : j ≠ i := fun he => hk (he ▸ rfl)
      rw [held_sock (Function.update_of_ne hj _ _) fun fd' hfd' => Function.update_of_ne (h.ne hfd' hfd) _ _]
    | closed | leaked => rfl
  · by_cases hji : j = i
    · rw [hji, Function.update_self] at hj
      obtain rfl := Option.some.inj hj
      rw [Function.update_self]
      rfl
    · rw [Function.update_of_ne hji] at hj
      rw [Function.update_of_ne (h.ne hj hfd)]
      exact h.valid j fd' hj
  · by_cases he : fd' = fd
    · exact .inr ⟨i, by rw [he, Function.update_self]⟩
    · rw [Function.update_of_ne he] at hn
      rcases h.known fd' n hn with hl | ⟨j, hj⟩
      · exact .inl hl
      · exact .inr ⟨j, by rwa [Function.update_of_ne (ne_of_free hj hi)]⟩

theorem Books.leak (h : Books num fds closed leaked opened) (hfd : num fd = none) :
    Books (Function.update num fd (some opened)) fds closed (opened :: leaked) (opened + 1) := by
  refine ⟨h.kept.create (a := .leaked) (fun n => ?_) fun k n hk => ?_, fun j fd' hj => ?_, h.open_inj,
    fun fd' n hn => ?_, fun m hm => ?_⟩
  · simp only [held, List.count_cons, List.count_nil]
    omega
  · cases k with
    | sock j => rw [held_sock rfl fun fd' hfd' => Function.update_of_ne (h.ne hfd' hfd) _ _]
    | closed => rfl
    | leaked => exact absurd rfl hk
  · rw [Function.update_of_ne (h.ne hj hfd)]
    exact h.valid j fd' hj
  · by_cases he : fd' = fd
    · rw [he, Function.update_self] at hn
      obtain rfl := Option.some.inj hn
      exact .inl List.mem_cons_self
    · rw [Function.update_of_ne he] at hn
      exact (h.known fd' n hn).imp (List.mem_cons_of_mem _) id
  · rcases List.mem_cons.mp hm with rfl | hm
    · exact ⟨fd, Function.update_self ..⟩
    · exact h.still_left hfd m hm

theorem Books.close (h : Books num fds closed leaked opened) (hi : fds i = some fd) (hn : num fd = some n) :
    Books (Function.update num fd none) (Function.update fds i none) (n :: closed) leaked opened := by
  have hother : ∀ j fd', j ≠ i → fds j = some fd' → fd' ≠ fd := by
    rintro j fd' hji hj rfl
    exact hji (h.unique hj hi)
  refine ⟨h.kept.move (a := .sock i) (b := .closed) (by rintro ⟨⟩) [n] (fun m => ?_) (fun m => ?_) fun k m hk hc => ?_,
    fun j fd' hj => ?_, fun fd₁ fd₂ m h₁ h₂ => ?_, fun fd' m hm => ?_, fun m hm => ?_⟩
  · simp [held, hi, hn]
  · simp only [held, List.count_cons, List.count_nil]
    omega
  · cases k with
    | sock j =>
      have hji : j ≠ i := fun he => hk (he ▸ rfl)
      rw [held_sock (Function.update_of_ne hji _ _) fun fd' hj => Function.update_of_ne (hother j fd' hji hj) _ _]
    | closed => exact absurd rfl hc
    | leaked => rfl
  · by_cases hji : j = i
    · rw [hji, Function.update_self] at hj
      cases hj
    · rw [Function.update_of_ne hji] at hj
      rw [Function.update_of_ne (hother j fd' hji hj)]
      exact h.valid j fd' hj
  · rw [Function.update_of_ne (ne_of_freed h₁)] at h₁
    rw [Function.update_of_ne (ne_of_freed h₂)] at h₂
    exact h.inj fd₁ fd₂ m h₁ h₂
  · by_cases he : fd' = fd
    · rw [he, Function.update_self] at hm
      cases hm
    · rw [Function.update_of_ne he] at hm
      rcases h.known fd' m hm with hl | ⟨j, hj⟩
      · exact .inl hl
      · have hji : j ≠ i := by
          rintro rfl
          exact he (Option.some.inj (hj.symm.trans hi))
        exact .inr ⟨j, by rwa [Function.update_of_ne hji]⟩
  · obtain ⟨fd', hfd'⟩ := h.left m hm
    have hne : fd' ≠ fd := by
      rintro rfl
      obtain rfl := Option.some.inj (hfd'.symm.trans hn)
      have he := h.kept.unique (h := .leaked) hm (mem_held hi hn)
      cases he
    exact ⟨fd', by rwa [Function.update_of_ne hne]⟩

end Books

def State.num (s : State A) (fd : Nat) : Option Nat := (s.files fd).map File.number

def State.fds (s : State A) (i : Nat) : Option Nat := (s.socks i).bind Socket.sockfd

structure Inv (s : State A) : Prop where
  faults : s.faults = 0
  books : Books s.num s.fds s.closed s.leaked s.opened
  connected : ∀ i o, s.socks i = some o → o.isConnected = true → o.sockfd ≠ none

section Updates

variable {s t : State A} {i fd : Nat} {o p : Socket A} {x : Option (Socket A)} {f : File A} {name : A}
  {peer : Option A} {alive : Bool}

theorem put_socks : (s.put i x).socks = Function.update s.socks i x := rfl

theorem openFile_files : (s.openFile fd name peer).files =
    Function.update s.files fd (some ⟨name, peer, s.opened⟩) := rfl

theorem rename_files : (s.rename fd name peer).files =
    Function.update s.files fd ((s.files fd).map fun f => { f with name := name, peer := peer }) := rfl

theorem fds_put : (s.put i x).fds = Function.update s.fds i (x.bind Socket.sockfd) := by
  funext j
  by_cases hj : j = i
  · rw [hj, Function.update_self, State.fds, put_socks, Function.update_self]
  · rw [Function.update_of_ne hj, State.fds, put_socks, Function.update_of_ne hj]
    rfl

theorem num_openFile : (s.openFile fd name peer).num = Function.update s.num fd (some s.opened) := by
  funext g
  by_cases hg : g = fd
  · rw [hg, Function.update_self, State.num, openFile_files, Function.update_self]
    rfl
  · rw [Function.update_of_ne hg, State.num, openFile_files, Function.update_of_ne hg]
    rfl

theorem num_rename : (s.rename fd name peer).num = s.num := by
  funext g
  by_cases hg : g = fd
  · rw [hg, State.num, rename_files, Function.update_self, Option.map_map]
    rfl
  · rw [State.num, rename_files, Function.update_of_ne hg]
    rfl

@[simp] theorem getLocalAddress_sockfd : (o.getLocalAddress s).sockfd = o.sockfd := by
  unfold Socket.getLocalAddress
  split <;> rfl

@[simp] theorem getLocalAddress_isConnected : (o.getLocalAddress s).isConnected = o.isConnected := by
  unfold Socket.getLocalAddress
  split <;> rfl

@[simp] theorem getRemoteAddress_sockfd : (o.getRemoteAddress s alive).sockfd = o.sockfd := by
  unfold Socket.getRemoteAddress
  split <;> rfl

@[simp] theorem getRemoteAddress_isConnected : (o.getRemoteAddress s alive).isConnected = o.isConnected := by
  unfold Socket.getRemoteAddress
  split <;> rfl

theorem Inv.put (h : Inv s) (hfd : (x.bind Socket.sockfd) = s.fds i)
    (hconnected : ∀ o, x = some o → o.isConnected = true → o.sockfd ≠ none) : Inv (s.put i x) := by
  refine ⟨h.faults, ?_, fun j p hj => ?_⟩
  · rw [fds_put, hfd, Function.update_eq_self]
    exact h.books
  · by_cases hji : j = i
    · rw [hji, put_socks, Function.update_self] at hj
      exact hconnected p hj
    · rw [put_socks, Function.update_of_ne hji] at hj
      exact h.connected j p hj

theorem Inv.rename (h : Inv s) (fd : Nat) (name : A) (peer : Option A) : Inv (s.rename fd name peer) := by
  refine ⟨h.faults, ?_, h.connected⟩
  rw [num_rename]
  exact h.books

theorem Inv.opened (h : Inv s) (hi : s.fds i = none) (hfd : s.files fd = none) (hp : p.sockfd = some fd)
    (name : A) (peer : Option A) : Inv ((s.openFile fd name peer).put i (some p)) := by
  refine ⟨h.faults, ?_, fun j q hj => ?_⟩
  · have hnum : s.num fd = none := by rw [State.num, hfd]; rfl
    have hbooks := h.books.create hi hnum
    rw [fds_put, Option.bind_some, hp]
    exact num_openFile ▸ hbooks
  · by_cases hji : j = i
    · rw [hji, put_socks, Function.update_self] at hj
      obtain rfl := Option.some.inj hj
      simp [hp]
    · rw [put_socks, Function.update_of_ne hji] at hj
      exact h.connected j q hj

theorem Inv.leak (h : Inv s) (hfd : s.files fd = none) (name : A) (peer : Option A) :
    Inv { s.openFile fd name peer with leaked := s.opened :: s.leaked } := by
  have hnum : s.num fd = none := by rw [State.num, hfd]; rfl
  refine ⟨h.faults, ?_, h.connected⟩
  have hbooks := h.books.leak hnum
  exact num_openFile ▸ hbooks

theorem fds_eq (ho : s.socks i = some o) : s.fds i = o.sockfd := by
  rw [State.fds, ho, Option.bind_some]

theorem Inv.file (h : Inv s) (ho : s.socks i = some o) (hfd : o.sockfd = some fd) : ∃ f, s.files fd = some f := by
  have hsome := h.books.valid i fd ((fds_eq ho).trans hfd)
  rw [State.num, Option.isSome_map] at hsome
  exact Option.isSome_iff_exists.mp hsome

theorem Inv.close (h : Inv s) (ho : s.socks i = some o) (hx : x.bind Socket.sockfd = none)
    (hconnected : ∀ o, x = some o → o.isConnected = false) : Inv (close s i o x) := by
  have hx' : ∀ o, x = some o → o.isConnected = true → o.sockfd ≠ none := fun o ho hc => by
    rw [hconnected o ho] at hc
    cases hc
  cases hfd : o.sockfd with
  | none =>
    simp only [Sockets.close, hfd]
    exact h.put (by rw [hx, fds_eq ho, hfd]) hx'
  | some fd =>
    obtain ⟨f, hf⟩ := h.file ho hfd
    have hbooks := h.books.close (n := f.number) ((fds_eq ho).trans hfd) (by rw [State.num, hf]; rfl)
    simp only [Sockets.close, hfd, hf]
    refine ⟨h.faults, ?_, fun j q hj => ?_⟩
    · have hnum : (fun g => (Function.update s.files fd none g).map File.number) = Function.update s.num fd none := by
        funext g
        by_cases hg : g = fd
        · rw [hg, Function.update_self, Function.update_self]
          rfl
        · rw [Function.update_of_ne hg, Function.update_of_ne hg]
          rfl
      rw [← hnum, ← hx, ← fds_put] at hbooks
      exact hbooks
    · by_cases hji : j = i
      · change Function.update s.socks i x j = some q at hj
        rw [hji, Function.update_self] at hj
        exact hx' q hj
      · change Function.update s.socks i x j = some q at hj
        rw [Function.update_of_ne hji] at hj
        exact h.connected j q hj

theorem valid_cases {new : Option (Nat × A)} (hv : valid s i o new = some (t, p)) :
    (t = s ∧ p = o ∧ (o.sockfd = none → new = none)) ∨
      ∃ fd name, new = some (fd, name) ∧ o.sockfd = none ∧ s.files fd = none ∧
        p = { o with sockfd := some fd } ∧ t = (s.openFile fd name none).put i (some p) := by
  unfold valid at hv
  split at hv
  · rename_i hsome
    obtain ⟨rfl, rfl⟩ := Prod.mk.inj (Option.some.inj hv)
    exact .inl ⟨rfl, rfl, fun hn => by rw [hn] at hsome; cases hsome⟩
  · rename_i hnone
    have hnone : o.sockfd = none := by simpa using hnone
    cases new with
    | none =>
      obtain ⟨rfl, rfl⟩ := Prod.mk.inj (Option.some.inj hv)
      exact .inl ⟨rfl, rfl, fun _ => rfl⟩
    | some new =>
      obtain ⟨fd, name⟩ := new
      simp only [newSocket, Option.ite_none_left_eq_some, Option.some.injEq] at hv
      obtain ⟨hfree, hv⟩ := hv
      obtain ⟨rfl, rfl⟩ := Prod.mk.inj hv
      exact .inr ⟨fd, name, rfl, hnone, by simpa using hfree, rfl, rfl⟩

theorem Inv.valid (h : Inv s) (ho : s.socks i = some o) {new : Option (Nat × A)}
    (hv : valid s i o new = some (t, p)) : Inv t ∧ t.socks i = some p := by
  rcases valid_cases hv with ⟨rfl, rfl, -⟩ | ⟨fd, name, -, hnone, hfree, rfl, rfl⟩
  · exact ⟨h, ho⟩
  · exact ⟨h.opened ((fds_eq ho).trans hnone) hfree rfl name none, Function.update_self ..⟩

theorem Inv.step (h : Inv s) {a : Action A} (ht : step s a = some t) : Inv t := by
  cases a with
  | create i family =>
    simp only [Sockets.step, Option.ite_none_left_eq_some, Option.some.injEq] at ht
    obtain ⟨hfree, rfl⟩ := ht
    have hnone : s.socks i = none := by simpa using hfree
    exact h.put (by rw [State.fds, hnone]; rfl) (by rintro o ⟨⟩ ⟨⟩)
  | bind i family new name =>
    obtain ⟨o, ho, ht⟩ := Option.bind_eq_some_iff.mp ht
    obtain ⟨⟨u, p⟩, hv, ht⟩ := Option.bind_eq_some_iff.mp ht
    obtain ⟨hu, hp⟩ := h.valid ho hv
    simp only at ht
    split at ht
    · rename_i fd name hfd _ _
      split at ht
      · cases ht
        exact hu
      · cases ht
        refine (hu.rename _ _ _).put ?_ ?_
        · rw [fds_eq (s := u.rename fd name _) hp, Option.bind_some, getLocalAddress_sockfd]
        · rintro q ⟨⟩
          simp [hfd]
    · cases ht
      exact hu
  | connect i family new peer alive =>
    obtain ⟨o, ho, ht⟩ := Option.bind_eq_some_iff.mp ht
    obtain ⟨⟨u, p⟩, hv, ht⟩ := Option.bind_eq_some_iff.mp ht
    obtain ⟨hu, hp⟩ := h.valid ho hv
    simp only at ht
    split at ht
    · cases ht
      exact hu
    · rename_i fd hfd
      split at ht
      · cases ht
        exact hu
      · split at ht
        · cases ht
          exact hu.close hp rfl (by rintro q ⟨⟩; rfl)
        · rename_i name peer _ _
          cases ht
          refine (hu.rename _ _ _).put ?_ ?_
          · rw [fds_eq (s := u.rename fd name _) hp, Option.bind_some, getRemoteAddress_sockfd, getLocalAddress_sockfd]
          · rintro q ⟨⟩
            simp [hfd]
  | accept i j new managed alive =>
    obtain ⟨o, ho, ht⟩ := Option.bind_eq_some_iff.mp ht
    split at ht
    · cases ht
      exact h
    · rename_i fd name peer _
      simp only [Option.ite_none_left_eq_some, Bool.or_eq_true, not_or, Bool.not_eq_true, Option.isSome_eq_false_iff,
        Option.isNone_iff_eq_none] at ht
      obtain ⟨⟨⟨-, hj⟩, hfree⟩, ht⟩ := ht
      split at ht
      · cases ht
        exact h.opened (by rw [State.fds, hj]; rfl) hfree (by simp) name (some peer)
      · cases ht
        exact h.leak hfree name (some peer)
  | getLocalAddress i =>
    obtain ⟨o, ho, ht⟩ := Option.bind_eq_some_iff.mp ht
    cases ht
    refine h.put (by rw [fds_eq ho, Option.bind_some, getLocalAddress_sockfd]) ?_
    rintro q ⟨⟩
    simpa using h.connected i o ho
  | getRemoteAddress i alive =>
    obtain ⟨o, ho, ht⟩ := Option.bind_eq_some_iff.mp ht
    cases ht
    refine h.put (by rw [fds_eq ho, Option.bind_some, getRemoteAddress_sockfd]) ?_
    rintro q ⟨⟩
    simpa using h.connected i o ho
  | close i =>
    obtain ⟨o, ho, ht⟩ := Option.bind_eq_some_iff.mp ht
    cases ht
    exact h.close ho rfl (by rintro q ⟨⟩; rfl)
  | destroy i =>
    obtain ⟨o, ho, ht⟩ := Option.bind_eq_some_iff.mp ht
    cases ht
    exact h.close ho rfl (by rintro q ⟨⟩)

end Updates

/-- The addresses that an object has are those of its socket. -/
def Socket.Fits (o : Socket A) (f : File A) : Prop :=
  (∀ x, o.localAddress = some x → f.name = x) ∧ ∀ x, o.remoteAddress = some x → f.peer = some x

def Cached (s : State A) : Prop :=
  ∀ i o fd f, s.socks i = some o → o.sockfd = some fd → s.files fd = some f → o.Fits f

/-- An address that is cached is not replaced by another. -/
def Agrees (cached new : Option A) : Prop := cached = none ∨ new = none ∨ cached = new

/-- An object that opens a socket has no addresses yet, and those that it has stay. -/
def Socket.Stays (o : Socket A) (name peer : Option A) : Prop :=
  (o.sockfd = none → o.localAddress = none ∧ o.remoteAddress = none) ∧
    Agrees o.localAddress name ∧ Agrees o.remoteAddress peer

def Regular (s : State A) : Action A → Prop
  | .bind i _ _ name => ∀ o ∈ s.socks i, o.Stays name none
  | .connect i _ _ peer _ => ∀ o ∈ s.socks i, o.Stays (peer.map Prod.fst) (peer.map Prod.snd)
  | _ => True

section Cached

variable {s t : State A} {i fd : Nat} {o p : Socket A} {x : Option (Socket A)} {f : File A} {name : A}
  {peer : Option A} {alive : Bool}

theorem Socket.Fits.getLocalAddress (h : o.Fits f) (hfd : o.sockfd = some fd) (hf : s.files fd = some f) :
    (o.getLocalAddress s).Fits f := by
  unfold Socket.getLocalAddress
  rw [hfd, Option.bind_some, hf]
  split
  · rename_i g _ hg
    obtain rfl := Option.some.inj hg
    exact ⟨fun x hx => Option.some.inj hx, h.2⟩
  · exact h

theorem Socket.Fits.getRemoteAddress (h : o.Fits f) (hfd : o.sockfd = some fd) (hf : s.files fd = some f) :
    (o.getRemoteAddress s alive).Fits f := by
  unfold Socket.getRemoteAddress
  rw [hfd, Option.bind_some, hf, Option.bind_some]
  split
  · rename_i peer _ hpeer
    exact ⟨h.1, fun x hx => hpeer.trans hx⟩
  · exact h

theorem Cached.put (h : Cached s) (hx : ∀ o fd f, x = some o → o.sockfd = some fd → s.files fd = some f → o.Fits f) :
    Cached (s.put i x) := by
  intro j o fd f hj hfd hf
  by_cases hji : j = i
  · rw [hji, put_socks, Function.update_self] at hj
    exact hx o fd f hj hfd hf
  · rw [put_socks, Function.update_of_ne hji] at hj
    exact h j o fd f hj hfd hf

theorem Cached.openFile (h : Cached s) (hi : Inv s) (hfree : s.files fd = none) (name : A) (peer : Option A) :
    Cached (s.openFile fd name peer) := by
  intro j o fd' f hj hfd hf
  obtain ⟨f', hf'⟩ := hi.file hj hfd
  rw [openFile_files, Function.update_of_ne (ne_of_free hf' hfree)] at hf
  exact h j o fd' f hj hfd hf

/-- The addresses of the socket of an object change. -/
theorem Cached.renamed (h : Cached s) (hi : Inv s) (ho : s.socks i = some o) (hfd : o.sockfd = some fd)
    (hp : p.sockfd = some fd) (hfits : ∀ f, s.files fd = some f → p.Fits { f with name := name, peer := peer }) :
    Cached ((s.rename fd name peer).put i (some p)) := by
  intro j q fd' f hj hq hf
  change (s.rename fd name peer).files fd' = some f at hf
  by_cases hji : j = i
  · rw [hji, put_socks, Function.update_self] at hj
    obtain rfl := Option.some.inj hj
    obtain rfl := Option.some.inj (hp.symm.trans hq)
    rw [rename_files, Function.update_self, Option.map_eq_some_iff] at hf
    obtain ⟨g, hg, rfl⟩ := hf
    exact hfits g hg
  · rw [put_socks, Function.update_of_ne hji] at hj
    have hj : s.socks j = some q := hj
    have hne : fd' ≠ fd := by
      rintro rfl
      exact hji (hi.books.unique ((fds_eq hj).trans hq) ((fds_eq ho).trans hfd))
    rw [rename_files, Function.update_of_ne hne] at hf
    exact h j q fd' f hj hq hf

theorem Cached.close (h : Cached s) (hx : x.bind Socket.sockfd = none) : Cached (close s i o x) := by
  have hnone : ∀ o fd f, x = some o → o.sockfd = some fd → s.files fd = some f → o.Fits f := by
    rintro o fd f rfl hfd -
    rw [Option.bind_some, hfd] at hx
    cases hx
  have hput : Cached (s.put i x) := h.put hnone
  cases hfd : o.sockfd with
  | none =>
    simp only [Sockets.close, hfd]
    exact hput
  | some g =>
    cases hf : s.files g with
    | none =>
      simp only [Sockets.close, hfd, hf]
      exact hput
    | some f =>
      simp only [Sockets.close, hfd, hf]
      intro j p fd f' hj hp hf'
      change Function.update s.files g none fd = some f' at hf'
      rw [Function.update_of_ne (ne_of_freed hf')] at hf'
      exact hput j p fd f' hj hp hf'

theorem Cached.valid (h : Cached s) (hi : Inv s) {new : Option (Nat × A)} (hv : valid s i o new = some (t, p))
    (hopen : o.sockfd = none → o.localAddress = none ∧ o.remoteAddress = none) :
    Cached t ∧ p.localAddress = o.localAddress ∧ p.remoteAddress = o.remoteAddress := by
  rcases valid_cases hv with ⟨rfl, rfl, -⟩ | ⟨fd, name, -, hnone, hfree, rfl, rfl⟩
  · exact ⟨h, rfl, rfl⟩
  · obtain ⟨hl, hr⟩ := hopen hnone
    refine ⟨(h.openFile hi hfree name none).put ?_, rfl, rfl⟩
    rintro q fd' f ⟨⟩ - -
    refine ⟨fun x hx => ?_, fun x hx => ?_⟩
    · rw [hl] at hx
      cases hx
    · rw [hr] at hx
      cases hx

theorem fits_of_agrees (hl : Agrees o.localAddress (some f.name)) (hr : Agrees o.remoteAddress f.peer)
    (hpeer : f.peer = none → o.remoteAddress = none) : o.Fits f := by
  refine ⟨fun x hx => ?_, fun x hx => ?_⟩
  · rcases hl with hl | hl | hl
    · rw [hl] at hx
      cases hx
    · cases hl
    · exact Option.some.inj (hl.symm.trans hx)
  · rcases hr with hr | hr | hr
    · rw [hr] at hx
      cases hx
    · rw [hpeer hr] at hx
      cases hx
    · exact hr.symm.trans hx

theorem Cached.step (h : Cached s) (hi : Inv s) {a : Action A} (hok : Regular s a) (ht : step s a = some t) :
    Cached t := by
  cases a with
  | create i family =>
    simp only [Sockets.step, Option.ite_none_left_eq_some, Option.some.injEq] at ht
    obtain ⟨-, rfl⟩ := ht
    exact h.put (by rintro o fd f ⟨⟩ ⟨⟩)
  | bind i family new name =>
    obtain ⟨o, ho, ht⟩ := Option.bind_eq_some_iff.mp ht
    obtain ⟨⟨u, p⟩, hv, ht⟩ := Option.bind_eq_some_iff.mp ht
    obtain ⟨hopen, hname, -⟩ := hok o ho
    obtain ⟨hu, hp⟩ := hi.valid ho hv
    obtain ⟨hc, hl, hr⟩ := h.valid hi hv hopen
    simp only at ht
    split at ht
    · rename_i fd name hfd _ _
      split at ht
      · cases ht
        exact hc
      · cases ht
        obtain ⟨f, hf⟩ := hu.file hp hfd
        refine hc.renamed hu hp hfd (by rw [getLocalAddress_sockfd, hfd]) fun g hg => ?_
        obtain rfl := Option.some.inj (hf.symm.trans hg)
        have hfits : p.Fits { f with name := name, peer := (u.files fd).bind File.peer } := by
          refine ⟨fun x hx => ?_, fun x hx => ?_⟩
          · rcases hname with hn | hn | hn
            · rw [hl, hn] at hx
              cases hx
            · cases hn
            · exact Option.some.inj (hn.symm.trans (hl.symm.trans hx))
          · rw [hf]
            exact (hc i p fd f hp hfd hf).2 x hx
        refine hfits.getLocalAddress hfd ?_
        rw [rename_files, Function.update_self, hf]
        rfl
    · cases ht
      exact hc
  | connect i family new peer alive =>
    obtain ⟨o, ho, ht⟩ := Option.bind_eq_some_iff.mp ht
    obtain ⟨⟨u, p⟩, hv, ht⟩ := Option.bind_eq_some_iff.mp ht
    obtain ⟨hopen, hname, hpeer⟩ := hok o ho
    obtain ⟨hu, hp⟩ := hi.valid ho hv
    obtain ⟨hc, hl, hr⟩ := h.valid hi hv hopen
    simp only at ht
    split at ht
    · cases ht
      exact hc
    · rename_i fd hfd
      split at ht
      · cases ht
        exact hc
      · split at ht
        · cases ht
          exact hc.close rfl
        · rename_i name peer _ _
          cases ht
          obtain ⟨f, hf⟩ := hu.file hp hfd
          refine hc.renamed hu hp hfd (by rw [getRemoteAddress_sockfd, getLocalAddress_sockfd, hfd]) fun g hg => ?_
          obtain rfl := Option.some.inj (hf.symm.trans hg)
          have hfits : Socket.Fits { p with isConnected := true } { f with name := name, peer := some peer } :=
            fits_of_agrees (hl ▸ hname) (hr ▸ hpeer) (by rintro ⟨⟩)
          have hfile : (u.rename fd name (some peer)).files fd = some { f with name := name, peer := some peer } := by
            rw [rename_files, Function.update_self, hf]
            rfl
          exact (hfits.getLocalAddress hfd hfile).getRemoteAddress (getLocalAddress_sockfd.trans hfd) hfile
  | accept i j new managed alive =>
    obtain ⟨o, ho, ht⟩ := Option.bind_eq_some_iff.mp ht
    split at ht
    · cases ht
      exact h
    · rename_i fd name peer _
      simp only [Option.ite_none_left_eq_some, Bool.or_eq_true, not_or, Bool.not_eq_true, Option.isSome_eq_false_iff,
        Option.isNone_iff_eq_none] at ht
      obtain ⟨⟨-, hfree⟩, ht⟩ := ht
      have hopened := h.openFile hi hfree name (some peer)
      split at ht
      · cases ht
        refine hopened.put ?_
        rintro q fd' f ⟨⟩ hq hf
        have hfits : Socket.Fits { Socket.new o.family with sockfd := some fd, isConnected := true } f := by
          constructor <;> rintro x ⟨⟩
        have hfd : fd' = fd := by simpa using hq.symm
        subst hfd
        exact (hfits.getLocalAddress rfl hf).getRemoteAddress getLocalAddress_sockfd hf
      · cases ht
        exact hopened
  | getLocalAddress i =>
    obtain ⟨o, ho, ht⟩ := Option.bind_eq_some_iff.mp ht
    cases ht
    refine h.put ?_
    rintro q fd f ⟨⟩ hq hf
    rw [getLocalAddress_sockfd] at hq
    exact (h i o fd f ho hq hf).getLocalAddress hq hf
  | getRemoteAddress i alive =>
    obtain ⟨o, ho, ht⟩ := Option.bind_eq_some_iff.mp ht
    cases ht
    refine h.put ?_
    rintro q fd f ⟨⟩ hq hf
    rw [getRemoteAddress_sockfd] at hq
    exact (h i o fd f ho hq hf).getRemoteAddress hq hf
  | close i =>
    obtain ⟨o, ho, ht⟩ := Option.bind_eq_some_iff.mp ht
    cases ht
    exact h.close rfl
  | destroy i =>
    obtain ⟨o, ho, ht⟩ := Option.bind_eq_some_iff.mp ht
    cases ht
    exact h.close rfl

end Cached

/-- What is expected of the objects and the descriptors. -/
structure Sound (s : State A) : Prop where
  -- only open descriptors are closed
  faults : s.faults = 0
  distinct : ∀ i j o p fd, s.socks i = some o → s.socks j = some p → o.sockfd = some fd → p.sockfd = some fd → i = j
  connected : ∀ i o, s.socks i = some o → o.isConnected = true → o.sockfd ≠ none
  valid : ∀ i o fd, s.socks i = some o → o.sockfd = some fd → (s.files fd).isSome
  -- each socket that was opened is closed once or still open
  once : s.closed.Nodup ∧ ∀ n, n < s.opened ↔ (n ∈ s.closed ∨ ∃ fd f, s.files fd = some f ∧ f.number = n)
  -- an open socket is that of an object, unless `accept` has dropped it
  kept : ∀ fd f, s.files fd = some f → f.number ∉ s.closed ∧
    (f.number ∈ s.leaked ∨ ∃ i o, s.socks i = some o ∧ o.sockfd = some fd)

theorem Inv.sound {s : State A} (h : Inv s) : Sound s := by
  have hopen : ∀ fd f, s.files fd = some f → s.num fd = some f.number := fun fd f hf => by
    rw [State.num, hf]
    rfl
  have hheld : ∀ i fd, s.fds i = some fd → ∃ o, s.socks i = some o ∧ o.sockfd = some fd := fun i fd hfd =>
    Option.bind_eq_some_iff.mp hfd
  refine ⟨h.faults, fun i j o p fd ho hp hof hpf => ?_, h.connected, fun i o fd ho hfd => ?_,
    ⟨h.books.kept.nodup .closed, fun n => ⟨fun hn => ?_, ?_⟩⟩, fun fd f hf => ⟨fun hc => ?_, ?_⟩⟩
  · exact h.books.unique ((fds_eq ho).trans hof) ((fds_eq hp).trans hpf)
  · obtain ⟨f, hf⟩ := h.file ho hfd
    rw [hf]
    rfl
  · obtain ⟨k, hk⟩ := h.books.kept.exists hn
    have hmem := List.count_pos_iff.mp (hk ▸ Nat.one_pos)
    have hfile : ∀ fd, s.num fd = some n → ∃ fd f, s.files fd = some f ∧ f.number = n := fun fd hfd => by
      obtain ⟨f, hf, hnumber⟩ := Option.map_eq_some_iff.mp hfd
      exact ⟨fd, f, hf, hnumber⟩
    cases k with
    | sock i =>
      obtain ⟨fd, -, hfd⟩ := Option.bind_eq_some_iff.mp (Option.mem_toList.mp hmem)
      exact .inr (hfile fd hfd)
    | closed => exact .inl hmem
    | leaked =>
      obtain ⟨fd, hfd⟩ := h.books.left n hmem
      exact .inr (hfile fd hfd)
  · rintro (hc | ⟨fd, f, hf, rfl⟩)
    · exact h.books.kept.lt (h := .closed) hc
    · exact h.books.lt (hopen fd f hf)
  · rcases h.books.known fd _ (hopen fd f hf) with hl | ⟨i, hi⟩
    · have he : Holder.closed = .leaked := h.books.kept.unique hc hl
      cases he
    · have he : Holder.closed = .sock i := h.books.kept.unique hc (mem_held hi (hopen fd f hf))
      cases he
  · exact (h.books.known fd _ (hopen fd f hf)).imp id fun hi => by
      obtain ⟨i, hi⟩ := hi
      exact ⟨i, hheld i fd hi⟩

theorem inv_noSockets : Inv (noSockets : State A) := by
  refine ⟨rfl, ⟨?_, ?_, ?_, ?_, ?_⟩, by rintro i o ⟨⟩⟩
  · refine (kept_empty.mpr ⟨Holder.closed⟩).congr fun k n => ?_
    cases k <;> rfl
  · rintro i fd ⟨⟩
  · rintro fd fd' n ⟨⟩
  · rintro fd n ⟨⟩
  · intro n hn
    cases hn

/-- An object that is connected a second time still has the address of its first peer. -/
example : (exec step (noSockets : State String)
    [.create 0 2, .connect 0 2 (some (5, "a")) (some ("a", "b")) true, .close 0,
      .connect 0 2 (some (5, "c")) (some ("c", "d")) true]).bind (fun s => (s.socks 0).bind Socket.remoteAddress) =
      some "b" := by decide

section Runs

variable [DecidableEq A]

instance (cached new : Option A) : Decidable (Agrees cached new) :=
  inferInstanceAs (Decidable (cached = none ∨ new = none ∨ cached = new))

instance (o : Socket A) (name peer : Option A) : Decidable (o.Stays name peer) :=
  inferInstanceAs (Decidable ((o.sockfd = none → o.localAddress = none ∧ o.remoteAddress = none) ∧
    Agrees o.localAddress name ∧ Agrees o.remoteAddress peer))

instance (s : State A) (a : Action A) : Decidable (Regular s a) :=
  match a with
  | .bind i _ _ name => inferInstanceAs (Decidable (∀ o ∈ s.socks i, o.Stays name none))
  | .connect i _ _ peer _ =>
    inferInstanceAs (Decidable (∀ o ∈ s.socks i, o.Stays (peer.map Prod.fst) (peer.map Prod.snd)))
  | .create .. | .accept .. | .getLocalAddress _ | .getRemoteAddress .. | .close _ | .destroy _ => .isTrue trivial

end Runs

def dropped : List (Action String) :=
  [.create 0 2, .bind 0 2 (some (3, "any")) (some "server"), .accept 0 1 (some (4, "server", "client")) true true,
    .accept 0 2 (some (5, "server", "other")) false true, .close 1, .create 2 2,
    .connect 2 2 (some (4, "none")) (some ("here", "there")) true]

end Windgent.Sockets
