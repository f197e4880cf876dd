import Mathlib.Algebra.GroupWithZero.Nat
import Windgent.Sections

namespace Windgent.AcceptLoop

open Transition

inductive Pc where
  | test
  | accept
  | client (client : Nat)
deriving DecidableEq

structure Loop where
  sock : Nat
  pc : Pc
deriving DecidableEq

/-- A `TcpServer` with the tasks that it gave to its accept worker: the loops that have not ended,
and how often the function of `stop` waits to run. `dropped` are the open sockets that only a loop
has. `handed` are the calls of `handleClient` with the timeout that the client was given. The last
field is history. -/
structure State where
  isStop : Bool
  socks : List Nat
  closed : List Nat
  dropped : List Nat
  recvTimeout : UInt64
  loops : List Loop
  stops : Nat
  handed : List (Nat × UInt64)
  accepted : List Nat
deriving DecidableEq

/-- `bindFails`: some sockets were bound and listen, others failed, and `m_socks` is cleared.
`closeAll` is the function that `stop` schedules; `refuse` an `accept` that fails with an error of
the network or of the process, on a socket that is open. -/
inductive Action where
  | bind (socks : List Nat)
  | bindFails (socks : List Nat)
  | setReadTimeout (v : UInt64)
  | start
  | stop
  | closeAll
  | test (i : Nat)
  | accept (i : Nat) (client : Option Nat)
  | refuse (i : Nat)
  | handle (i : Nat)
deriving DecidableEq

def start (s : State) : State :=
  if s.isStop then { s with isStop := false, loops := s.loops ++ s.socks.map (⟨·, .test⟩) } else s

def State.held (s : State) (sock : Nat) : Bool := s.loops.any fun l => l.sock = sock

/-- The sockets that no loop has are closed by their destructor. -/
def clear (s : State) (socks : List Nat) : State :=
  { s with
    socks := []
    closed := s.closed ++ (s.socks ++ socks).filter fun sock => !s.held sock
    dropped := s.dropped ++ (s.socks ++ socks).filter s.held }

/-- A loop ends, and its reference to the socket with it. -/
def release (s : State) (sock : Nat) : State :=
  if sock ∈ s.dropped ∧ s.held sock = false then
    { s with closed := s.closed ++ [sock], dropped := s.dropped.erase sock }
  else s

def step (s : State) : Action → Option State
  | .bind socks =>
    if (s.socks ++ s.closed ++ s.dropped ++ socks).Nodup then some { s with socks := s.socks ++ socks } else none
  | .bindFails socks =>
    if (s.socks ++ s.closed ++ s.dropped ++ socks).Nodup then some (clear s socks) else none
  | .setReadTimeout v => some { s with recvTimeout := v }
  | .start => some (start s)
  | .stop => some { s with isStop := true, stops := s.stops + 1 }
  | .closeAll =>
    if s.stops = 0 then none
    else some { s with closed := s.closed ++ s.socks, socks := [], stops := s.stops - 1 }
  | .test i =>
    match s.loops[i]? with
    | some ⟨sock, .test⟩ =>
      if s.isStop then some (release { s with loops := s.loops.eraseIdx i } sock)
      else some { s with loops := s.loops.set i ⟨sock, .accept⟩ }
    | _ => none
  | .accept i client =>
    match s.loops[i]? with
    | some ⟨sock, .accept⟩ =>
      match client with
      | none =>
        -- on an open socket the fiber waits
        if sock ∈ s.closed then some { s with loops := s.loops.set i ⟨sock, .test⟩ } else none
      | some client =>
        if sock ∈ s.closed ∨ client ∈ s.accepted then none
        else
          some { s with
            loops := s.loops.set i ⟨sock, .client client⟩
            accepted := client :: s.accepted }
    | _ => none
  | .refuse i =>
    match s.loops[i]? with
    | some ⟨sock, .accept⟩ =>
      if sock ∈ s.closed then none else some { s with loops := s.loops.set i ⟨sock, .test⟩ }
    | _ => none
  | .handle i =>
    match s.loops[i]? with
    | some ⟨sock, .client client⟩ =>
      some { s with
        loops := s.loops.set i ⟨sock, .test⟩
        handed := (client, s.recvTimeout) :: s.handed }
    | _ => none

def new (recvTimeout : UInt64) : State := ⟨true, [], [], [], recvTimeout, [], 0, [], []⟩

/-- A server that is stopped is started again only when its loops have ended and its sockets are closed. -/
def Settled (s : State) : Action → Prop
  | .start => s.isStop = true → s.loops = [] ∧ s.stops = 0
  | _ => True

def Loop.client (l : Loop) : Option Nat :=
  match l.pc with
  | .client client => some client
  | .test | .accept => none

def Loop.weight (l : Loop) : Nat :=
  match l.pc with
  | .test => 1
  | .client _ => 2
  | .accept => 3

def weight (loops : List Loop) : Nat := (loops.map Loop.weight).sum

def Action.inLoop : Action → Bool
  | .test _ | .accept .. | .refuse _ | .handle _ => true
  | .bind _ | .bindFails _ | .setReadTimeout _ | .start | .stop | .closeAll => false

/-- A loop that goes on although no client comes and no `accept` fails on an open socket. -/
def Moves (s : State) (i : Nat) : Prop :=
  (step s (.test i)).isSome = true ∨ (step s (.accept i none)).isSome = true ∨ (step s (.handle i)).isSome = true

def Action.outside : Action → Bool
  | .accept _ (some _) | .refuse _ => true
  | _ => false

structure Inv (s : State) : Prop where
  clients : s.accepted.Perm (s.handed.map Prod.fst ++ s.loops.filterMap Loop.client)
  fresh : s.accepted.Nodup
  socks : (s.socks ++ s.closed ++ s.dropped).Nodup
  loops : (s.loops.map Loop.sock).Nodup
  listening : ∀ l ∈ s.loops, l.sock ∈ s.socks ++ s.closed ++ s.dropped
  running : s.isStop = false → s.stops = 0 ∧ ∀ l ∈ s.loops, l.sock ∉ s.closed
  stopped : s.isStop = true → s.stops = 0 → ∀ l ∈ s.loops, l.sock ∉ s.socks

variable {s t : State} {l₁ l₂ : List Loop} {sock : Nat} {pc : Pc}

theorem filterMap_client (client : Nat) (loops : List Loop) :
    (⟨sock, .client client⟩ :: loops).filterMap Loop.client = client :: loops.filterMap Loop.client := rfl

theorem Inv.go (h : Inv s) (hs : s.loops = l₁ ++ ⟨sock, pc⟩ :: l₂) (pc' : Pc) {handed : List (Nat × UInt64)}
    {accepted : List Nat}
    (hclients : accepted.Perm (handed.map Prod.fst ++ (l₁ ++ ⟨sock, pc'⟩ :: l₂).filterMap Loop.client))
    (hfresh : accepted.Nodup) :
    Inv { s with loops := l₁ ++ ⟨sock, pc'⟩ :: l₂, handed := handed, accepted := accepted } := by
  have hmap : (l₁ ++ ⟨sock, pc'⟩ :: l₂).map Loop.sock = s.loops.map Loop.sock := by
    rw [hs, List.map_append, List.map_append]
    rfl
  have hmem : ∀ l ∈ l₁ ++ ⟨sock, pc'⟩ :: l₂, ∃ l' ∈ s.loops, l'.sock = l.sock := by
    intro l hl
    have := hmap ▸ List.mem_map_of_mem (f := Loop.sock) hl
    exact List.mem_map.mp this
  refine ⟨hclients, hfresh, h.socks, hmap ▸ h.loops, fun l hl => ?_,
    fun hrun => ⟨(h.running hrun).1, fun l hl => ?_⟩, fun hstop hstops l hl => ?_⟩
  · obtain ⟨l', hl', he⟩ := hmem l hl
    exact he ▸ h.listening l' hl'
  · obtain ⟨l', hl', he⟩ := hmem l hl
    exact he ▸ (h.running hrun).2 l' hl'
  · obtain ⟨l', hl', he⟩ := hmem l hl
    exact he ▸ h.stopped hstop hstops l' hl'

theorem held_iff {sock : Nat} : s.held sock = true ↔ sock ∈ s.loops.map Loop.sock := by
  simp [State.held]

theorem Inv.ended (h : Inv s) (hs : s.loops = l₁ ++ ⟨sock, .test⟩ :: l₂) (hstop : s.isStop = true) :
    Inv (release { s with loops := l₁ ++ l₂ } sock) := by
  have hsub : (l₁ ++ l₂).Sublist s.loops := hs ▸ (List.sublist_cons_self _ l₂).append_left l₁
  have hclients : (l₁ ++ l₂).filterMap Loop.client = s.loops.filterMap Loop.client := by
    rw [hs, List.filterMap_append, List.filterMap_append]
    rfl
  have hstopped : s.isStop = false → False := by simp [hstop]
  have hbase : Inv { s with loops := l₁ ++ l₂ } :=
    ⟨hclients ▸ h.clients, h.fresh, h.socks, h.loops.sublist (hsub.map _),
      fun l hl => h.listening l (hsub.subset hl), fun hrun => (hstopped hrun).elim,
      fun _ hstops l hl => h.stopped hstop hstops l (hsub.subset hl)⟩
  unfold release
  split
  · rename_i hsock
    obtain ⟨hdropped, -⟩ := hsock
    have hperm : (s.socks ++ s.closed ++ s.dropped).Perm (s.socks ++ (s.closed ++ [sock]) ++ s.dropped.erase sock) := by
      refine ((List.perm_cons_erase hdropped).append_left (s.socks ++ s.closed)).trans ?_
      simp
    refine ⟨hbase.clients, hbase.fresh, hperm.nodup_iff.mp h.socks, hbase.loops,
      fun l hl => hperm.subset (hbase.listening l hl), fun hrun => (hstopped hrun).elim, hbase.stopped⟩
  · exact hbase

theorem perm_clear (s : State) (socks : List Nat) : (s.socks ++ s.closed ++ s.dropped ++ socks).Perm
    ((clear s socks).socks ++ (clear s socks).closed ++ (clear s socks).dropped) := by
  have hsplit := (List.filter_append_perm s.held (s.socks ++ socks)).symm
  have hperm : (s.socks ++ s.closed ++ s.dropped ++ socks).Perm (s.closed ++ s.dropped ++ (s.socks ++ socks)) := by
    refine List.perm_iff_count.mpr fun x => ?_
    simp only [List.count_append]
    omega
  refine (hperm.trans (hsplit.append_left _)).trans (List.perm_iff_count.mpr fun x => ?_)
  simp only [clear, List.nil_append, List.count_append]
  omega

theorem Inv.clear (h : Inv s) {socks : List Nat} (hnodup : (s.socks ++ s.closed ++ s.dropped ++ socks).Nodup) :
    Inv (clear s socks) := by
  refine ⟨h.clients, h.fresh, (perm_clear s socks).nodup_iff.mp hnodup, h.loops, fun l hl => ?_,
    fun hrun => ⟨(h.running hrun).1, fun l hl => ?_⟩, fun _ _ l _ => List.not_mem_nil⟩
  · exact (perm_clear s socks).subset (List.mem_append_left _ (h.listening l hl))
  · have hheld : s.held l.sock = true := held_iff.mpr (List.mem_map_of_mem hl)
    have hopen := (h.running hrun).2 l hl
    simp [AcceptLoop.clear, hopen, hheld]

theorem Inv.start (h : Inv s) (hok : Settled s .start) : Inv (start s) := by
  unfold AcceptLoop.start
  split
  · rename_i hstop
    obtain ⟨hloops, hstops⟩ := hok hstop
    have hsocks := List.nodup_append.mp h.socks
    rw [List.nodup_append] at hsocks
    have hmap : (s.socks.map fun sock => (⟨sock, .test⟩ : Loop)).map Loop.sock = s.socks := by
      rw [List.map_map]
      exact List.map_id _
    have hnone : (s.socks.map fun sock => (⟨sock, .test⟩ : Loop)).filterMap Loop.client = [] := by
      rw [List.filterMap_map]
      exact List.filterMap_eq_nil_iff.mpr fun _ _ => rfl
    rw [hloops, List.nil_append]
    have hclients := h.clients
    rw [hloops] at hclients
    refine ⟨hnone.symm ▸ hclients, h.fresh, h.socks, hmap.symm ▸ hsocks.1.1, fun l hl => ?_,
      fun _ => ⟨hstops, fun l hl hc => ?_⟩, by rintro ⟨⟩⟩
    · obtain ⟨sock, hsock, rfl⟩ := List.mem_map.mp hl
      exact List.mem_append_left _ (List.mem_append_left _ hsock)
    · obtain ⟨sock, hsock, rfl⟩ := List.mem_map.mp hl
      exact hsocks.1.2.2 sock hsock sock hc rfl
  · exact h

/-- What a step of a loop does: it ends, goes into `accept`, comes back without a client or with
one, or hands its client over. -/
theorem loop_cases {a : Action} (ha : a.inLoop = true) (ht : step s a = some t) :
    ∃ l₁ sock pc l₂, s.loops = l₁ ++ ⟨sock, pc⟩ :: l₂ ∧
      ((pc = .test ∧ s.isStop = true ∧ t = release { s with loops := l₁ ++ l₂ } sock) ∨
        (pc = .test ∧ s.isStop = false ∧ t = { s with loops := l₁ ++ ⟨sock, .accept⟩ :: l₂ }) ∨
        (pc = .accept ∧ (sock ∈ s.closed ∨ a.outside = true) ∧ t = { s with loops := l₁ ++ ⟨sock, .test⟩ :: l₂ }) ∨
        (∃ client, pc = .accept ∧ a.outside = true ∧ client ∉ s.accepted ∧
          t = { s with loops := l₁ ++ ⟨sock, .client client⟩ :: l₂, accepted := client :: s.accepted }) ∨
        ∃ client, pc = .client client ∧
          t = { s with
            loops := l₁ ++ ⟨sock, .test⟩ :: l₂
            handed := (client, s.recvTimeout) :: s.handed }) := by
  cases a with
  | bind | bindFails | setReadTimeout | start | stop | closeAll => cases ha
  | test i =>
    simp only [step] at ht
    split at ht
    · rename_i sock hget
      obtain ⟨l₁, l₂, hs, hset, herase⟩ := Sections.split_at hget
      rw [hset, herase] at ht
      refine ⟨l₁, sock, .test, l₂, hs, ?_⟩
      split at ht
      · rename_i hstop
        exact .inl ⟨rfl, hstop, (Option.some.inj ht).symm⟩
      · rename_i hstop
        exact .inr (.inl ⟨rfl, by simpa using hstop, (Option.some.inj ht).symm⟩)
    · cases ht
  | accept i client =>
    simp only [step] at ht
    split at ht
    · rename_i sock hget
      obtain ⟨l₁, l₂, hs, hset, -⟩ := Sections.split_at hget
      refine ⟨l₁, sock, .accept, l₂, hs, ?_⟩
      cases client with
      | none =>
        simp only [hset] at ht
        split at ht
        · rename_i hclosed
          exact .inr (.inr (.inl ⟨rfl, .inl hclosed, (Option.some.inj ht).symm⟩))
        · cases ht
      | some client =>
        simp only [hset] at ht
        split at ht
        · cases ht
        · rename_i hguard
          rw [not_or] at hguard
          exact .inr (.inr (.inr (.inl ⟨client, rfl, rfl, hguard.2, (Option.some.inj ht).symm⟩)))
    · cases ht
  | refuse i =>
    simp only [step] at ht
    split at ht
    · rename_i sock hget
      obtain ⟨l₁, l₂, hs, hset, -⟩ := Sections.split_at hget
      rw [hset] at ht
      refine ⟨l₁, sock, .accept, l₂, hs, ?_⟩
      split at ht
      · cases ht
      · exact .inr (.inr (.inl ⟨rfl, .inr rfl, (Option.some.inj ht).symm⟩))
    · cases ht
  | handle i =>
    simp only [step] at ht
    split at ht
    · rename_i sock client hget
      obtain ⟨l₁, l₂, hs, hset, -⟩ := Sections.split_at hget
      rw [hset] at ht
      exact ⟨l₁, sock, .client client, l₂, hs,
        .inr (.inr (.inr (.inr ⟨client, rfl, (Option.some.inj ht).symm⟩)))⟩
    · cases ht

theorem Inv.loop (h : Inv s) {a : Action} (ha : a.inLoop = true) (ht : AcceptLoop.step s a = some t) : Inv t := by
  obtain ⟨l₁, sock, pc, l₂, hs, hcase⟩ := loop_cases ha ht
  have hclients := h.clients
  rw [hs, List.filterMap_append] at hclients
  obtain ⟨rfl, hstop, rfl⟩ | ⟨rfl, -, rfl⟩ | ⟨rfl, -, rfl⟩ | ⟨client, rfl, -, hnew, rfl⟩ | ⟨client, rfl, rfl⟩ := hcase
  · exact h.ended hs hstop
  · refine h.go hs .accept ?_ h.fresh
    rw [List.filterMap_append]
    exact hclients
  · refine h.go hs .test ?_ h.fresh
    rw [List.filterMap_append]
    exact hclients
  · refine h.go hs (.client client) ?_ (List.nodup_cons.mpr ⟨hnew, h.fresh⟩)
    rw [List.filterMap_append, filterMap_client, ← List.append_assoc]
    exact (hclients.cons client).trans (by rw [← List.append_assoc]; exact List.perm_middle.symm)
  · rw [filterMap_client] at hclients
    refine h.go hs .test (hclients.trans ?_) h.fresh
    rw [List.filterMap_append, List.map_cons, List.cons_append, ← List.append_assoc, ← List.append_assoc]
    exact List.perm_middle

theorem Inv.step (h : Inv s) {a : Action} (hok : Settled s a) (ht : step s a = some t) : Inv t := by
  cases a with
  | bind socks =>
    simp only [AcceptLoop.step] at ht
    split at ht
    · rename_i hnodup
      obtain rfl := Option.some.inj ht
      have hperm : (s.socks ++ s.closed ++ s.dropped ++ socks).Perm (s.socks ++ socks ++ s.closed ++ s.dropped) := by
        refine List.perm_iff_count.mpr fun x => ?_
        simp only [List.count_append]
        omega
      refine ⟨h.clients, h.fresh, hperm.nodup_iff.mp hnodup, h.loops,
        fun l hl => hperm.subset (List.mem_append_left _ (h.listening l hl)), h.running, fun hstop hstops l hl => ?_⟩
      rw [List.mem_append]
      rintro (hm | hm)
      · exact h.stopped hstop hstops l hl hm
      · exact (List.nodup_append.mp hnodup).2.2 _ (h.listening l hl) _ hm rfl
    · cases ht
  | bindFails socks =>
    simp only [AcceptLoop.step] at ht
    split at ht
    · rename_i hnodup
      obtain rfl := Option.some.inj ht
      exact h.clear hnodup
    · cases ht
  | setReadTimeout v =>
    obtain rfl := Option.some.inj ht
    exact ⟨h.clients, h.fresh, h.socks, h.loops, h.listening, h.running, h.stopped⟩
  | start =>
    obtain rfl := Option.some.inj ht
    exact h.start hok
  | stop =>
    obtain rfl := Option.some.inj ht
    exact ⟨h.clients, h.fresh, h.socks, h.loops, h.listening, by rintro ⟨⟩, by rintro - ⟨⟩⟩
  | closeAll =>
    simp only [AcceptLoop.step] at ht
    split at ht
    · cases ht
    · rename_i hstops
      obtain rfl := Option.some.inj ht
      have hperm : (s.socks ++ s.closed ++ s.dropped).Perm ([] ++ (s.closed ++ s.socks) ++ s.dropped) :=
        List.perm_append_comm.append_right _
      exact ⟨h.clients, h.fresh, hperm.nodup_iff.mp h.socks, h.loops,
        fun l hl => hperm.subset (h.listening l hl), fun hrun => absurd (h.running hrun).1 hstops,
        fun _ _ _ _ => List.not_mem_nil⟩
  | test i => exact h.loop rfl ht
  | accept i client => exact h.loop rfl ht
  | refuse i => exact h.loop rfl ht
  | handle i => exact h.loop rfl ht

theorem inv_new (v : UInt64) : Inv (new v) :=
  ⟨.nil, .nil, .nil, .nil, fun _ h => absurd h List.not_mem_nil, by rintro ⟨⟩, fun _ _ _ h => absurd h List.not_mem_nil⟩

theorem weight_append (loops loops' : List Loop) : weight (loops ++ loops') = weight loops + weight loops' := by
  rw [weight, List.map_append, List.sum_append]
  rfl

theorem weight_cons (l : Loop) (loops : List Loop) : weight (l :: loops) = l.weight + weight loops := by
  rw [weight, List.map_cons, List.sum_cons]
  rfl

theorem weight_le (loops : List Loop) : weight loops ≤ 3 * loops.length := by
  induction loops with
  | nil => exact Nat.le_refl 0
  | cons l loops ih =>
    have hl : l.weight ≤ 3 := by
      unfold Loop.weight
      split <;> omega
    rw [weight_cons, List.length_cons]
    omega

theorem release_fields (s : State) (sock : Nat) :
    (release s sock).isStop = s.isStop ∧ (release s sock).loops = s.loops := by
  unfold release
  split <;> exact ⟨rfl, rfl⟩

/-- What the steps of the others leave of the loops. -/
theorem outer_cases {a : Action} (ha : ¬ a.inLoop = true) (hstart : a ≠ .start) (ht : step s a = some t) :
    t.loops = s.loops ∧ (s.isStop = true → t.isStop = true) ∧ s.dropped ⊆ t.dropped := by
  cases a with
  | bind socks =>
    simp only [step] at ht
    split at ht <;> cases ht
    exact ⟨rfl, id, List.Subset.refl _⟩
  | bindFails socks =>
    simp only [step] at ht
    split at ht <;> cases ht
    exact ⟨rfl, id, List.subset_append_left _ _⟩
  | setReadTimeout v => cases ht; exact ⟨rfl, id, List.Subset.refl _⟩
  | start => exact absurd rfl hstart
  | stop => cases ht; exact ⟨rfl, fun _ => rfl, List.Subset.refl _⟩
  | closeAll =>
    simp only [step] at ht
    split at ht <;> cases ht
    exact ⟨rfl, id, List.Subset.refl _⟩
  | test | accept | refuse | handle => exact absurd rfl ha

/-- Once `m_isStop` is set a loop comes closer to its end with each step, and the rest does not
keep it. -/
theorem weight_step (hstop : s.isStop = true) {a : Action} (hstart : a ≠ .start) (ht : step s a = some t) :
    t.isStop = true ∧ weight t.loops + (if a.inLoop then 1 else 0) ≤ weight s.loops := by
  by_cases ha : a.inLoop = true
  · obtain ⟨l₁, sock, pc, l₂, hs, hcase⟩ := loop_cases ha ht
    rw [if_pos ha, hs, weight_append, weight_cons]
    obtain ⟨rfl, -, rfl⟩ | ⟨-, hrun, -⟩ | ⟨rfl, -, rfl⟩ | ⟨client, rfl, -, -, rfl⟩ | ⟨client, rfl, rfl⟩ := hcase
    · obtain ⟨hsame, hloops⟩ := release_fields { s with loops := l₁ ++ l₂ } sock
      rw [hsame, hloops, weight_append]
      exact ⟨hstop, by simp only [Loop.weight]; omega⟩
    · rw [hstop] at hrun
      cases hrun
    all_goals
      refine ⟨hstop, ?_⟩
      simp only [weight_append, weight_cons, Loop.weight]
      omega
  · obtain ⟨hloops, hstop', -⟩ := outer_cases ha hstart ht
    rw [if_neg ha, hloops]
    exact ⟨hstop' hstop, Nat.le_refl _⟩

theorem weight_exec (hstop : s.isStop = true) {as : List Action} (hstart : .start ∉ as)
    (ht : exec step s as = some t) : t.isStop = true ∧ weight t.loops + as.countP Action.inLoop ≤ weight s.loops := by
  induction as generalizing s with
  | nil =>
    cases ht
    exact ⟨hstop, Nat.le_refl _⟩
  | cons a as ih =>
    obtain ⟨u, hu, ht⟩ := Option.bind_eq_some_iff.mp ht
    rw [List.mem_cons, not_or] at hstart
    obtain ⟨hstop', hle⟩ := weight_step hstop (Ne.symm hstart.1) hu
    obtain ⟨hstop'', hle'⟩ := ih hstop' hstart.2 ht
    refine ⟨hstop'', ?_⟩
    rw [List.countP_cons]
    omega

/-- A loop that waits on a socket which a failing `bind` has dropped. -/
def Stuck (s : State) (l : Loop) : Prop := l.pc = .accept ∧ l.sock ∈ s.dropped

/-- The function of `stop` is still to come, and closes the socket that the loop waits on. -/
def Woken (s : State) (i : Nat) (l : Loop) : Prop :=
  l.pc = .accept ∧ (step s .closeAll).isSome = true ∧ ∀ u, step s .closeAll = some u → Moves u i

theorem Inv.moves (h : Inv s) (hstop : s.isStop = true) {i : Nat} {l : Loop} (hget : s.loops[i]? = some l) :
    Moves s i ∨ Woken s i l ∨ Stuck s l := by
  rcases l with ⟨sock, _ | _ | client⟩
  · exact .inl (.inl (by simp [AcceptLoop.step, hget, hstop]))
  · have hmem : (⟨sock, .accept⟩ : Loop) ∈ s.loops := List.mem_of_getElem? hget
    have hwhere := h.listening _ hmem
    rw [List.mem_append, List.mem_append] at hwhere
    obtain (hsock | hclosed) | hdropped := hwhere
    · have hpos : s.stops ≠ 0 := fun h0 => h.stopped hstop h0 _ hmem hsock
      refine .inr (.inl ⟨rfl, by simp [AcceptLoop.step, hpos], fun u hu => ?_⟩)
      simp only [AcceptLoop.step, if_neg hpos] at hu
      obtain rfl := Option.some.inj hu
      exact .inr (.inl (by simp [AcceptLoop.step, hget, hsock]))
    · exact .inl (.inr (.inl (by simp [AcceptLoop.step, hget, hclosed])))
    · exact .inr (.inr ⟨rfl, hdropped⟩)
  · exact .inl (.inr (.inr (by simp [AcceptLoop.step, hget])))

/-- Only a client or an error of its socket ends the wait of such a loop. -/
theorem Inv.stuck_step (h : Inv s) {l : Loop} (hl : l ∈ s.loops) (hstuck : Stuck s l) {a : Action}
    (hstart : a ≠ .start) (hout : a.outside = false) (ht : AcceptLoop.step s a = some t) :
    l ∈ t.loops ∧ Stuck t l := by
  obtain ⟨hpc, hdropped⟩ := hstuck
  have hopen : l.sock ∉ s.closed := fun hc =>
    (List.nodup_append.mp h.socks).2.2 _ (List.mem_append_right _ hc) _ hdropped rfl
  by_cases ha : a.inLoop = true
  · obtain ⟨l₁, sock, pc, l₂, hs, hcase⟩ := loop_cases ha ht
    rw [hs] at hl
    have hother : l ≠ ⟨sock, pc⟩ → ∀ l', l ∈ l₁ ++ l' :: l₂ := by
      intro hne l'
      simp only [List.mem_append, List.mem_cons] at hl ⊢
      tauto
    obtain ⟨rfl, -, rfl⟩ | ⟨rfl, -, rfl⟩ | ⟨rfl, hend, rfl⟩ | ⟨client, rfl, hsome, -, -⟩ | ⟨client, rfl, rfl⟩ := hcase
    · have hne : l ≠ ⟨sock, .test⟩ := by
        rintro rfl
        cases hpc
      have hmem : l ∈ l₁ ++ l₂ := by
        simp only [List.mem_append, List.mem_cons] at hl ⊢
        tauto
      refine ⟨(release_fields { s with loops := l₁ ++ l₂ } sock).2.symm ▸ hmem, hpc, ?_⟩
      unfold release
      split
      · refine (List.mem_erase_of_ne ?_).mpr hdropped
        rintro rfl
        have hnodup := h.loops
        rw [hs, List.map_append, List.map_cons, List.perm_middle.nodup_iff, List.nodup_cons,
          ← List.map_append] at hnodup
        exact hnodup.1 (List.mem_map.mpr ⟨l, hmem, rfl⟩)
      · exact hdropped
    · exact ⟨hother (by rintro rfl; cases hpc) _, hpc, hdropped⟩
    · refine ⟨hother ?_ _, hpc, hdropped⟩
      rintro rfl
      obtain hclosed | hsome := hend
      · exact hopen hclosed
      · rw [hout] at hsome
        cases hsome
    · rw [hout] at hsome
      cases hsome
    · exact ⟨hother (by rintro rfl; cases hpc) _, hpc, hdropped⟩
  · obtain ⟨hloops, -, hsub⟩ := outer_cases ha hstart ht
    exact ⟨hloops ▸ hl, hpc, hsub hdropped⟩

theorem settled_of_ne {a : Action} (h : a ≠ .start) : Settled s a := by
  cases a with
  | start => exact absurd rfl h
  | bind | bindFails | setReadTimeout | stop | closeAll | test | accept | refuse | handle => trivial

theorem Inv.exec (h : Inv s) {as : List Action} (hstart : .start ∉ as)
    (ht : Transition.exec AcceptLoop.step s as = some t) : Inv t := by
  induction as generalizing s with
  | nil =>
    cases ht
    exact h
  | cons a as ih =>
    obtain ⟨u, hu, ht⟩ := Option.bind_eq_some_iff.mp ht
    rw [List.mem_cons, not_or] at hstart
    exact ih (h.step (settled_of_ne (Ne.symm hstart.1)) hu) hstart.2 ht

theorem Inv.stuck_exec (h : Inv s) {l : Loop} (hl : l ∈ s.loops) (hstuck : Stuck s l) {as : List Action}
    (hstart : .start ∉ as) (hout : ∀ a ∈ as, a.outside = false) (ht : Transition.exec AcceptLoop.step s as = some t) :
    l ∈ t.loops := by
  induction as generalizing s with
  | nil =>
    cases ht
    exact hl
  | cons a as ih =>
    obtain ⟨u, hu, ht⟩ := Option.bind_eq_some_iff.mp ht
    rw [List.mem_cons, not_or] at hstart
    obtain ⟨ha, hout⟩ := List.forall_mem_cons.mp hout
    obtain ⟨hl', hstuck'⟩ := h.stuck_step hl hstuck (Ne.symm hstart.1) ha hu
    exact ih (h.step (settled_of_ne (Ne.symm hstart.1)) hu) hl' hstuck' hstart.2 hout ht

/-- Started again before its sockets were closed, a server has two loops that turn around on one of them. -/
example : (exec step (new 1) [.bind [5], .start, .stop, .start, .closeAll]).map
    (fun s => (s.isStop, s.closed, s.loops)) = some (false, [5], [⟨5, .test⟩, ⟨5, .test⟩]) := by decide

/-- A failing `bind` drops the socket of a loop that runs: `stop` does not wake it. -/
example : (exec step (new 1) [.bind [5], .start, .test 0, .bindFails [6], .stop, .closeAll]).map
    (fun s => (s.closed, s.dropped, s.loops)) = some ([6], [5], [⟨5, .accept⟩]) := by decide

instance (s : State) (a : Action) : Decidable (Settled s a) :=
  match a with
  | .start => inferInstanceAs (Decidable (s.isStop = true → s.loops = [] ∧ s.stops = 0))
  | .bind _ | .bindFails _ | .setReadTimeout _ | .stop | .closeAll | .test _ | .accept .. | .refuse _ | .handle _ =>
    .isTrue trivial

def stopped : State := ⟨true, [5, 6], [], [], 120000, [⟨5, .test⟩, ⟨6, .accept⟩], 1, [(9, 120000)], [9]⟩

end Windgent.AcceptLoop
