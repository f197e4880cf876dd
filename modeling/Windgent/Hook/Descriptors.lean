import Windgent.Hook.Nonblock
import Windgent.Transition
import Mathlib.Logic.Function.Basic

namespace Windgent.Hook.Descriptors

open Transition

inductive TimeoutType where
  | recv
  | send
deriving DecidableEq

inductive Use where
  | flag (call : FlagCall)
  | setsockopt (type : TimeoutType) (sec usec : Int)
deriving DecidableEq

inductive Pc where
  | idle
  | get (fd : Nat)
  | create (fd : Nat)
  | cancelAll (fd : Nat)
  | del (fd : Nat)
  | closeF (fd : Nat)
deriving DecidableEq

def Pc.fd : Pc → Option Nat
  | .idle => none
  | .get fd | .create fd | .cancelAll fd | .del fd | .closeF fd => some fd

/-- The flags of the open sockets in the kernel, and `m_fds`. The last fields are history: the
flags that a socket was opened with, and the calls on it since then. -/
structure State (C : Type) where
  pc : C → Pc
  files : Nat → Option Flags
  fds : Nat → Option FdCtx
  opened : Nat → Flags
  uses : Nat → List Use

inductive Action (C : Type) where
  -- `socket_f` or `accept_f` returns a descriptor that is not in use
  | openF (c : C) (fd : Nat) (flags : Flags)
  | get (c : C)
  | create (c : C)
  | use (c : C) (fd : Nat) (u : Use)
  | close (c : C) (fd : Nat)
  | cancelAll (c : C)
  | del (c : C)
  | closeF (c : C)
deriving DecidableEq

section Model

variable (K : Kernel)

def milliseconds (sec usec : Int) : UInt64 := UInt64.ofInt (sec * 1000 + usec.tdiv 1000)

def setTimeout (type : TimeoutType) (v : UInt64) (ctx : FdCtx) : FdCtx :=
  match type with
  | .recv => { ctx with recvTimeout := v }
  | .send => { ctx with sendTimeout := v }

def getTimeout (type : TimeoutType) (ctx : FdCtx) : UInt64 :=
  match type with
  | .recv => ctx.recvTimeout
  | .send => ctx.sendTimeout

def use (d : Descriptor) : Use → Descriptor
  | .flag call => d.step K call
  | .setsockopt type sec usec => { d with ctx := d.ctx.map (setTimeout type (milliseconds sec usec)) }

variable {C : Type} [DecidableEq C]

def State.at_ (s : State C) (c : C) (pc : Pc) : State C := { s with pc := Function.update s.pc c pc }

def State.descriptor (s : State C) (fd : Nat) : Descriptor := ⟨(s.files fd).getD 0, s.fds fd⟩

/-- What a call leaves of a descriptor that may be closed. -/
def State.put (s : State C) (fd : Nat) (d : Descriptor) : State C :=
  { s with
    files := Function.update s.files fd ((s.files fd).map fun _ => d.flags)
    fds := Function.update s.fds fd d.ctx }

def step (s : State C) : Action C → Option (State C)
  | .openF c fd flags =>
    if s.pc c = .idle ∧ s.files fd = none then
      some { s.at_ c (.get fd) with
        files := Function.update s.files fd (some flags)
        opened := Function.update s.opened fd flags
        uses := Function.update s.uses fd [] }
    else none
  | .get c =>
    match s.pc c with
    | .get fd => some (s.at_ c (if (s.fds fd).isSome then .idle else .create fd))
    | _ => none
  | .create c =>
    match s.pc c with
    | .create fd =>
      let r := FdCtx.init K ((s.files fd).map fun _ => true) {} ((s.files fd).getD 0)
      some ((s.at_ c .idle).put fd ⟨r.2, some r.1⟩)
    | _ => none
  | .use c fd u =>
    if s.pc c = .idle then
      some { s.put fd (use K (s.descriptor fd) u) with uses := Function.update s.uses fd (s.uses fd ++ [u]) }
    else none
  | .close c fd =>
    if s.pc c = .idle then some (s.at_ c (if (s.fds fd).isSome then .cancelAll fd else .closeF fd)) else none
  | .cancelAll c =>
    match s.pc c with
    | .cancelAll fd => some (s.at_ c (.del fd))
    | _ => none
  | .del c =>
    match s.pc c with
    | .del fd => some { s.at_ c (.closeF fd) with fds := Function.update s.fds fd none }
    | _ => none
  | .closeF c =>
    match s.pc c with
    | .closeF fd => some { s.at_ c .idle with files := Function.update s.files fd none }
    | _ => none

def State.Busy (s : State C) (fd : Nat) : Prop := ∃ c, (s.pc c).fd = some fd

/-- A descriptor is used and closed only between the end of the call that opened it and the
begin of the one that closes it. -/
def Regular (s : State C) : Action C → Prop
  | .use _ fd _ | .close _ fd => s.files fd ≠ none ∧ ¬ s.Busy fd
  | _ => True

structure Init (s : State C) : Prop where
  idle : ∀ c, s.pc c = .idle
  files : ∀ fd, s.files fd = none
  fds : ∀ fd, s.fds fd = none

end Model

section History

def lastTimeout (type : TimeoutType) (uses : List Use) : UInt64 :=
  uses.foldl (fun v u =>
    match u with
    | .flag _ => v
    | .setsockopt type' sec usec => if type' = type then milliseconds sec usec else v) (-1)

def flagCalls (uses : List Use) : List FlagCall :=
  uses.filterMap fun u =>
    match u with
    | .flag call => some call
    | .setsockopt .. => none

/-- A socket after calls that began when it was opened: what the user asked for, and the timeouts
that `do_io` is going to read. -/
structure Reflects (K : Kernel) (opened : Flags) (uses : List Use) (d : Descriptor) : Prop where
  shadowed : Shadowed (flagCalls uses) d
  flags : d.flags = ((Descriptor.created K opened).run K (flagCalls uses)).flags
  timeouts : ∀ ctx, d.ctx = some ctx → ∀ type, getTimeout type ctx = lastTimeout type uses

@[simp] theorem getTimeout_setTimeout (type type' : TimeoutType) (v : UInt64) (ctx : FdCtx) :
    getTimeout type (setTimeout type' v ctx) = if type' = type then v else getTimeout type ctx := by
  cases type <;> cases type' <;> rfl

theorem lastTimeout_append (type : TimeoutType) (uses : List Use) (u : Use) :
    lastTimeout type (uses ++ [u]) =
      match u with
      | .flag _ => lastTimeout type uses
      | .setsockopt type' sec usec => if type' = type then milliseconds sec usec else lastTimeout type uses := by
  rw [lastTimeout, List.foldl_append]
  rfl

theorem flagCalls_append (uses : List Use) (u : Use) : flagCalls (uses ++ [u]) = flagCalls uses ++ flagCalls [u] :=
  List.filterMap_append

variable {K : Kernel}

theorem reflects_created (opened : Flags) : Reflects K opened [] (Descriptor.created K opened) where
  shadowed := shadowed_run K opened []
  flags := rfl
  timeouts := by
    rintro ctx ⟨⟩ type
    cases type <;> rfl

/-- What a call makes of the flags of a socket depends on nothing else of it. -/
theorem step_flags {calls calls' : List FlagCall} {d d' : Descriptor} (h : Shadowed calls d) (h' : Shadowed calls' d')
    (hf : d.flags = d'.flags) (call : FlagCall) : (d.step K call).flags = (d'.step K call).flags := by
  obtain ⟨ctx, -, hm, hsys, -⟩ := h.ctx
  obtain ⟨ctx', -, hm', hsys', -⟩ := h'.ctx
  cases call <;> simp [Descriptor.step, Descriptor.fcntlSetfl, Descriptor.ioctlFionbio, hm, hm', hsys, hsys', hf]

theorem step_timeouts {d : Descriptor} {ctx' : FdCtx} (call : FlagCall) (h : (d.step K call).ctx = some ctx')
    (type : TimeoutType) : ∃ ctx, d.ctx = some ctx ∧ getTimeout type ctx' = getTimeout type ctx := by
  cases hm : d.managed with
  | none =>
    refine ⟨ctx', ?_, rfl⟩
    cases call <;> simpa [Descriptor.step, Descriptor.fcntlSetfl, Descriptor.ioctlFionbio, hm] using h
  | some ctx =>
    obtain ⟨hctx, -⟩ := Option.filter_eq_some_iff.mp hm
    refine ⟨ctx, hctx, ?_⟩
    cases call with
    | getfl =>
      cases hctx.symm.trans h
      rfl
    | setfl arg | fionbio v =>
      simp only [Descriptor.step, Descriptor.fcntlSetfl, Descriptor.ioctlFionbio, hm, Option.some.injEq] at h
      subst h
      cases type <;> rfl

theorem Reflects.use {opened : Flags} {uses : List Use} {d : Descriptor} (h : Reflects K opened uses d) (u : Use) :
    Reflects K opened (uses ++ [u]) (use K d u) := by
  cases u with
  | flag call =>
    have hcalls : flagCalls (uses ++ [.flag call]) = flagCalls uses ++ [call] := flagCalls_append uses _
    refine ⟨hcalls ▸ h.shadowed.step K call, ?_, fun ctx' hctx type => ?_⟩
    · rw [hcalls, Descriptor.run, List.foldl_append]
      exact step_flags h.shadowed (shadowed_run K opened _) h.flags call
    · obtain ⟨ctx, hd, ht⟩ := step_timeouts call hctx type
      rw [lastTimeout_append, ht, h.timeouts ctx hd type]
  | setsockopt type sec usec =>
    have hcalls : flagCalls (uses ++ [.setsockopt type sec usec]) = flagCalls uses := by
      rw [flagCalls_append]
      exact List.append_nil _
    obtain ⟨ctx, hctx, hm, hsys, huser⟩ := h.shadowed.ctx
    have hguard : (!ctx.isClosed && ctx.isSocket) = true := (Option.filter_eq_some_iff.mp hm).2
    refine ⟨⟨setTimeout type (milliseconds sec usec) ctx, ?_, ?_, ?_, ?_⟩, ?_, fun ctx' h' type' => ?_⟩
    · simp [Descriptors.use, hctx]
    · cases type <;> simpa [Descriptors.use, Descriptor.managed, hctx, setTimeout] using hguard
    · cases type <;> exact hsys
    · rw [hcalls, ← huser]
      cases type <;> rfl
    · rw [hcalls]
      exact h.flags
    · simp only [Descriptors.use, hctx, Option.map_some, Option.some.injEq] at h'
      subst h'
      rw [lastTimeout_append, getTimeout_setTimeout, h.timeouts ctx hctx type']

end History

section Invariant

variable {K : Kernel} {C : Type} [DecidableEq C] {s t : State C}

/-- What holds of a descriptor while a call opens or closes it. -/
def Held (s : State C) (fd : Nat) : Pc → Prop
  | .get _ | .create _ => s.files fd = some (s.opened fd) ∧ s.fds fd = none ∧ s.uses fd = []
  | .cancelAll _ | .del _ => s.files fd ≠ none
  | .closeF _ => s.files fd ≠ none ∧ s.fds fd = none
  | .idle => False

/-- A descriptor is closed and has no context, or one call opens or closes it, or its context is
that of this socket. -/
inductive Sound (K : Kernel) (s : State C) (fd : Nat) : Prop
  | closed (hf : s.files fd = none) (hc : s.fds fd = none) (hb : ¬ s.Busy fd)
  | held (c : C) (hc : (s.pc c).fd = some fd) (halone : ∀ c', (s.pc c').fd = some fd → c' = c)
    (h : Held s fd (s.pc c))
  | ready (flags : Flags) (hf : s.files fd = some flags) (hb : ¬ s.Busy fd)
    (h : Reflects K (s.opened fd) (s.uses fd) ⟨flags, s.fds fd⟩)

structure Touches (s t : State C) (c : C) (fd : Nat) : Prop where
  files : ∀ fd', fd' ≠ fd → t.files fd' = s.files fd'
  fds : ∀ fd', fd' ≠ fd → t.fds fd' = s.fds fd'
  opened : ∀ fd', fd' ≠ fd → t.opened fd' = s.opened fd'
  uses : ∀ fd', fd' ≠ fd → t.uses fd' = s.uses fd'
  others : ∀ c', c' ≠ c → t.pc c' = s.pc c'
  before : ∀ fd', fd' ≠ fd → (s.pc c).fd ≠ some fd'
  after : ∀ fd', fd' ≠ fd → (t.pc c).fd ≠ some fd'

omit [DecidableEq C] in
theorem Touches.pc_iff {c : C} {fd : Nat} (h : Touches s t c fd) {fd' : Nat} (hne : fd' ≠ fd) (c' : C) :
    (t.pc c').fd = some fd' ↔ (s.pc c').fd = some fd' := by
  by_cases hc : c' = c
  · subst hc
    exact iff_of_false (h.after fd' hne) (h.before fd' hne)
  · rw [h.others c' hc]

omit [DecidableEq C] in
theorem Sound.frame {c : C} {fd fd' : Nat} (h : Sound K s fd') (ht : Touches s t c fd) (hne : fd' ≠ fd) :
    Sound K t fd' := by
  have hbusy : t.Busy fd' ↔ s.Busy fd' := exists_congr fun c' => ht.pc_iff hne c'
  cases h with
  | closed hf hc hb => exact .closed ((ht.files fd' hne).trans hf) ((ht.fds fd' hne).trans hc) (mt hbusy.mp hb)
  | held c' hc halone h =>
    have hpc : t.pc c' = s.pc c' := ht.others c' fun he => ht.before fd' hne (he ▸ hc)
    refine .held c' (hpc ▸ hc) (fun c'' h'' => halone c'' ((ht.pc_iff hne c'').mp h'')) ?_
    rw [hpc]
    cases hp : s.pc c' <;>
      simp only [hp, Held, ht.files fd' hne, ht.fds fd' hne, ht.opened fd' hne, ht.uses fd' hne] at h ⊢ <;> exact h
  | ready flags hf hb h =>
    refine .ready flags ((ht.files fd' hne).trans hf) (mt hbusy.mp hb) ?_
    rw [ht.opened fd' hne, ht.uses fd' hne, ht.fds fd' hne]
    exact h

omit [DecidableEq C] in
theorem Sound.of_held {c : C} {fd : Nat} (h : Sound K s fd) (hc : (s.pc c).fd = some fd) :
    (∀ c', (s.pc c').fd = some fd → c' = c) ∧ Held s fd (s.pc c) := by
  cases h with
  | closed _ _ hb | ready _ _ hb _ => exact absurd ⟨c, hc⟩ hb
  | held c' hc' halone h =>
    obtain rfl := halone c hc
    exact ⟨halone, h⟩

theorem touches_of_update {c : C} {fd : Nat} {pc : Pc} (hpc : t.pc = Function.update s.pc c pc)
    (hs : (s.pc c).fd = none ∨ (s.pc c).fd = some fd) (hp : pc.fd = none ∨ pc.fd = some fd)
    (hfields : ∀ fd', fd' ≠ fd → t.files fd' = s.files fd' ∧ t.fds fd' = s.fds fd' ∧
      t.opened fd' = s.opened fd' ∧ t.uses fd' = s.uses fd') : Touches s t c fd where
  files fd' hne := (hfields fd' hne).1
  fds fd' hne := (hfields fd' hne).2.1
  opened fd' hne := (hfields fd' hne).2.2.1
  uses fd' hne := (hfields fd' hne).2.2.2
  others c' hne := by rw [hpc, Function.update_of_ne hne]
  before fd' hne he := by
    rcases hs with h | h <;> rw [h] at he <;> cases he
    exact hne rfl
  after fd' hne he := by
    rw [hpc, Function.update_self] at he
    rcases hp with h | h <;> rw [h] at he <;> cases he
    exact hne rfl

theorem not_busy_update {c : C} {fd : Nat} (hpc : t.pc = Function.update s.pc c .idle)
    (halone : ∀ c', (s.pc c').fd = some fd → c' = c) : ¬ t.Busy fd := by
  rintro ⟨c', hc'⟩
  by_cases hcc : c' = c
  · subst hcc
    rw [hpc, Function.update_self] at hc'
    cases hc'
  · rw [hpc, Function.update_of_ne hcc] at hc'
    exact hcc (halone c' hc')

theorem held_update {c : C} {fd : Nat} {pc : Pc} (hpc : t.pc = Function.update s.pc c pc) (hfd : pc.fd = some fd)
    (halone : ∀ c', (s.pc c').fd = some fd → c' = c) (h : Held t fd pc) : Sound K t fd := by
  have hself : t.pc c = pc := by rw [hpc, Function.update_self]
  refine .held c (by rw [hself, hfd]) (fun c' hc' => ?_) (hself ▸ h)
  by_contra hcc
  rw [hpc, Function.update_of_ne hcc] at hc'
  exact hcc (halone c' hc')

/-- One step is one of a call on a descriptor, which stays sound. -/
theorem sound_step (h : ∀ fd, Sound K s fd) {a : Action C} (hok : Regular s a) (ht : step K s a = some t) :
    ∃ c fd, Touches s t c fd ∧ Sound K t fd := by
  cases a with
  | openF c fd flags =>
    simp only [step] at ht
    split at ht
    · rename_i hguard
      obtain ⟨hidle, hf⟩ := hguard
      obtain rfl := Option.some.inj ht
      refine ⟨c, fd, touches_of_update rfl (.inl (by rw [hidle]; rfl)) (.inr rfl) fun fd' hne => ?_, ?_⟩
      · simp [State.at_, Function.update_of_ne hne]
      · cases h fd with
        | held c' _ _ hheld => cases hp : s.pc c' <;> simp [hp, Held, hf] at hheld
        | ready _ hf' _ _ => cases hf.symm.trans hf'
        | closed _ hc hb =>
          refine held_update rfl rfl (fun c' hc' => absurd ⟨c', hc'⟩ hb) ?_
          exact ⟨by simp, hc, by simp⟩
    · cases ht
  | get c =>
    simp only [step] at ht
    split at ht
    · rename_i fd hpc
      obtain rfl := Option.some.inj ht
      have hfd : (s.pc c).fd = some fd := by rw [hpc]; rfl
      obtain ⟨halone, hheld⟩ := (h fd).of_held hfd
      rw [hpc] at hheld
      have hnone : (s.fds fd).isSome = false := by rw [hheld.2.1]; rfl
      refine ⟨c, fd, touches_of_update rfl (.inr hfd) (.inr ?_)
          fun fd' hne => ⟨rfl, rfl, rfl, rfl⟩, ?_⟩
      · simp [hnone, Pc.fd]
      · exact held_update rfl (by simp [hnone, Pc.fd]) halone (by rw [hnone]; exact hheld)
    · cases ht
  | create c =>
    simp only [step] at ht
    split at ht
    · rename_i fd hpc
      obtain rfl := Option.some.inj ht
      have hfd : (s.pc c).fd = some fd := by rw [hpc]; rfl
      obtain ⟨halone, hheld⟩ := (h fd).of_held hfd
      rw [hpc] at hheld
      obtain ⟨hf, -, hu⟩ := hheld
      refine ⟨c, fd, touches_of_update rfl (.inr hfd) (.inl rfl) fun fd' hne => ?_, ?_⟩
      · simp [State.put, State.at_, Function.update_of_ne hne]
      · refine .ready (Descriptor.created K (s.opened fd)).flags ?_ (not_busy_update rfl halone) ?_
        · simp [State.put, State.at_, hf, Descriptor.created]
        · have hr := reflects_created (K := K) (s.opened fd)
          simpa [State.put, State.at_, hf, hu, Descriptor.created] using hr
    · cases ht
  | use c fd u =>
    obtain ⟨hopen, hb⟩ := hok
    simp only [step] at ht
    split at ht
    · rename_i hidle
      obtain rfl := Option.some.inj ht
      have hpc : s.pc = Function.update s.pc c .idle := by rw [← hidle, Function.update_eq_self]
      refine ⟨c, fd, touches_of_update hpc (.inl (by rw [hidle]; rfl)) (.inl rfl) fun fd' hne => ?_, ?_⟩
      · simp [State.put, Function.update_of_ne hne]
      · cases h fd with
        | closed hf _ _ => exact absurd hf hopen
        | held c' hc' _ _ => exact absurd ⟨c', hc'⟩ hb
        | ready flags hf _ hr =>
          have hd : s.descriptor fd = ⟨flags, s.fds fd⟩ := by rw [State.descriptor, hf]; rfl
          refine .ready (use K (s.descriptor fd) u).flags ?_ hb ?_
          · simp [State.put, hf]
          · have hu := hr.use u
            rw [← hd] at hu
            simpa [State.put] using hu
    · cases ht
  | close c fd =>
    obtain ⟨hopen, hb⟩ := hok
    simp only [step] at ht
    split at ht
    · rename_i hidle
      obtain rfl := Option.some.inj ht
      cases h fd with
      | closed hf _ _ => exact absurd hf hopen
      | held c' hc' _ _ => exact absurd ⟨c', hc'⟩ hb
      | ready flags hf _ hr =>
        obtain ⟨ctx, hctx, -⟩ := hr.shadowed.ctx
        have hsome : (s.fds fd).isSome = true := by rw [show s.fds fd = some ctx from hctx]; rfl
        refine ⟨c, fd, touches_of_update rfl (.inl (by rw [hidle]; rfl)) (.inr ?_)
          fun fd' hne => ⟨rfl, rfl, rfl, rfl⟩, ?_⟩
        · simp [hsome, Pc.fd]
        · refine held_update rfl (by simp [hsome, Pc.fd]) (fun c' hc' => absurd ⟨c', hc'⟩ hb) ?_
          rw [hsome]
          exact hopen
    · cases ht
  | cancelAll c =>
    simp only [step] at ht
    split at ht
    · rename_i fd hpc
      obtain rfl := Option.some.inj ht
      have hfd : (s.pc c).fd = some fd := by rw [hpc]; rfl
      obtain ⟨halone, hheld⟩ := (h fd).of_held hfd
      rw [hpc] at hheld
      exact ⟨c, fd, touches_of_update rfl (.inr hfd) (.inr rfl) fun fd' hne => ⟨rfl, rfl, rfl, rfl⟩,
        held_update rfl rfl halone hheld⟩
    · cases ht
  | del c =>
    simp only [step] at ht
    split at ht
    · rename_i fd hpc
      obtain rfl := Option.some.inj ht
      have hfd : (s.pc c).fd = some fd := by rw [hpc]; rfl
      obtain ⟨halone, hheld⟩ := (h fd).of_held hfd
      rw [hpc] at hheld
      refine ⟨c, fd, touches_of_update rfl (.inr hfd) (.inr rfl) fun fd' hne => ?_, held_update rfl rfl halone ?_⟩
      · simp [State.at_, Function.update_of_ne hne]
      · exact ⟨hheld, Function.update_self ..⟩
    · cases ht
  | closeF c =>
    simp only [step] at ht
    split at ht
    · rename_i fd hpc
      obtain rfl := Option.some.inj ht
      have hfd : (s.pc c).fd = some fd := by rw [hpc]; rfl
      obtain ⟨halone, hheld⟩ := (h fd).of_held hfd
      rw [hpc] at hheld
      refine ⟨c, fd, touches_of_update rfl (.inr hfd) (.inl rfl) fun fd' hne => ?_, ?_⟩
      · simp [State.at_, Function.update_of_ne hne]
      · exact .closed (Function.update_self ..) hheld.2 (not_busy_update rfl halone)
    · cases ht

theorem sound_after (h : Run Init (step K) Regular s) (fd : Nat) : Sound K s fd := by
  refine Run.invariant (I := fun s => ∀ fd, Sound K s fd) (fun s h0 fd => ?_) (fun s a t hi hok ht => ?_) h fd
  · refine .closed (h0.files fd) (h0.fds fd) ?_
    rintro ⟨c, hc⟩
    rw [h0.idle c] at hc
    cases hc
  · obtain ⟨c, fd, htouch, hsound⟩ := sound_step hi hok ht
    intro fd'
    by_cases hne : fd' = fd
    · exact hne ▸ hsound
    · exact (hi fd').frame htouch hne

/-- However the calls interleave and whichever numbers the kernel gives out again, a number that is
not in use has no context, and that of an open socket has the flags and the timeouts that were
asked for since the socket was opened; the kernel blocks only after `FIONBIO` with zero. -/
theorem descriptors_fresh (h : Run Init (step K) Regular s) (fd : Nat) :
    (s.files fd = none → s.fds fd = none) ∧
      ∀ flags, s.files fd = some flags → ¬ s.Busy fd → ∃ ctx, s.fds fd = some ctx ∧
        ctx.isSocket = true ∧ ctx.isClosed = false ∧ ctx.userNonblock = asked (flagCalls (s.uses fd)) ∧
          (∀ type, getTimeout type ctx = lastTimeout type (s.uses fd)) ∧
            (.fionbio 0 ∉ flagCalls (s.uses fd) → nonblock flags = true) := by
  constructor
  · intro hf
    cases sound_after h fd with
    | closed _ hc _ => exact hc
    | ready flags hf' _ _ => cases hf.symm.trans hf'
    | held c _ _ hheld => cases hp : s.pc c <;> simp [hp, Held, hf] at hheld
  · intro flags hf hb
    cases sound_after h fd with
    | closed hf' _ _ => cases hf.symm.trans hf'
    | held c hc _ _ => exact absurd ⟨c, hc⟩ hb
    | ready flags' hf' _ hr =>
      cases hf.symm.trans hf'
      obtain ⟨ctx, hctx, hm, -, huser⟩ := hr.shadowed.ctx
      have hguard := (Option.filter_eq_some_iff.mp hm).2
      simp only [Bool.and_eq_true, Bool.not_eq_true'] at hguard
      refine ⟨ctx, hctx, hguard.2, hguard.1, huser, hr.timeouts ctx hctx, fun hno => ?_⟩
      rw [show flags = _ from hr.flags]
      exact nonblock_run K (s.opened fd) hno

end Invariant

section Reuse

instance (s : State (Fin 2)) (fd : Nat) : Decidable (s.Busy fd) := inferInstanceAs (Decidable (∃ _, _))

instance (s : State (Fin 2)) (a : Action (Fin 2)) : Decidable (Regular s a) :=
  match a with
  | .use _ fd _ | .close _ fd => inferInstanceAs (Decidable (s.files fd ≠ none ∧ ¬ s.Busy fd))
  | .openF .. | .get _ | .create _ | .cancelAll _ | .del _ | .closeF _ => .isTrue trivial

def noFiles : State (Fin 2) := ⟨fun _ => .idle, fun _ => none, fun _ => none, fun _ => 0, fun _ => []⟩

def reusing (c d : Fin 2) : List (Action (Fin 2)) :=
  [.openF c 3 2, .get c, .create c, .use c 3 (.setsockopt .recv 5 0), .use c 3 (.flag (.setfl oNonblock)),
    .close c 3, .cancelAll c, .del c, .closeF c, .openF d 3 2, .get d, .create d,
    .use d 3 (.setsockopt .send 1 500000)]

theorem descriptors_fresh_reused : ∃ (s : State (Fin 2)) (flags : Flags) (ctx : FdCtx),
    s.files 3 = some flags ∧ s.fds 3 = some ctx ∧ ctx.recvTimeout = -1 ∧ ctx.sendTimeout = 1500 ∧
      ctx.userNonblock = false ∧ nonblock flags = true := by
  have h : (exec (guarded (step linux) Regular) noFiles (reusing 0 1)).map
      (fun s => (s.files 3, s.uses 3, decide (s.Busy 3))) =
        some (some 0x802, [.setsockopt .send 1 500000], false) := by
    decide +kernel
  obtain ⟨s, hs, he⟩ := Option.map_eq_some_iff.mp h
  obtain ⟨hf, hu, hb⟩ : s.files 3 = some 0x802 ∧ s.uses 3 = [.setsockopt .send 1 500000] ∧ ¬ s.Busy 3 := by
    simpa using he
  have hrun : Run Init (step linux) Regular s := Run.exec (.start ⟨fun _ => rfl, fun _ => rfl, fun _ => rfl⟩) _ hs
  obtain ⟨ctx, hctx, -, -, huser, htimeouts, hnonblock⟩ := (descriptors_fresh hrun 3).2 _ hf hb
  rw [hu] at huser htimeouts hnonblock
  exact ⟨s, _, ctx, hf, hctx, htimeouts .recv, htimeouts .send, huser, hnonblock (by decide)⟩

end Reuse

end Windgent.Hook.Descriptors
