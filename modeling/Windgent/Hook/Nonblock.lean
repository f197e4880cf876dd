import Mathlib.Data.List.Induction
import Mathlib.Tactic.Common

namespace Windgent.Hook

abbrev Flags := BitVec 32

def oNonblock : Flags := 0x800

def nonblock (f : Flags) : Bool := f &&& oNonblock != 0

theorem nonblock_or (f : Flags) : nonblock (f ||| oNonblock) = true := by
  have h : (f ||| oNonblock) &&& oNonblock = oNonblock := by
    ext i hi
    simpa using Or.inr
  rw [nonblock, h]
  rfl

theorem nonblock_and_not (f : Flags) : nonblock (f &&& ~~~oNonblock) = false := by
  have h : f &&& ~~~oNonblock &&& oNonblock = 0 := by
    ext i hi
    simp
  rw [nonblock, h]
  rfl

structure Kernel where
  setfl : Flags → Flags → Flags
  fionbio : Flags → BitVec 32 → Flags
  nonblock_setfl : ∀ f arg, nonblock (setfl f arg) = nonblock arg
  nonblock_fionbio : ∀ f v, nonblock (fionbio f v) = (v != 0)

structure FdCtx where
  isInit : Bool := false
  isSocket : Bool := false
  sysNonblock : Bool := false
  userNonblock : Bool := false
  isClosed : Bool := false
  recvTimeout : UInt64 := -1
  sendTimeout : UInt64 := -1
deriving DecidableEq

/-- `FdCtx::init()`; `fstat` is whether the descriptor is a socket, if it is a descriptor. -/
def FdCtx.init (K : Kernel) (fstat : Option Bool) (ctx : FdCtx) (flags : Flags) : FdCtx × Flags :=
  if ctx.isInit then (ctx, flags)
  else
    let isSocket := fstat.getD false
    let flags := if isSocket && !nonblock flags then K.setfl flags (flags ||| oNonblock) else flags
    ({ isInit := fstat.isSome, isSocket := isSocket, sysNonblock := isSocket }, flags)

/-- The flags in the kernel, and what `FdManager::get` returns for the descriptor. -/
structure Descriptor where
  flags : Flags
  ctx : Option FdCtx
deriving DecidableEq

def Descriptor.created (K : Kernel) (flags : Flags) : Descriptor :=
  let r := FdCtx.init K (some true) {} flags
  ⟨r.2, some r.1⟩

inductive FlagCall where
  | setfl (arg : Flags)
  | getfl
  | fionbio (v : BitVec 32)
deriving DecidableEq

namespace Descriptor

variable (K : Kernel) (d : Descriptor)

/-- The context, unless `!ctx || ctx->isClosed() || !ctx->isSocket()`. -/
def managed : Option FdCtx := d.ctx.filter fun ctx => !ctx.isClosed && ctx.isSocket

def fcntlSetfl (arg : Flags) : Descriptor :=
  match d.managed with
  | none => { d with flags := K.setfl d.flags arg }
  | some ctx =>
    let arg' := if ctx.sysNonblock then arg ||| oNonblock else arg &&& ~~~oNonblock
    ⟨K.setfl d.flags arg', some { ctx with userNonblock := nonblock arg }⟩

def fcntlGetfl : Flags :=
  match d.managed with
  | none => d.flags
  | some ctx => if ctx.userNonblock then d.flags ||| oNonblock else d.flags &&& ~~~oNonblock

def ioctlFionbio (v : BitVec 32) : Descriptor :=
  match d.managed with
  | none => { d with flags := K.fionbio d.flags v }
  | some ctx => ⟨K.fionbio d.flags v, some { ctx with userNonblock := v != 0 }⟩

def step : FlagCall → Descriptor
  | .setfl arg => d.fcntlSetfl K arg
  | .getfl => d
  | .fionbio v => d.ioctlFionbio K v

def run (calls : List FlagCall) : Descriptor := calls.foldl (step K) d

end Descriptor

/-- Whether the last call of the user that says so asked for a non-blocking socket. -/
def asked (calls : List FlagCall) : Bool :=
  calls.foldl (fun b c =>
    match c with
    | .setfl arg => nonblock arg
    | .getfl => b
    | .fionbio v => v != 0) false

structure Shadowed (calls : List FlagCall) (d : Descriptor) : Prop where
  ctx : ∃ ctx, d.ctx = some ctx ∧ d.managed = some ctx ∧ ctx.sysNonblock = true ∧ ctx.userNonblock = asked calls

theorem Shadowed.step (K : Kernel) {calls : List FlagCall} {d : Descriptor} (h : Shadowed calls d) (c : FlagCall) :
    Shadowed (calls ++ [c]) (d.step K c) := by
  obtain ⟨ctx, hctx, hmanaged, hsys, huser⟩ := h.ctx
  have hguard : (!ctx.isClosed && ctx.isSocket) = true := by
    simpa [Descriptor.managed, hctx] using hmanaged
  cases c with
  | setfl arg =>
    rw [Descriptor.step, Descriptor.fcntlSetfl, hmanaged]
    exact ⟨_, rfl, by simpa [Descriptor.managed] using hguard, hsys, by simp [asked]⟩
  | getfl => exact ⟨ctx, hctx, hmanaged, hsys, by simpa [asked] using huser⟩
  | fionbio v =>
    rw [Descriptor.step, Descriptor.ioctlFionbio, hmanaged]
    exact ⟨_, rfl, by simpa [Descriptor.managed] using hguard, hsys, by simp [asked]⟩

theorem shadowed_run (K : Kernel) (flags : Flags) (calls : List FlagCall) :
    Shadowed calls ((Descriptor.created K flags).run K calls) := by
  induction calls using List.reverseRecOn with
  | nil => exact ⟨⟨_, rfl, rfl, rfl, rfl⟩⟩
  | append_singleton calls c ih =>
    rw [Descriptor.run, List.foldl_append]
    exact ih.step K c

theorem Shadowed.getfl {calls : List FlagCall} {d : Descriptor} (h : Shadowed calls d) :
    nonblock d.fcntlGetfl = asked calls := by
  obtain ⟨ctx, -, hmanaged, -, huser⟩ := h.ctx
  simp only [Descriptor.fcntlGetfl, hmanaged, ← huser]
  cases ctx.userNonblock with
  | false => exact nonblock_and_not _
  | true => exact nonblock_or _

/-- A call leaves the socket non-blocking in the kernel unless it is `FIONBIO` with zero. -/
theorem Shadowed.nonblock_step (K : Kernel) {calls : List FlagCall} {d : Descriptor} (h : Shadowed calls d)
    (hd : nonblock d.flags = true) (c : FlagCall) :
    nonblock (d.step K c).flags = true ↔ c ≠ .fionbio 0 := by
  obtain ⟨ctx, -, hmanaged, hsys, -⟩ := h.ctx
  cases c with
  | setfl arg =>
    rw [Descriptor.step, Descriptor.fcntlSetfl, hmanaged]
    simp [hsys, K.nonblock_setfl, nonblock_or]
  | getfl => simpa [Descriptor.step] using hd
  | fionbio v =>
    rw [Descriptor.step, Descriptor.ioctlFionbio, hmanaged]
    simp [K.nonblock_fionbio]

theorem nonblock_created (K : Kernel) (flags : Flags) : nonblock (Descriptor.created K flags).flags = true := by
  cases h : nonblock flags <;> simp [Descriptor.created, FdCtx.init, h, K.nonblock_setfl, nonblock_or]

theorem nonblock_run (K : Kernel) (flags : Flags) {calls : List FlagCall} (h : .fionbio 0 ∉ calls) :
    nonblock ((Descriptor.created K flags).run K calls).flags = true := by
  induction calls using List.reverseRecOn with
  | nil => exact nonblock_created K flags
  | append_singleton calls c ih =>
    rw [List.mem_append, not_or, List.mem_singleton] at h
    rw [Descriptor.run, List.foldl_append]
    exact ((shadowed_run K flags calls).nonblock_step K (ih h.1) c).mpr fun hc => h.2 hc.symm

/-- The socket is non-blocking in the kernel through all the calls exactly when none of
them is `FIONBIO` with zero; `F_GETFL` is right in any case. -/
theorem virtualised_iff (K : Kernel) (flags : Flags) (calls : List FlagCall) :
    (∀ p, p <+: calls →
      (∀ ctx, ((Descriptor.created K flags).run K p).ctx = some ctx → ctx.sysNonblock = true →
        nonblock ((Descriptor.created K flags).run K p).flags = true) ∧
      (nonblock ((Descriptor.created K flags).run K p).fcntlGetfl = true ↔ asked p = true)) ↔
      .fionbio 0 ∉ calls := by
  constructor
  · intro h hmem
    obtain ⟨p, rest, rfl, hp⟩ := List.eq_append_cons_of_mem hmem
    have hbefore := nonblock_run K flags hp
    have hclear := (shadowed_run K flags p).nonblock_step K hbefore (.fionbio 0)
    obtain ⟨ctx, hctx, -, hsys, -⟩ := (shadowed_run K flags (p ++ [.fionbio 0])).ctx
    have hset := (h (p ++ [.fionbio 0]) (by simp)).1 ctx hctx hsys
    rw [Descriptor.run, List.foldl_append] at hset
    exact hclear.mp hset rfl
  · intro h p hp
    refine ⟨fun _ _ _ => nonblock_run K flags fun hmem => h (hp.subset hmem), ?_⟩
    rw [(shadowed_run K flags p).getfl]

def setflMask : Flags := 0x46c00

def linux : Kernel where
  setfl f arg := (f &&& ~~~setflMask) ||| (arg &&& setflMask)
  fionbio f v := if v = 0 then f &&& ~~~oNonblock else f ||| oNonblock
  nonblock_setfl f arg := by
    have h : ((f &&& ~~~setflMask) ||| (arg &&& setflMask)) &&& oNonblock = arg &&& oNonblock := by
      have hmask : ∀ i : Fin 32, oNonblock[i] = true → setflMask[i] = true := by decide
      ext i hi
      have := hmask ⟨i, hi⟩
      grind
    unfold nonblock
    rw [h]
  nonblock_fionbio f v := by
    by_cases hv : v = 0
    · simp [hv, nonblock_and_not]
    · rw [if_neg hv, nonblock_or]
      simpa using hv

/-- `int v = 0; ioctl(fd, FIONBIO, &v)` makes the socket block in the kernel. -/
theorem blocking_after_fionbio :
    let d := (Descriptor.created linux 2).run linux [.fionbio 0]
    (∃ ctx ∈ d.ctx, ctx.sysNonblock = true) ∧ nonblock d.flags = false := by
  decide +kernel

end Windgent.Hook
