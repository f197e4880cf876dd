import Windgent.Sections

namespace Windgent.Locks

open Sections Transition

structure RWMutex where
  readers : Nat
  writer : Bool
deriving DecidableEq

namespace RWMutex

def new : RWMutex := ⟨0, false⟩

/-- An attempt of `rdlock`, which blocks until one succeeds. -/
def rdlock (m : RWMutex) : RWMutex × Bool :=
  if m.writer then (m, false) else ({ m with readers := m.readers + 1 }, true)

def wrlock (m : RWMutex) : RWMutex × Bool :=
  if m.writer ∨ 0 < m.readers then (m, false) else ({ m with writer := true }, true)

def unlock (m : RWMutex) : RWMutex :=
  if m.writer then { m with writer := false } else { m with readers := m.readers - 1 }

end RWMutex

structure Mutex where
  owned : Bool
deriving DecidableEq

namespace Mutex

def new : Mutex := ⟨false⟩

def lock (m : Mutex) : Mutex × Bool := if m.owned then (m, false) else (⟨true⟩, true)

def unlock (_ : Mutex) : Mutex := ⟨false⟩

end Mutex

abbrev SpinLock := Mutex

structure CASLock where
  flag : Bool
deriving DecidableEq

namespace CASLock

def new : CASLock := ⟨false⟩

/-- A turn of the loop: the flag is set, and the loop ends if it was clear. -/
def lock (m : CASLock) : CASLock × Bool := (⟨true⟩, !m.flag)

def unlock (_ : CASLock) : CASLock := ⟨false⟩

end CASLock

section Guards

variable {T : Type}

/-- `ScopedLockImpl::unlock`, and that of `RdScopedLockImpl` and `WrScopedLockImpl`, which the
destructors call: on the mutex and `m_locked`. -/
def scopedUnlock (unlock : T → T) (m : T × Bool) : T × Bool := if m.2 then (unlock m.1, false) else m

/-- The constructor of a `ScopedLockImpl`: `m_locked` is set when an attempt succeeds. -/
def scopedLock (lock : T → T × Bool) (unlock : T → T) : Guard T where
  construct _ m := lock m
  unlock := scopedUnlock unlock

def rdWrScopedLock (rdlock wrlock : T → T × Bool) (unlock : T → T) : Guard T where
  construct
    | .read, m => rdlock m
    | .write, m => wrlock m
  unlock := scopedUnlock unlock

end Guards

def RWMutex.lock : Guard RWMutex := rdWrScopedLock RWMutex.rdlock RWMutex.wrlock RWMutex.unlock

def Mutex.scoped : Guard Mutex := scopedLock Mutex.lock Mutex.unlock

def SpinLock.scoped : Guard SpinLock := scopedLock Mutex.lock Mutex.unlock

def CASLock.scoped : Guard CASLock := scopedLock CASLock.lock CASLock.unlock

/-- The locks and their initial states. -/
inductive Provided : {Λ : Type} → Guard Λ → Λ → Prop
  | rwMutex : Provided RWMutex.lock RWMutex.new
  | mutex : Provided Mutex.scoped Mutex.new
  | spinLock : Provided SpinLock.scoped Mutex.new
  | casLock : Provided CASLock.scoped CASLock.new

def RWMutex.Held (m : RWMutex) (n : Mode → Nat) : Prop :=
  n .read = m.readers ∧ n .write = m.writer.toNat ∧ (m.writer = true → m.readers = 0)

def HeldOnce (bit : Bool) (n : Mode → Nat) : Prop := n .read + n .write = bit.toNat

theorem RWMutex.lawful : RWMutex.lock.Lawful RWMutex.Held where
  taken := by
    rintro m m' mode n ⟨hr, hw, hx⟩ hl
    cases mode with
    | read =>
      simp only [RWMutex.lock, rdWrScopedLock, rdlock] at hl
      split at hl <;> cases hl
      rename_i hwriter
      exact ⟨by simp [bump, hr], by simpa [bump] using hw, fun h => absurd h hwriter⟩
    | write =>
      simp only [RWMutex.lock, rdWrScopedLock, wrlock] at hl
      split at hl <;> cases hl
      rename_i hfree
      simp only [not_or, Bool.not_eq_true, Nat.not_lt, Nat.le_zero] at hfree
      exact ⟨by simpa [bump] using hr, by simp [bump, hw, hfree.1], fun _ => hfree.2⟩
  refused := by
    intro m m' mode n hm hl
    cases mode with
    | read =>
      simp only [RWMutex.lock, rdWrScopedLock, rdlock] at hl
      split at hl <;> cases hl
      exact hm
    | write =>
      simp only [RWMutex.lock, rdWrScopedLock, wrlock] at hl
      split at hl <;> cases hl
      exact hm
  unlock := by
    rintro m mode n ⟨hr, hw, hx⟩
    cases hwriter : m.writer with
    | false =>
      cases mode with
      | write => simp [bump, hwriter] at hw
      | read =>
        simp only [bump, hwriter, reduceCtorEq, if_true, if_false] at hr hw
        simp only [RWMutex.lock, rdWrScopedLock, scopedUnlock, RWMutex.unlock, hwriter, if_true]
        exact ⟨by simp; omega, hw, fun h => by simp at h⟩
    | true =>
      cases mode with
      | read => simp [bump, hx hwriter] at hr
      | write =>
        simp only [bump, hwriter, reduceCtorEq, if_true, if_false, Bool.toNat_true] at hr hw
        simp only [RWMutex.lock, rdWrScopedLock, scopedUnlock, RWMutex.unlock, hwriter, if_true]
        exact ⟨hr, by simp; omega, fun h => by simp at h⟩
  unlocked _ := rfl
  again _ := rfl
  alone := by
    rintro m n ⟨hr, hw, hx⟩ mode
    cases hwriter : m.writer <;> cases mode <;> simp_all [bump]

theorem lawful_once {T : Type} {lock : T → T × Bool} {unlock : T → T} (bit : T → Bool)
    (hlock : ∀ m, bit (lock m).1 = true ∧ (lock m).2 = !bit m) (hunlock : ∀ m, bit (unlock m) = false) :
    (scopedLock lock unlock).Lawful fun m => HeldOnce (bit m) where
  taken := by
    intro m m' mode n hm hl
    obtain ⟨h1, h2⟩ := hlock m
    have hl : lock m = (m', true) := hl
    rw [hl] at h1 h2
    have hz : bit m = false := by simpa using h2.symm
    simp only [HeldOnce, hz, h1, bump, Bool.toNat_false, Bool.toNat_true] at hm ⊢
    cases mode <;> simp <;> omega
  refused := by
    intro m m' mode n hm hl
    obtain ⟨h1, h2⟩ := hlock m
    have hl : lock m = (m', false) := hl
    rw [hl] at h1 h2
    have hz : bit m = true := by simpa using h2.symm
    rwa [HeldOnce, h1, ← hz]
  unlock := by
    intro m mode n hm
    have hz : bit ((scopedLock lock unlock).unlock (m, true)).1 = false := hunlock m
    have hb := Bool.toNat_le (bit m)
    simp only [HeldOnce, hz, bump, Bool.toNat_false] at hm ⊢
    cases mode <;> simp at hm <;> omega
  unlocked _ := rfl
  again _ := rfl
  alone := by
    intro m n hm mode
    have hb := Bool.toNat_le (bit m)
    simp only [HeldOnce, bump] at hm
    cases mode <;> simp at hm <;> omega

namespace Provided

variable {Λ σ κ ρ : Type} {g : Guard Λ} {l₀ : Λ}

/-- Each of the locks keeps count, and is as new when nobody holds it. -/
theorem lawful (hg : Provided g l₀) :
    ∃ held, g.Lawful held ∧ held l₀ (fun _ => 0) ∧ ∀ l, held l (fun _ => 0) → l = l₀ := by
  have honce : ∀ b, HeldOnce b (fun _ => 0) → b = false := by
    intro b hb
    cases b with
    | false => rfl
    | true => cases hb
  cases hg with
  | rwMutex =>
    refine ⟨RWMutex.Held, RWMutex.lawful, ⟨rfl, rfl, fun _ => rfl⟩, ?_⟩
    rintro ⟨readers, _ | _⟩ ⟨hr, hw, -⟩
    · cases hr
      rfl
    · cases hw
  | mutex =>
    refine ⟨_, lawful_once Mutex.owned (fun m => ?_) fun _ => rfl, rfl, fun m hm => ?_⟩
    · rcases m with ⟨_ | _⟩ <;> exact ⟨rfl, rfl⟩
    · exact congrArg Mutex.mk (honce _ hm)
  | spinLock =>
    refine ⟨_, lawful_once Mutex.owned (fun m => ?_) fun _ => rfl, rfl, fun m hm => ?_⟩
    · rcases m with ⟨_ | _⟩ <;> exact ⟨rfl, rfl⟩
    · exact congrArg Mutex.mk (honce _ hm)
  | casLock =>
    refine ⟨_, lawful_once CASLock.flag (fun m => ⟨rfl, rfl⟩) fun _ => rfl, rfl, fun m hm => ?_⟩
    exact congrArg CASLock.mk (honce _ hm)

theorem free (hg : Provided g l₀) (m : Mode) : (g.construct m l₀).2 = true := by
  cases hg <;> cases m <;> rfl

end Provided

section Atomicity

variable {Λ σ κ ρ : Type} {g : Guard Λ} {l₀ : Λ}

/-- Whatever the scheduler does, calls whose bodies are guarded by one of the locks act as if each
ran alone in the order in which they took it; one that writes excludes the others; and when no
guard holds the lock any more, the next attempt succeeds. -/
theorem sections_atomic (hg : Provided g l₀) (sections : κ → Section σ ρ) (init : σ) (labels : List (Label κ))
    {s : State Λ σ κ ρ} (hs : exec (step g sections) (start l₀ init) labels = some s) :
    Explains sections init (acquired g sections (start l₀ init) labels) s ∧ Exclusive sections s ∧
      ((∀ j ∈ s.jobs, j.locked = false) →
        s.lock = l₀ ∧ ∀ call, (g.construct (sections call).mode s.lock).2 = true) := by
  obtain ⟨held, hlaw, hnew, hfree⟩ := hg.lawful
  have hserial := (Serialized.start hnew).exec hlaw labels hs
  refine ⟨hserial.explains, hserial.exclusive hlaw, fun hl => ?_⟩
  have hz : holders sections s.jobs = fun _ => 0 := by
    funext m
    exact List.countP_eq_zero.mpr fun j hj hm => by simp [hl j hj] at hm
  have hlock := hfree s.lock (hz ▸ hserial.held)
  exact ⟨hlock, fun call => hlock ▸ hg.free _⟩

def increment : Section Nat Nat := ⟨.write, .op id fun n => .op (fun _ => n + 1) fun _ => .ret n, by rintro ⟨⟩⟩

theorem sections_atomic_increment :
    Explains (fun _ : Fin 2 => increment) 0 [1, 0] ⟨CASLock.new, 2, [], [(1, 0), (0, 1)]⟩ ∧
    Exclusive (fun _ : Fin 2 => increment) ⟨CASLock.new, 2, [], [(1, 0), (0, 1)]⟩ ∧
    ((∀ j ∈ ([] : List (Job Nat (Fin 2) Nat)), j.locked = false) → CASLock.new = CASLock.new ∧
      ∀ _ : Fin 2, (CASLock.scoped.construct .write CASLock.new).2 = true) :=
  sections_atomic .casLock (fun _ : Fin 2 => increment) 0
    [.enter 1, .enter 0, .advance 0, .enter 0, .advance 0, .unlock 0, .leave 0,
      .enter 0, .advance 0, .enter 1, .advance 0, .leave 0] rfl

end Atomicity

end Windgent.Locks
