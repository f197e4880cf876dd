import Windgent.Scheduler.Effect
import Windgent.Transition
import Mathlib.Data.Fintype.Basic

namespace Windgent.Scheduler.Worker

open Transition

variable {W : Type}

/-- The worker has `f` in its hands: from its removal from the queue to the end
of the processing after `swapIn`, or as its cached `cb_fiber`. -/
def Holds (s : State W) (w : W) (f : Fiber W) : Prop :=
  (s.pc w).fiber = some f ∨ s.cbFiber w = some f

/-- The points at which the state of `f` may be `EXEC`: a direct `swapOut` leaves
it so until the worker writes `HOLD`. -/
def Pc.Busy (p : Pc W) (f : Fiber W) : Prop :=
  match p with
  | .restore g _ | .inside g _ | .yielding g _ _ | .setState g _ _ | .save g _ | .saved g _ |
    .decrement g _ | .testReady g _ | .testEnd g _ | .setHold g _ => g = f
  | _ => False

theorem Pc.Inside.fiber {p : Pc W} {f : Fiber W} (h : p.Inside f) : p.fiber = some f := by
  cases p <;> simp_all [Pc.Inside, Pc.fiber, Pc.run]

/-- What holds between a worker, at `p` with `cb_fiber` `c`, and its fibers. -/
structure Good (state : Fiber W → FiberState) (saved : Fiber W → Bool) (next : Nat) (w : W) (p : Pc W)
    (c : Option (Fiber W)) : Prop where
  bound : ∀ n, p.fiber = some (.sub n) ∨ c = some (.sub n) → n < next
  idle : ∀ v, p.fiber = some (.idle v) → v = w
  sub : ∀ v, c ≠ some (.idle v)
  other : ∀ f k, p.run = some (f, k) → k ≠ .callback → c ≠ some f
  cached : ∀ g, c = some g → p.fiber ≠ some g → state g = .init
  active : ∀ f, p.Active f → state f = .exec
  resetting : ∀ f r, p = .resetting f r → ended (state f) = true ∨ state f = .init
  exec : ∀ g, p.fiber = some g ∨ c = some g → state g = .exec → p.Busy g
  unsaved : ∀ g, p.fiber = some g ∨ c = some g → saved g = false → p.Inside g

structure Inv (s : State W) : Prop where
  good : ∀ w, Good s.state s.saved s.next w (s.pc w) (s.cbFiber w)
  alone : ∀ w v f, Holds s w f → Holds s v f → w = v
  free : ∀ f, (∀ w, ¬ Holds s w f) → s.state f ≠ .exec ∧ s.saved f = true

/-- `w` changes nothing but its own program counter, its `cb_fiber`, and fibers
it holds before or after. -/
structure Frame (s t : State W) (w : W) : Prop where
  pc : ∀ v, v ≠ w → t.pc v = s.pc v
  cbFiber : ∀ v, v ≠ w → t.cbFiber v = s.cbFiber v
  next : s.next ≤ t.next
  state : ∀ f, ¬ Holds s w f → ¬ Holds t w f → t.state f = s.state f ∧ t.saved f = s.saved f

theorem Good.congr {state state' : Fiber W → FiberState} {saved saved' : Fiber W → Bool}
    {next next' : Nat} {w : W} {p : Pc W} {c : Option (Fiber W)} (h : Good state saved next w p c)
    (hn : next ≤ next') (hs : ∀ f, p.fiber = some f ∨ c = some f → state' f = state f ∧ saved' f = saved f) :
    Good state' saved' next' w p c where
  bound n hm := Nat.lt_of_lt_of_le (h.bound n hm) hn
  idle := h.idle
  sub := h.sub
  other := h.other
  cached g hc hp := (hs g (.inr hc)).1.trans (h.cached g hc hp)
  active f hf := (hs f (.inl hf.fiber)).1.trans (h.active f hf)
  resetting f r hr := by
    rw [(hs f (.inl (by rw [hr]; rfl))).1]
    exact h.resetting f r hr
  exec g hg he := h.exec g hg ((hs g hg).1.symm.trans he)
  unsaved g hg he := h.unsaved g hg ((hs g hg).2.symm.trans he)

/-- The invariant is local to the worker that moves. -/
theorem Inv.frame {s t : State W} (h : Inv s) {w : W} (hf : Frame s t w)
    (hgood : Good t.state t.saved t.next w (t.pc w) (t.cbFiber w))
    (hnew : ∀ f, Holds t w f → Holds s w f ∨ ∀ v, ¬ Holds s v f)
    (hfree : ∀ f, Holds s w f → ¬ Holds t w f → t.state f ≠ .exec ∧ t.saved f = true) : Inv t := by
  have hother : ∀ v, v ≠ w → ∀ f, Holds t v f ↔ Holds s v f := by
    intro v hv f
    rw [Holds, Holds, hf.pc v hv, hf.cbFiber v hv]
  have hapart : ∀ v, v ≠ w → ∀ f, Holds s v f → ¬ Holds s w f ∧ ¬ Holds t w f := by
    intro v hv f hvf
    have hs : ¬ Holds s w f := fun hwf => hv (h.alone v w f hvf hwf)
    exact ⟨hs, fun hwf => (hnew f hwf).elim hs (fun hno => hno v hvf)⟩
  refine ⟨fun v => ?_, fun v u f hv hu => ?_, fun f hno => ?_⟩
  · by_cases hv : v = w
    · subst hv
      exact hgood
    · rw [hf.pc v hv, hf.cbFiber v hv]
      refine (h.good v).congr hf.next (fun f hvf => ?_)
      obtain ⟨h1, h2⟩ := hapart v hv f hvf
      exact hf.state f h1 h2
  · by_cases hvw : v = w
    · subst hvw
      by_contra hne
      exact (hapart u (Ne.symm hne) f ((hother u (Ne.symm hne) f).mp hu)).2 hv
    · by_cases huw : u = w
      · subst huw
        exact absurd hu (hapart v hvw f ((hother v hvw f).mp hv)).2
      · exact h.alone v u f ((hother v hvw f).mp hv) ((hother u huw f).mp hu)
  · by_cases hs : Holds s w f
    · exact hfree f hs (hno w)
    · obtain ⟨h1, h2⟩ := hf.state f hs (hno w)
      rw [h1, h2]
      refine h.free f (fun v => ?_)
      by_cases hv : v = w
      · subst hv
        exact hs
      · exact fun hvf => hno v ((hother v hv f).mpr hvf)

section Local

variable {state state' : Fiber W → FiberState} {saved saved' : Fiber W → Bool} {next next' : Nat} {w : W}
  {p p' : Pc W} {c c' : Option (Fiber W)} {f : Fiber W} {k k' : Kind}

theorem fiber_of_run (h : p.run = some (f, k)) : p.fiber = some f := by
  rw [Pc.fiber, h]
  rfl

theorem Good.cached_saved (h : Good state saved next w p c) {g : Fiber W} (hc : c = some g)
    (hg : p.fiber ≠ some g) : state g = .init ∧ saved g = true := by
  refine ⟨h.cached g hc hg, ?_⟩
  by_contra hs
  exact hg (h.unsaved g (.inr hc) (by simpa using hs)).fiber

theorem Good.rest (hp : p.run = none) (hbound : ∀ n, c = some (.sub n) → n < next)
    (hsub : ∀ v, c ≠ some (.idle v)) (hc : ∀ g, c = some g → state g = .init ∧ saved g = true) :
    Good state saved next w p c := by
  have hf : p.fiber = none := by rw [Pc.fiber, hp]; rfl
  refine ⟨?_, by simp [hf], hsub, by simp [hp], fun g hg _ => (hc g hg).1, ?_, ?_, ?_, ?_⟩
  · rintro n (hn | hn)
    · simp [hf] at hn
    · exact hbound n hn
  · intro g hg
    simpa [hf] using hg.fiber
  · intro g r hr
    simp [hr, Pc.run] at hp
  · rintro g (hg | hg) he
    · simp [hf] at hg
    · simp [(hc g hg).1] at he
  · rintro g (hg | hg) he
    · simp [hf] at hg
    · simp [(hc g hg).2] at he

theorem Good.stay (h : Good state saved next w p c) (hp : p.run = some (f, k))
    (hp' : p'.run = some (f, k')) (hk : k' ≠ .callback → c ≠ some f)
    (hs : ∀ g, g ≠ f → state' g = state g ∧ saved' g = saved g)
    (hactive : p'.Active f → state' f = .exec)
    (hreset : ∀ r, p' = .resetting f r → ended (state' f) = true ∨ state' f = .init)
    (hexec : state' f = .exec → p'.Busy f) (hunsaved : saved' f = false → p'.Inside f) :
    Good state' saved' next w p' c := by
  have hf := fiber_of_run hp
  have hf' := fiber_of_run hp'
  have hcached : ∀ g, c = some g → g ≠ f → state' g = .init ∧ saved' g = true := by
    intro g hc hg
    obtain ⟨h1, h2⟩ := h.cached_saved hc (by rw [hf]; simpa using Ne.symm hg)
    exact ⟨(hs g hg).1.trans h1, (hs g hg).2.trans h2⟩
  refine ⟨?_, ?_, h.sub, ?_, ?_, ?_, ?_, ?_, ?_⟩
  · intro n hn
    exact h.bound n (by rwa [hf, ← hf'])
  · intro v hv
    exact h.idle v (by rwa [hf, ← hf'])
  · intro g l hg hl
    obtain ⟨rfl, rfl⟩ : f = g ∧ k' = l := by simpa [hp'] using hg
    exact hk hl
  · intro g hc hg
    exact (hcached g hc (fun he => hg (he ▸ hf'))).1
  · intro g hg
    obtain rfl : f = g := by simpa [hf'] using hg.fiber
    exact hactive hg
  · intro g r hr
    obtain rfl : f = g := by simpa [hr, Pc.fiber, Pc.run] using hf'.symm
    exact hreset r hr
  · intro g hg he
    by_cases hgf : g = f
    · subst hgf
      exact hexec he
    · rcases hg with hg | hg
      · exact absurd (by simpa [hf'] using hg.symm) hgf
      · rw [(hcached g hg hgf).1] at he
        simp at he
  · intro g hg he
    by_cases hgf : g = f
    · subst hgf
      exact hunsaved he
    · rcases hg with hg | hg
      · exact absurd (by simpa [hf'] using hg.symm) hgf
      · rw [(hcached g hg hgf).2] at he
        simp at he

theorem Good.done (h : Good state saved next w p c) (hp : p.run = some (f, k)) (hp' : p'.run = none)
    (hs : ∀ g, g ≠ f → state' g = state g ∧ saved' g = saved g) (hc : c' = c ∨ c' = none)
    (hcf : c' = some f → state' f = .init) (hf : saved' f = true) :
    Good state' saved' next w p' c' := by
  have hpf := fiber_of_run hp
  have hsub : ∀ g, c' = some g → c = some g := by
    intro g hg
    rcases hc with rfl | rfl
    · exact hg
    · simp at hg
  refine Good.rest hp' (fun n hn => h.bound n (.inr (hsub _ hn))) (fun v hv => h.sub v (hsub _ hv)) ?_
  intro g hg
  by_cases hgf : g = f
  · subst hgf
    exact ⟨hcf hg, hf⟩
  · obtain ⟨h1, h2⟩ := h.cached_saved (hsub g hg) (by rw [hpf]; simpa using Ne.symm hgf)
    exact ⟨(hs g hgf).1.trans h1, (hs g hgf).2.trans h2⟩

end Local

theorem Inv.not_exec {s : State W} (h : Inv s) {w : W} {f : Fiber W}
    (hp : (s.pc w).fiber = some f) (hn : ¬ (s.pc w).Busy f) : s.state f ≠ .exec :=
  fun he => hn ((h.good w).exec f (.inl hp) he)

theorem Inv.saved {s : State W} (h : Inv s) {w : W} {f : Fiber W} (hp : (s.pc w).fiber = some f)
    (hn : ¬ (s.pc w).Inside f) : s.saved f = true := by
  by_contra hs
  exact hn ((h.good w).unsaved f (.inl hp) (by simpa using hs))

section Steps

variable [DecidableEq W] {s t : State W} {w : W} {p : Pc W} {c : Option (Fiber W)} {f : Fiber W} {k k' : Kind}

/-- A step of `w` to `p`, with `cb_fiber` `c`. -/
theorem Inv.act (h : Inv s) (hpc : t.pc = Function.update s.pc w p)
    (hcb : t.cbFiber = Function.update s.cbFiber w c) (hnext : s.next ≤ t.next)
    (hstate : ∀ f, ¬ Holds s w f → ¬ (p.fiber = some f ∨ c = some f) →
      t.state f = s.state f ∧ t.saved f = s.saved f)
    (hgood : Good t.state t.saved t.next w p c)
    (hnew : ∀ f, p.fiber = some f ∨ c = some f → Holds s w f ∨ ∀ v, ¬ Holds s v f)
    (hfree : ∀ f, Holds s w f → ¬ (p.fiber = some f ∨ c = some f) →
      t.state f ≠ .exec ∧ t.saved f = true) : Inv t := by
  have hw : t.pc w = p := by rw [hpc, Function.update_self]
  have hc : t.cbFiber w = c := by rw [hcb, Function.update_self]
  have hholds : ∀ f, Holds t w f ↔ p.fiber = some f ∨ c = some f := by
    intro f
    rw [Holds, hw, hc]
  refine h.frame (w := w) ⟨?_, ?_, hnext, ?_⟩ (by rwa [hw, hc]) ?_ ?_
  · intro v hv
    rw [hpc, Function.update_of_ne hv]
  · intro v hv
    rw [hcb, Function.update_of_ne hv]
  · intro f hs ht
    exact hstate f hs (fun hf => ht ((hholds f).mpr hf))
  · intro f hf
    exact hnew f ((hholds f).mp hf)
  · intro f hs ht
    exact hfree f hs (fun hf => ht ((hholds f).mpr hf))

theorem Inv.stay (h : Inv s) (hp : (s.pc w).run = some (f, k)) (hp' : p.run = some (f, k'))
    (hpc : t.pc = Function.update s.pc w p) (hcb : t.cbFiber = s.cbFiber) (hnext : t.next = s.next)
    (hk : k' ≠ .callback → s.cbFiber w ≠ some f)
    (hs : ∀ g, g ≠ f → t.state g = s.state g ∧ t.saved g = s.saved g)
    (hactive : p.Active f → t.state f = .exec)
    (hreset : ∀ r, p = .resetting f r → ended (t.state f) = true ∨ t.state f = .init)
    (hexec : t.state f = .exec → p.Busy f) (hunsaved : t.saved f = false → p.Inside f) : Inv t := by
  have hf := fiber_of_run hp
  have hf' := fiber_of_run hp'
  have hsame : ∀ g, Holds s w g ↔ p.fiber = some g ∨ s.cbFiber w = some g := by
    intro g
    rw [Holds, hf, hf']
  refine h.act hpc (c := s.cbFiber w) (by rw [hcb, Function.update_eq_self]) (Nat.le_of_eq hnext.symm) ?_ ?_ ?_ ?_
  · intro g hg _
    exact hs g (fun he => hg (.inl (he ▸ hf)))
  · rw [hnext]
    exact (h.good w).stay hp hp' hk hs hactive hreset hexec hunsaved
  · intro g hg
    exact .inl ((hsame g).mpr hg)
  · intro g hg hn
    exact absurd ((hsame g).mp hg) hn

theorem Inv.done (h : Inv s) (hp : (s.pc w).run = some (f, k)) (hp' : p.run = none)
    (hpc : t.pc = Function.update s.pc w p) (hcb : t.cbFiber = Function.update s.cbFiber w c)
    (hnext : t.next = s.next) (hc : c = s.cbFiber w ∨ c = none)
    (hs : ∀ g, g ≠ f → t.state g = s.state g ∧ t.saved g = s.saved g)
    (hcf : c = some f → t.state f = .init) (hexec : t.state f ≠ .exec) (hf : t.saved f = true) :
    Inv t := by
  have hpf := fiber_of_run hp
  refine h.act hpc hcb (Nat.le_of_eq hnext.symm) ?_ ?_ ?_ ?_
  · intro g hg _
    exact hs g (fun he => hg (.inl (he ▸ hpf)))
  · rw [hnext]
    exact (h.good w).done hp hp' hs hc hcf hf
  · rintro g (hg | hg)
    · simp [Pc.fiber, hp'] at hg
    · rcases hc with rfl | rfl
      · exact .inl (.inr hg)
      · simp at hg
  · intro g hg _
    by_cases hgf : g = f
    · subst hgf
      exact ⟨hexec, hf⟩
    · have hcg : s.cbFiber w = some g := by
        rcases hg with hg | hg
        · exact absurd (by simpa [hpf] using hg.symm) hgf
        · exact hg
      obtain ⟨h1, h2⟩ := (h.good w).cached_saved hcg (by rw [hpf]; simpa using Ne.symm hgf)
      rw [(hs g hgf).1, (hs g hgf).2, h1, h2]
      simp

theorem Inv.write (h : Inv s) (hp : (s.pc w).run = some (f, k)) (hp' : p.run = some (f, k'))
    (hk : k' ≠ .callback → s.cbFiber w ≠ some f) (v : FiberState) (b : Bool)
    (hactive : p.Active f → v = .exec) (hreset : ∀ r, p = .resetting f r → ended v = true ∨ v = .init)
    (hexec : v = .exec → p.Busy f) (hunsaved : b = false → p.Inside f) :
    Inv (((s.setState f v).setSaved f b).goto w p) := by
  refine h.stay hp hp' rfl rfl rfl hk (fun g hg => ?_) ?_ ?_ ?_ ?_
  · simp [State.goto, State.setSaved, State.setState, hg]
  · simpa [State.goto, State.setSaved, State.setState] using hactive
  · simpa [State.goto, State.setSaved, State.setState] using hreset
  · simpa [State.goto, State.setSaved, State.setState] using hexec
  · simpa [State.goto, State.setSaved, State.setState] using hunsaved

@[simp] theorem setState_self (s : State W) (f : Fiber W) : s.setState f (s.state f) = s := by
  simp [State.setState]

@[simp] theorem setSaved_self (s : State W) (f : Fiber W) : s.setSaved f (s.saved f) = s := by
  simp [State.setSaved]

theorem Inv.writeState (h : Inv s) (hp : (s.pc w).run = some (f, k)) (hp' : p.run = some (f, k'))
    (hk : k' ≠ .callback → s.cbFiber w ≠ some f) (v : FiberState) (hactive : p.Active f → v = .exec)
    (hreset : ∀ r, p = .resetting f r → ended v = true ∨ v = .init)
    (hexec : v = .exec → p.Busy f) (hunsaved : s.saved f = false → p.Inside f) :
    Inv ((s.setState f v).goto w p) := by
  have hw := h.write hp hp' hk v (s.saved f) hactive hreset hexec hunsaved
  rwa [show (s.setState f v).setSaved f (s.saved f) = s.setState f v from setSaved_self _ f] at hw

theorem Inv.writeSaved (h : Inv s) (hp : (s.pc w).run = some (f, k)) (hp' : p.run = some (f, k'))
    (hk : k' ≠ .callback → s.cbFiber w ≠ some f) (b : Bool) (hactive : p.Active f → s.state f = .exec)
    (hreset : ∀ r, p = .resetting f r → ended (s.state f) = true ∨ s.state f = .init)
    (hexec : s.state f = .exec → p.Busy f) (hunsaved : b = false → p.Inside f) :
    Inv ((s.setSaved f b).goto w p) := by
  have hw := h.write hp hp' hk (s.state f) b hactive hreset hexec hunsaved
  rwa [setState_self] at hw

theorem Inv.move (h : Inv s) (hp : (s.pc w).run = some (f, k)) (hp' : p.run = some (f, k'))
    (hk : k' ≠ .callback → s.cbFiber w ≠ some f) (hactive : p.Active f → s.state f = .exec)
    (hreset : ∀ r, p = .resetting f r → ended (s.state f) = true ∨ s.state f = .init)
    (hexec : s.state f = .exec → p.Busy f) (hunsaved : s.saved f = false → p.Inside f) :
    Inv (s.goto w p) := by
  have hw := h.writeState hp hp' hk (s.state f) hactive hreset hexec hunsaved
  rwa [setState_self] at hw

theorem ended_ne_exec {v : FiberState} (h : ended v = true) : v ≠ .exec := by
  rintro rfl
  simp [ended] at h

theorem Inv.drop (h : Inv s) (hp : (s.pc w).run = some (f, k)) (hp' : p.run = none)
    (hk : k ≠ .callback) (hexec : s.state f ≠ .exec) (hsaved : s.saved f = true) :
    Inv (s.goto w p) := by
  refine h.done hp hp' rfl (c := s.cbFiber w) (by simp [State.goto]) rfl (.inl rfl)
    (fun _ _ => ⟨rfl, rfl⟩) (fun hc => ?_) hexec hsaved
  exact absurd hc ((h.good w).other f k hp hk)

theorem Inv.put (h : Inv s) (hp : (s.pc w).run = some (f, k)) (v : FiberState) (hexec : v ≠ .exec)
    (hsaved : s.saved f = true) : Inv (((s.setState f v).release w k).goto w .scan) := by
  by_cases hk : k = .callback
  · refine h.done hp (p := .scan) rfl (c := none) ?_ ?_ ?_ (.inr rfl) (fun g hg => ?_) (by simp) ?_ ?_ <;>
      simp_all [State.release, State.goto, State.setCbFiber, State.setState]
  · have hc : s.cbFiber w ≠ some f := (h.good w).other f k hp hk
    refine h.done hp (p := .scan) rfl (c := s.cbFiber w) ?_ ?_ ?_ (.inl rfl) (fun g hg => ?_) ?_ ?_ ?_ <;>
      simp_all [State.release, State.goto, State.setState]

theorem Inv.rest (h : Inv s) (hp : (s.pc w).run = none) (hp' : p.run = none) : Inv (s.goto w p) := by
  have G := h.good w
  have hf : (s.pc w).fiber = none := by rw [Pc.fiber, hp]; rfl
  have hf' : p.fiber = none := by rw [Pc.fiber, hp']; rfl
  refine h.act (t := s.goto w p) rfl (c := s.cbFiber w) (by simp [State.goto]) (Nat.le_refl _)
    (fun _ _ _ => ⟨rfl, rfl⟩) ?_ ?_ ?_
  · exact Good.rest hp' (fun n hn => G.bound n (.inr hn)) G.sub
      (fun g hg => G.cached_saved hg (by simp [hf]))
  · rintro g (hg | hg)
    · simp [hf'] at hg
    · exact .inl (.inr hg)
  · rintro g (hg | hg) hn
    · simp [hf] at hg
    · exact absurd (.inr hg) hn

/-- The fiber that the next scan of `w` would remove from the queue. -/
def takes (s : State W) (w : W) : Option Nat :=
  match scan w (fun n => s.state (.sub n)) s.queue with
  | none => none
  | some (ft, _) =>
    match ft.task with
    | .fiber n => some n
    | .cb _ => none

/-- The scan hands out a fiber only when no worker has it in its hands. -/
def Safe (s : State W) : Action W → Prop
  | .advance w => s.pc w = .scan → ∀ n, takes s w = some n → ∀ v, ¬ Holds s v (.sub n)
  | _ => True

omit [DecidableEq W] in
theorem Inv.not_holds_next (h : Inv s) (v : W) : ¬ Holds s v (.sub s.next) := by
  rintro hv
  exact absurd ((h.good v).bound s.next hv) (Nat.lt_irrefl _)

theorem Inv.congr (h : Inv s) (hpc : t.pc = s.pc) (hcb : t.cbFiber = s.cbFiber)
    (hnext : s.next ≤ t.next) (hs : ∀ f, f ≠ .sub s.next → t.state f = s.state f ∧ t.saved f = s.saved f)
    (hnew : t.state (.sub s.next) ≠ .exec ∧ t.saved (.sub s.next) = true) : Inv t := by
  have hholds : ∀ w f, Holds t w f ↔ Holds s w f := fun w f => by rw [Holds, Holds, hpc, hcb]
  refine ⟨fun w => ?_, fun w v f hw hv => ?_, fun f hno => ?_⟩
  · rw [hpc, hcb]
    exact (h.good w).congr hnext (fun f hf => hs f (fun he => h.not_holds_next w (he ▸ hf)))
  · exact h.alone w v f ((hholds w f).mp hw) ((hholds v f).mp hv)
  · by_cases hf : f = .sub s.next
    · exact hf ▸ hnew
    · rw [(hs f hf).1, (hs f hf).2]
      exact h.free f (fun w hw => hno w ((hholds w f).mpr hw))

omit [DecidableEq W] in
theorem Inv.next_free (h : Inv s) : s.state (.sub s.next) ≠ .exec ∧ s.saved (.sub s.next) = true :=
  h.free _ h.not_holds_next

theorem Inv.same (h : Inv s) (hpc : t.pc = s.pc) (hcb : t.cbFiber = s.cbFiber) (hnext : t.next = s.next)
    (hs : t.state = s.state) (hv : t.saved = s.saved) : Inv t :=
  h.congr hpc hcb (Nat.le_of_eq hnext.symm) (fun _ _ => by simp [hs, hv])
    (by rw [hs, hv]; exact h.next_free)

theorem Inv.begin (h : Inv s) (hp : (s.pc w).run = none) (hp' : p.run = some (f, k))
    (hpc : t.pc = Function.update s.pc w p) (hcb : t.cbFiber = s.cbFiber) (hnext : t.next = s.next)
    (hs : t.state = s.state ∧ t.saved = s.saved) (hno : ∀ v, ¬ Holds s v f)
    (hbound : ∀ n, f = .sub n → n < s.next) (hidle : ∀ v, f = .idle v → v = w)
    (hactive : ¬ p.Active f) (hreset : ∀ r, p ≠ .resetting f r) : Inv t := by
  have hf : (s.pc w).fiber = none := by rw [Pc.fiber, hp]; rfl
  have hf' := fiber_of_run hp'
  have G := h.good w
  have hcf : s.cbFiber w ≠ some f := fun hc => hno w (.inr hc)
  obtain ⟨hexec, hsaved⟩ := h.free f hno
  have hcached : ∀ g, s.cbFiber w = some g → s.state g = .init ∧ s.saved g = true :=
    fun g hg => G.cached_saved hg (by simp [hf])
  refine h.act hpc (c := s.cbFiber w) (by rw [hcb, Function.update_eq_self])
    (Nat.le_of_eq hnext.symm) (fun g _ _ => by simp [hs.1, hs.2]) ?_ ?_ ?_
  · rw [hs.1, hs.2, hnext]
    refine ⟨?_, ?_, G.sub, ?_, fun g hg _ => (hcached g hg).1, ?_, ?_, ?_, ?_⟩
    · rintro n (hn | hn)
      · exact hbound n (by simpa [hf'] using hn)
      · exact G.bound n (.inr hn)
    · intro v hv
      exact hidle v (by simpa [hf'] using hv)
    · intro g l hg _
      obtain ⟨rfl, -⟩ : f = g ∧ k = l := by simpa [hp'] using hg
      exact hcf
    · intro g hg
      obtain rfl : f = g := by simpa [hf'] using hg.fiber
      exact absurd hg hactive
    · intro g r hr
      obtain rfl : f = g := by simpa [hr, Pc.fiber, Pc.run] using hf'.symm
      exact absurd hr (hreset r)
    · rintro g (hg | hg) he
      · obtain rfl : f = g := by simpa [hf'] using hg
        exact absurd he hexec
      · simp [(hcached g hg).1] at he
    · rintro g (hg | hg) he
      · obtain rfl : f = g := by simpa [hf'] using hg
        simp [hsaved] at he
      · simp [(hcached g hg).2] at he
  · rintro g (hg | hg)
    · obtain rfl : f = g := by simpa [hf'] using hg
      exact .inr hno
    · exact .inl (.inr hg)
  · rintro g (hg | hg) hn
    · simp [hf] at hg
    · exact absurd (.inr hg) hn

theorem Inv.reuse (h : Inv s) (hp : s.pc w = .scan) (hc : s.cbFiber w = some f) :
    Inv (s.goto w (.resetting f true)) := by
  have G := h.good w
  rw [hp] at G
  obtain ⟨hinit, hsaved⟩ := G.cached_saved hc (by simp [Pc.fiber, Pc.run])
  refine h.act (t := s.goto w (.resetting f true)) rfl (c := s.cbFiber w)
    (by simp [State.goto]) (Nat.le_refl _) (fun _ _ _ => ⟨rfl, rfl⟩) ?_ ?_ ?_
  · refine ⟨?_, ?_, G.sub, ?_, ?_, ?_, ?_, ?_, ?_⟩
    · rintro n (hn | hn)
      · exact G.bound n (.inr (hc.trans hn))
      · exact G.bound n (.inr hn)
    · intro v hv
      exact absurd (hc.trans hv) (G.sub v)
    · intro g l hg hl
      simp only [Pc.run, Option.some.injEq, Prod.mk.injEq] at hg
      exact absurd hg.2.symm hl
    · intro g hg _
      exact G.cached g hg (by simp [Pc.fiber, Pc.run])
    · intro g hg
      exact hg.elim
    · intro g r hr
      obtain ⟨rfl, -⟩ : f = g ∧ true = r := by simpa using hr
      exact .inr hinit
    · rintro g (hg | hg) he
      · exact absurd he (by simp [← Option.some.inj hg, State.goto, hinit])
      · exact absurd he (by simp [State.goto, G.cached g hg (by simp [Pc.fiber, Pc.run])])
    · rintro g (hg | hg) he
      · exact absurd he (by simp [← Option.some.inj hg, State.goto, hsaved])
      · exact absurd he (by simp [State.goto, (G.cached_saved hg (by simp [Pc.fiber, Pc.run])).2])
  · rintro g (hg | hg)
    · exact .inl (.inr (hc.trans hg))
    · exact .inl (.inr hg)
  · rintro g (hg | hg) hn
    · simp [hp, Pc.fiber, Pc.run] at hg
    · exact absurd (.inr hg) hn

theorem Inv.create (h : Inv s) (hp : s.pc w = .scan) (hc : s.cbFiber w = none) :
    Inv ((s.newFiber.setCbFiber w (some (.sub s.next))).goto w
      (.swapIn (.sub s.next) .callback)) := by
  have hno := h.not_holds_next
  refine h.act (t := (s.newFiber.setCbFiber w (some (.sub s.next))).goto w
    (.swapIn (.sub s.next) .callback)) rfl (c := some (.sub s.next)) rfl (Nat.le_succ _) ?_ ?_ ?_ ?_
  · intro g _ hg
    have hne : g ≠ .sub s.next := fun he => hg (.inr (he ▸ rfl))
    simp [State.goto, State.setCbFiber, State.newFiber, State.setSaved, State.setState, hne]
  · refine ⟨?_, ?_, ?_, ?_, ?_, ?_, ?_, ?_, ?_⟩
    · rintro n (hn | hn)
      · obtain rfl : s.next = n := by simpa [Pc.fiber, Pc.run] using hn
        exact Nat.lt_succ_self _
      · obtain rfl : s.next = n := by simpa using hn
        exact Nat.lt_succ_self _
    · intro v hv
      simp [Pc.fiber, Pc.run] at hv
    · intro v hv
      simp at hv
    · intro g l hg hl
      simp only [Pc.run, Option.some.injEq, Prod.mk.injEq] at hg
      exact absurd hg.2.symm hl
    · intro g hg hn
      exact absurd hg hn
    · intro g hg
      exact hg.elim
    · intro g r hr
      simp at hr
    · rintro g hg he
      obtain rfl : .sub s.next = g := Option.some.inj (hg.elim id id)
      simp [State.goto, State.setCbFiber, State.newFiber, State.setSaved, State.setState] at he
    · rintro g hg he
      obtain rfl : .sub s.next = g := Option.some.inj (hg.elim id id)
      simp [State.goto, State.setCbFiber, State.newFiber, State.setSaved] at he
  · rintro g hg
    obtain rfl : .sub s.next = g := Option.some.inj (hg.elim id id)
    exact .inr hno
  · rintro g (hg | hg) _
    · simp [hp, Pc.fiber, Pc.run] at hg
    · simp [hc] at hg

structure Known (s : State W) : Prop where
  queued : ∀ ft ∈ s.queue, ∀ n, ft.task = .fiber n → n < s.next
  registered : ∀ n, 0 < s.registered n → n < s.next

theorem Inv.takeTask (h : Inv s) (hk : Known s) (hp : s.pc w = .scan)
    (hsafe : Safe s (.advance w)) : Inv (takeTask s w) := by
  unfold Worker.takeTask
  split
  · exact h.rest (by rw [hp]; rfl) rfl
  · rename_i ft q hq
    have hu : Inv (s.remove w ft q) := h.same rfl rfl rfl rfl rfl
    split
    · rename_i n hn
      have hbound := hk.queued ft (scan_mem hq) n hn
      exact hu.begin (by rw [show (s.remove w ft q).pc w = .scan from hp]; rfl) rfl rfl rfl rfl
        ⟨rfl, rfl⟩ (hsafe hp n (by simp only [takes, hq, hn])) (fun m hm => by cases hm; exact hbound)
        (fun v hv => by simp at hv) id (by simp)
    · split
      · rename_i f hf
        exact hu.reuse hp hf
      · rename_i hc
        exact hu.create hp hc

theorem Inv.taken (h : Inv s) (hp : s.pc w = .taken f) :
    Inv (s.goto w (if ended (s.state f) then .skip else .swapIn f .task)) := by
  have hrun : (s.pc w).run = some (f, .task) := by rw [hp]; rfl
  have hne := h.not_exec (fiber_of_run hrun) (by simp [hp, Pc.Busy])
  have hsv := h.saved (fiber_of_run hrun) (by simp [hp, Pc.Inside])
  split
  · exact h.drop hrun rfl (by simp) hne hsv
  · exact h.move hrun rfl ((h.good w).other f .task hrun) False.elim (by simp)
      (fun he => absurd he hne) (by simp [hsv])

theorem Inv.resetFiber (h : Inv s) {run : Bool} (hp : s.pc w = .resetting f run) :
    Inv ((s.setSaved f true).goto w (.setInit f run)) := by
  have hrun : (s.pc w).run = some (f, .callback) := by rw [hp]; rfl
  have hne := h.not_exec (fiber_of_run hrun) (by simp [hp, Pc.Busy])
  exact h.writeSaved hrun rfl (by simp) true False.elim (by simp) (fun he => absurd he hne) (by simp)

theorem Inv.setInit (h : Inv s) {run : Bool} (hp : s.pc w = .setInit f run) :
    Inv ((s.setState f .init).goto w (if run then .swapIn f .callback else .scan)) := by
  have hrun : (s.pc w).run = some (f, .callback) := by rw [hp]; rfl
  have hsv := h.saved (fiber_of_run hrun) (by simp [hp, Pc.Inside])
  cases run with
  | true => exact h.writeState hrun rfl (by simp) .init False.elim (by simp) (by simp) (by simp [hsv])
  | false =>
    refine h.done hrun (p := .scan) rfl (c := s.cbFiber w) rfl (by simp [State.goto, State.setState]) rfl (.inl rfl)
      (fun g hg => ?_) (fun _ => ?_) ?_ hsv <;> simp_all [State.goto, State.setState]

theorem Inv.swapIn (h : Inv s) (hp : s.pc w = .swapIn f k) : Inv (s.goto w (.setExec f k)) := by
  have hrun : (s.pc w).run = some (f, k) := by rw [hp]; rfl
  have hne := h.not_exec (fiber_of_run hrun) (by simp [hp, Pc.Busy])
  have hsv := h.saved (fiber_of_run hrun) (by simp [hp, Pc.Inside])
  exact h.move hrun rfl ((h.good w).other f k hrun) False.elim (by simp) (fun he => absurd he hne)
    (by simp [hsv])

theorem Inv.setExec (h : Inv s) (hp : s.pc w = .setExec f k) :
    Inv ((s.setState f .exec).goto w (.restore f k)) := by
  have hrun : (s.pc w).run = some (f, k) := by rw [hp]; rfl
  have hsv := h.saved (fiber_of_run hrun) (by simp [hp, Pc.Inside])
  exact h.writeState hrun rfl ((h.good w).other f k hrun) .exec (fun _ => rfl) (by simp)
    (fun _ => rfl) (by simp [hsv])

theorem Inv.restore (h : Inv s) (hp : s.pc w = .restore f k) :
    Inv ((s.setSaved f false).goto w (.inside f k)) := by
  have hrun : (s.pc w).run = some (f, k) := by rw [hp]; rfl
  exact h.writeSaved hrun rfl ((h.good w).other f k hrun) false
    (fun _ => (h.good w).active f (by rw [hp]; rfl)) (by simp) (fun _ => rfl) (fun _ => rfl)

theorem Inv.within (h : Inv s) (hrun : (s.pc w).run = some (f, k)) (hp : (s.pc w).Active f)
    (hp' : p.run = some (f, k)) (hreset : ∀ r, p ≠ .resetting f r) (hbusy : p.Busy f) (hinside : p.Inside f) :
    Inv (s.goto w p) :=
  h.move hrun hp' ((h.good w).other f k hrun) (fun _ => (h.good w).active f hp)
    (fun r hr => absurd hr (hreset r)) (fun _ => hbusy) (fun _ => hinside)

theorem Inv.setFiberState (h : Inv s) {v : FiberState} (hp : s.pc w = .setState f k v) :
    Inv (((s.countYield f v).setState f v).goto w (.save f k)) := by
  obtain ⟨y, hy⟩ := countYield_eq s f v
  have hu : Inv { s with readyYields := y } := h.same rfl rfl rfl rfl rfl
  have hrun : (s.pc w).run = some (f, k) := by rw [hp]; rfl
  rw [hy]
  exact hu.writeState hrun rfl ((h.good w).other f k hrun) v False.elim (by simp) (fun _ => rfl)
    (fun _ => rfl)

theorem Inv.save (h : Inv s) (hp : s.pc w = .save f k) :
    Inv ((s.setSaved f true).goto w (.saved f k)) := by
  have hrun : (s.pc w).run = some (f, k) := by rw [hp]; rfl
  exact h.writeSaved hrun rfl ((h.good w).other f k hrun) true False.elim (by simp) (fun _ => rfl)
    (by simp)

theorem Inv.after (h : Inv s) (hrun : (s.pc w).run = some (f, k)) (hp : ¬ (s.pc w).Inside f)
    (hp' : p.run = some (f, k')) (hk : k' ≠ .callback → k ≠ .callback) (hactive : ¬ p.Active f)
    (hreset : ∀ r, p = .resetting f r → ended (s.state f) = true)
    (hbusy : s.state f = .exec → p.Busy f) : Inv (s.goto w p) := by
  have hsv := h.saved (fiber_of_run hrun) hp
  exact h.move hrun hp' (fun hk' => (h.good w).other f k hrun (hk hk')) (fun ha => absurd ha hactive)
    (fun r hr => .inl (hreset r hr)) hbusy (by simp [hsv])

theorem Inv.testEnd (h : Inv s) (hp : s.pc w = .testEnd f k) :
    Inv (s.goto w (if ended (s.state f) then (if k = .callback then .resetting f false else .scan)
      else .setHold f k)) := by
  have hrun : (s.pc w).run = some (f, k) := by rw [hp]; rfl
  have hsv := h.saved (fiber_of_run hrun) (by simp [hp, Pc.Inside])
  split
  · rename_i he
    split
    · exact h.after hrun (by simp [hp, Pc.Inside]) rfl (by simp) id (fun _ _ => he)
        (fun hx => absurd hx (ended_ne_exec he))
    · rename_i hk
      exact h.drop hrun rfl hk (ended_ne_exec he) hsv
  · exact h.after hrun (by simp [hp, Pc.Inside]) rfl id id (by simp) (fun _ => rfl)

theorem Inv.decrement (h : Inv s) (hp : s.pc w = .decrement f k) :
    Inv (if k = .idle then { s with idle := s.idle - 1 }.goto w (.testEnd f k)
      else { s with active := s.active - 1 }.goto w (.testReady f k)) := by
  have hrun : (s.pc w).run = some (f, k) := by rw [hp]; rfl
  have hout : ¬ (s.pc w).Inside f := by simp [hp, Pc.Inside]
  split
  · have hu : Inv { s with idle := s.idle - 1 } := h.same rfl rfl rfl rfl rfl
    exact hu.after hrun hout rfl id id (by simp) (fun _ => rfl)
  · have hu : Inv { s with active := s.active - 1 } := h.same rfl rfl rfl rfl rfl
    exact hu.after hrun hout rfl id id (by simp) (fun _ => rfl)

theorem Inv.putBack (h : Inv s) {n : Nat} (hp : s.pc w = .putBack n k) :
    Inv ((((s.countPutBack n).scheduleNoLock (.fiber n) none).release w k).goto w .scan) := by
  have hrun : (s.pc w).run = some (.sub n, k) := by rw [hp]; rfl
  have hne := h.not_exec (fiber_of_run hrun) (by simp [hp, Pc.Busy])
  have hsv := h.saved (fiber_of_run hrun) (by simp [hp, Pc.Inside])
  have hu : Inv ((s.countPutBack n).scheduleNoLock (.fiber n) none) := h.same rfl rfl rfl rfl rfl
  have hput := hu.put hrun (s.state (.sub n)) hne hsv
  rwa [show ((s.countPutBack n).scheduleNoLock (.fiber n) none).setState (.sub n) (s.state (.sub n)) =
    (s.countPutBack n).scheduleNoLock (.fiber n) none from setState_self _ _] at hput

theorem Inv.beginIdle (h : Inv s) (hp : s.pc w = .beginIdle) :
    Inv ({ s with idle := s.idle + 1 }.goto w (.swapIn (.idle w) .idle)) := by
  have hno : ∀ v, ¬ Holds s v (.idle w) := by
    rintro v (hv | hv)
    · obtain rfl := (h.good v).idle w hv
      simp [hp, Pc.fiber, Pc.run] at hv
    · exact (h.good v).sub w hv
  exact h.begin (by rw [hp]; rfl) rfl rfl rfl rfl ⟨rfl, rfl⟩ hno (fun n hn => by simp at hn)
    (fun v hv => by cases hv; rfl) id (by simp)

theorem Inv.advance (h : Inv s) (hk : Known s) (hsafe : Safe s (.advance w))
    (ht : advance s w = some t) : Inv t := by
  cases hp : s.pc w with
  | fresh => simp [Worker.advance, hp] at ht
  | scan =>
    simp only [Worker.advance, hp, Option.some.injEq] at ht
    exact ht ▸ h.takeTask hk hp hsafe
  | taken f =>
    simp only [Worker.advance, hp, Option.some.injEq] at ht
    exact ht ▸ h.taken hp
  | skip =>
    simp only [Worker.advance, hp, Option.some.injEq] at ht
    have hu : Inv { s with active := s.active - 1 } := h.same rfl rfl rfl rfl rfl
    exact ht ▸ hu.rest (by rw [show ({ s with active := s.active - 1 } : State W).pc w = .skip from hp]; rfl) rfl
  | resetting f run =>
    simp only [Worker.advance, hp, Option.ite_none_right_eq_some, Option.some.injEq] at ht
    exact ht.2 ▸ h.resetFiber hp
  | setInit f run =>
    simp only [Worker.advance, hp, Option.some.injEq] at ht
    exact ht ▸ h.setInit hp
  | swapIn f k =>
    simp only [Worker.advance, hp, Option.ite_none_right_eq_some, Option.some.injEq] at ht
    exact ht.2 ▸ h.swapIn hp
  | setExec f k =>
    simp only [Worker.advance, hp, Option.some.injEq] at ht
    exact ht ▸ h.setExec hp
  | restore f k =>
    simp only [Worker.advance, hp, Option.some.injEq] at ht
    exact ht ▸ h.restore hp
  | inside f k => simp [Worker.advance, hp] at ht
  | yielding f k v =>
    simp only [Worker.advance, hp, Option.ite_none_right_eq_some, Option.some.injEq] at ht
    exact ht.2 ▸ h.within (by rw [hp]; rfl) (by rw [hp]; rfl) rfl (by simp) rfl rfl
  | setState f k v =>
    simp only [Worker.advance, hp, Option.some.injEq] at ht
    exact ht ▸ h.setFiberState hp
  | save f k =>
    simp only [Worker.advance, hp, Option.some.injEq] at ht
    exact ht ▸ h.save hp
  | saved f k =>
    simp only [Worker.advance, hp, Option.some.injEq] at ht
    exact ht ▸ h.after (by rw [hp]; rfl) (by simp [hp, Pc.Inside]) rfl id id (by simp) (fun _ => rfl)
  | decrement f k =>
    simp only [Worker.advance, hp, Option.some.injEq] at ht
    exact ht ▸ h.decrement hp
  | testReady f k =>
    cases f with
    | idle v => simp [Worker.advance, hp] at ht
    | sub n =>
      simp only [Worker.advance, hp, Option.some.injEq] at ht
      subst ht
      split
      · rename_i hr
        exact h.after (by rw [hp]; rfl) (by simp [hp, Pc.Inside]) rfl id id (by simp)
          (fun he => by rw [hr] at he; simp at he)
      · exact h.after (by rw [hp]; rfl) (by simp [hp, Pc.Inside]) rfl id id (by simp) (fun _ => rfl)
  | putBack n k =>
    simp only [Worker.advance, hp, Option.some.injEq] at ht
    exact ht ▸ h.putBack hp
  | testEnd f k =>
    simp only [Worker.advance, hp, Option.some.injEq] at ht
    exact ht ▸ h.testEnd hp
  | setHold f k =>
    have hrun : (s.pc w).run = some (f, k) := by rw [hp]; rfl
    have hsv := h.saved (fiber_of_run hrun) (by simp [hp, Pc.Inside])
    simp only [Worker.advance, hp, Option.some.injEq] at ht
    exact ht ▸ h.put hrun .hold (by simp) hsv
  | testIdle =>
    simp only [Worker.advance, hp, Option.some.injEq] at ht
    refine ht ▸ h.rest (by rw [hp]; rfl) ?_
    split <;> rfl
  | beginIdle =>
    simp only [Worker.advance, hp, Option.some.injEq] at ht
    exact ht ▸ h.beginIdle hp
  | left => simp [Worker.advance, hp] at ht

theorem Inv.step (h : Inv s) (hk : Known s) {a : Action W} (hsafe : Safe s a)
    (ht : step s a = some t) : Inv t := by
  cases a with
  | scheduleFiber who thd =>
    simp only [Worker.step, Option.ite_none_right_eq_some, Option.some.injEq] at ht
    obtain ⟨-, rfl⟩ := ht
    refine h.congr rfl rfl (Nat.le_succ _) (fun f hf => ?_) ?_ <;>
      simp_all [State.scheduleNoLock, State.newFiber, State.setSaved, State.setState]
  | scheduleCb who c thd =>
    simp only [Worker.step, Option.ite_none_right_eq_some, Option.some.injEq] at ht
    exact ht.2 ▸ h.same rfl rfl rfl rfl rfl
  | wake who n =>
    simp only [Worker.step, Option.ite_none_right_eq_some, Option.some.injEq] at ht
    exact ht.2 ▸ h.same rfl rfl rfl rfl rfl
  | stop =>
    simp only [Worker.step, Option.some.injEq] at ht
    exact ht ▸ h.same rfl rfl rfl rfl rfl
  | enter w =>
    simp only [Worker.step, Option.ite_none_right_eq_some, Option.some.injEq] at ht
    exact ht.2 ▸ h.rest (by rw [ht.1]; rfl) rfl
  | bypass w =>
    simp only [Worker.step, Option.ite_none_right_eq_some, Option.some.injEq] at ht
    exact ht.2 ▸ h.rest (by rw [ht.1.1]; rfl) rfl
  | register w =>
    simp only [Worker.step] at ht
    split at ht
    · exact Option.some.inj ht ▸ h.same rfl rfl rfl rfl rfl
    · simp at ht
  | switchTo w thd =>
    simp only [Worker.step] at ht
    split at ht
    · rename_i n k hp
      have hu : Inv (s.scheduleNoLock (.fiber n) (some thd)) := h.same rfl rfl rfl rfl rfl
      have hp' : (s.scheduleNoLock (.fiber n) (some thd)).pc w = .inside (.sub n) k := hp
      exact Option.some.inj ht ▸ hu.within (by rw [hp']; rfl) (by rw [hp']; rfl) rfl (by simp) rfl rfl
    · simp at ht
  | yieldToHold w =>
    simp only [Worker.step] at ht
    split at ht
    · rename_i f k hp
      exact Option.some.inj ht ▸ h.within (by rw [hp]; rfl) (by rw [hp]; rfl) rfl (by simp) rfl rfl
    · simp at ht
  | yieldToReady w =>
    simp only [Worker.step] at ht
    split at ht
    · rename_i n k hp
      exact Option.some.inj ht ▸ h.within (by rw [hp]; rfl) (by rw [hp]; rfl) rfl (by simp) rfl rfl
    · simp at ht
  | finish w thrown =>
    simp only [Worker.step] at ht
    split at ht
    · rename_i n k hp
      exact Option.some.inj ht ▸ h.within (by rw [hp]; rfl) (by rw [hp]; rfl) rfl (by simp) rfl rfl
    · simp at ht
  | idleExit w =>
    simp only [Worker.step] at ht
    split at ht
    · rename_i v k hp
      rw [Option.ite_none_right_eq_some, Option.some.injEq] at ht
      exact ht.2 ▸ h.within (by rw [hp]; rfl) (by rw [hp]; rfl) rfl (by simp) rfl rfl
    · simp at ht
  | swapOut w =>
    simp only [Worker.step] at ht
    split at ht
    · rename_i v k hp
      exact Option.some.inj ht ▸ h.within (by rw [hp]; rfl) (by rw [hp]; rfl) rfl (by simp) rfl rfl
    · simp at ht
  | advance w => exact h.advance hk hsafe ht

theorem Known.effect (hk : Known s) (h : Inv s) (he : Effect s t w) : Known t := by
  have hbound : ∀ n, (s.pc w).fiber = some (.sub n) → n < s.next := fun n hn => (h.good w).bound n (.inl hn)
  refine ⟨fun ft hft n hn => Nat.lt_of_lt_of_le ?_ he.next, fun n hn => Nat.lt_of_lt_of_le ?_ he.next⟩
  · cases he.queue with
    | take x q hp hscan hq _ _ => exact hk.queued ft (mem_of_scan hscan (hq ▸ hft)) n hn
    | put m thd hp hq _ _ =>
      rw [hq, List.mem_append, List.mem_singleton] at hft
      obtain hft | hft := hft
      · exact hk.queued ft hft n hn
      · obtain rfl : m = n := by simpa [hft] using hn
        exact hbound m hp
    | none hq _ _ => exact hk.queued ft (hq ▸ hft) n hn
  · exact (he.registered n hn).elim (hk.registered n) (hbound n)

omit [DecidableEq W] in
theorem Known.call (hk : Known s) (hs : Scheduled s t) : Known t := by
  refine ⟨fun ft hft n hn => ?_, fun n hn => Nat.lt_of_lt_of_le (hk.registered n (hs.registered n hn)) hs.next⟩
  obtain ⟨task, thd, hq, htask⟩ := hs.queue
  rw [hq, List.mem_append, List.mem_singleton] at hft
  obtain hft | rfl := hft
  · exact Nat.lt_of_lt_of_le (hk.queued ft hft n hn) hs.next
  · obtain ⟨-, hnew⟩ | hreg := htask n hn
    · exact hnew
    · exact Nat.lt_of_lt_of_le (hk.registered n hreg) hs.next

theorem Known.step (hk : Known s) (h : Inv s) (hsane : Sane s) {a : Action W}
    (ht : step s a = some t) : Known t := by
  cases step_effect hsane.pc ht with
  | work w ha he => exact hk.effect h he
  | call who ha hrun hs => exact hk.call hs
  | stop ht => exact ht ▸ ⟨hk.queued, hk.registered⟩

/-- Only the worker that has a fiber at hand writes its state. -/
theorem step_state (hsane : Sane s) {a : Action W} (ht : step s a = some t) (g : Fiber W)
    (hg : ∀ w, a.worker = some w → (s.pc w).fiber ≠ some g) (hnew : g ≠ .sub s.next) :
    t.state g = s.state g := by
  cases step_effect hsane.pc ht with
  | work w ha he => exact he.state g (hg w ha) hnew
  | call who ha hrun hs => exact hs.state g hnew
  | stop ht => rw [ht]

end Steps

/-- Exclusive execution: no fiber is executed by two workers, a resumed context
is complete, the assertions of `swapIn`, `YieldToHold`, `YieldToReady` and `reset`
hold when they are reached, and nobody writes the state of a fiber that another
worker is running. -/
structure Exclusive [DecidableEq W] (s : State W) : Prop where
  alone : ∀ w v f, (s.pc w).Inside f → (s.pc v).Inside f → w = v
  complete : ∀ w f k, s.pc w = .restore f k → s.saved f = true
  swapIn : ∀ w f k, s.pc w = .swapIn f k → s.state f ≠ .exec
  yield : ∀ w f k v, s.pc w = .yielding f k v → s.state f = .exec
  reset : ∀ w f r, s.pc w = .resetting f r → ended (s.state f) = true ∨ s.state f = .init
  write : ∀ a t, step s a = some t → ∀ v f, (s.pc v).Inside f → a.worker ≠ some v → t.state f = s.state f

theorem Inv.exclusive [DecidableEq W] {s : State W} (h : Inv s) (hsane : Sane s) : Exclusive s where
  alone w v f hw hv := h.alone w v f (.inl hw.fiber) (.inl hv.fiber)
  complete w f k hp := h.saved (w := w) (by rw [hp]; rfl) (by simp [hp, Pc.Inside])
  swapIn w f k hp := h.not_exec (w := w) (by rw [hp]; rfl) (by simp [hp, Pc.Busy])
  yield w f k v hp := (h.good w).active f (by rw [hp]; rfl)
  reset w f r hp := (h.good w).resetting f r hp
  write a t ht v f hv hav := by
    have hold : Holds s v f := .inl hv.fiber
    refine step_state hsane ht f (fun w hw hf => hav ?_) (fun he => h.not_holds_next v (he ▸ hold))
    rw [hw, h.alone w v f (.inl hf) hold]

theorem init_inv {s : State W} (h : Init s) : Inv s ∧ Known s := by
  have hno : ∀ w f, ¬ Holds s w f := fun w f => by simp [Holds, h.pc, h.cbFiber, Pc.fiber, Pc.run]
  refine ⟨⟨fun w => ?_, fun w v f hw => absurd hw (hno w f), fun f _ => by simp [h.state, h.saved]⟩,
    by simp [h.queue], by simp [h.registered]⟩
  rw [h.pc, h.cbFiber]
  exact Good.rest rfl (by simp) (by simp) (by simp)

theorem inv_of_run [DecidableEq W] {ok : State W → Action W → Prop} (hok : ∀ s a, ok s a → Safe s a)
    {s : State W} (h : Run Init step ok s) : (Inv s ∧ Known s) ∧ Sane s := by
  refine Run.invariant (I := fun s => (Inv s ∧ Known s) ∧ Sane s)
    (fun _ h0 => ⟨init_inv h0, init_sane h0⟩) ?_ h
  rintro s a t ⟨⟨hi, hk⟩, hsane⟩ hsafe ht
  exact ⟨⟨hi.step hk (hok s a hsafe) ht, hk.step hi hsane ht⟩, hsane.step ht⟩

/-- Fibers are executed exclusively in every run whose queue scans never take a
fiber that a worker still has in its hands. -/
theorem exclusive_of_run [DecidableEq W] {s : State W} (h : Run Init step Safe s) : Exclusive s :=
  have hi := inv_of_run (fun _ _ h => h) h
  hi.1.1.exclusive hi.2

def start : State Bool :=
  ⟨[], 0, 0, false, fun _ => .init, fun _ => true, fun _ => 0, 0, fun _ => .fresh, fun _ => none, 0, [],
    fun _ => 0, fun _ => 0⟩

theorem start_init : Init start := by
  constructor <;> intros <;> rfl

instance [DecidableEq W] (s : State W) (w : W) (f : Fiber W) : Decidable (Holds s w f) :=
  inferInstanceAs (Decidable (_ ∨ _))

instance [Fintype W] [DecidableEq W] (s : State W) (a : Action W) : Decidable (Safe s a) :=
  match a with
  | .advance w =>
    if hp : s.pc w = .scan then
      match hn : takes s w with
      | none => isTrue (fun _ n h => by simp [hn] at h)
      | some n => decidable_of_iff (∀ v, ¬ Holds s v (.sub n))
          ⟨fun h _ m hm => by rw [hn, Option.some.injEq] at hm; exact hm ▸ h, fun h => h hp n hn⟩
    else isTrue (fun h => absurd h hp)
  | .scheduleFiber .. => isTrue trivial
  | .scheduleCb .. => isTrue trivial
  | .wake .. => isTrue trivial
  | .stop => isTrue trivial
  | .enter .. => isTrue trivial
  | .bypass .. => isTrue trivial
  | .idleExit .. => isTrue trivial
  | .register .. => isTrue trivial
  | .switchTo .. => isTrue trivial
  | .yieldToHold .. => isTrue trivial
  | .yieldToReady .. => isTrue trivial
  | .finish .. => isTrue trivial
  | .swapOut .. => isTrue trivial

theorem exclusive_woken_fiber : ∃ s : State Bool, Run Init step Safe s ∧
    s.pc true = .inside (.sub 0) .task ∧ Exclusive s := by
  have h : (exec (guarded step Safe) start (List.flatten
      [[.scheduleFiber none none, .enter false, .enter true], List.replicate 5 (.advance false),
        [.register false, .yieldToHold false], List.replicate 8 (.advance false), [.wake none 0],
        List.replicate 5 (.advance true)])).map (fun s => s.pc true) =
      some (.inside (.sub 0) .task) := by
    decide +kernel
  obtain ⟨s, hs, he⟩ := Option.map_eq_some_iff.mp h
  have hrun : Run Init step Safe s := Run.exec (.start start_init) _ hs
  exact ⟨s, hrun, he, exclusive_of_run hrun⟩

/-- A fiber that has written `HOLD` and is about to save its context is woken
and resumed by a second worker. -/
theorem fiber_resumed_before_save : ∃ s : State Bool, Reachable Init step s ∧ ¬ Exclusive s := by
  have h : (exec (guarded step (fun _ _ => True)) start (List.flatten
      [[.scheduleFiber none none, .enter false, .enter true], List.replicate 5 (.advance false),
        [.register false, .yieldToHold false, .advance false, .advance false, .wake none 0],
        List.replicate 5 (.advance true)])).map (fun s => (s.pc false, s.pc true)) =
      some (.save (.sub 0) .task, .inside (.sub 0) .task) := by
    decide +kernel
  obtain ⟨s, hs, he⟩ := Option.map_eq_some_iff.mp h
  obtain ⟨hf, ht⟩ := Prod.mk.inj he
  refine ⟨s, Run.exec (.start start_init) _ hs, fun hx => ?_⟩
  have hw := hx.alone false true (.sub 0) (by rw [hf]; rfl) (by rw [ht]; rfl)
  simp at hw

end Windgent.Scheduler.Worker
