import Windgent.TimerManager.Armed
import Windgent.TimerManager.Expiry
import Mathlib.Data.Fintype.Basic

namespace Windgent.TimerManager.Cancel

open MachineInt OrderedSet Transition

/-- A copy of the callback of a timer, on its way to its execution. -/
structure Copy where
  timer : Nat
  cb : Option Nat
deriving DecidableEq

inductive Event where
  | cancelled (timer : Nat)
  | started (copy : Copy)
deriving DecidableEq

/-- The timers, the vector `cbs` of each thread in `idle`, the copies in the task queue, and what
has happened, the last event first: the calls of `cancel` that returned true and the executions. -/
structure System (W : Type) where
  timers : State
  cbs : W → List Copy
  tasks : List Copy
  log : List Event

inductive Action (W : Type) where
  | addTimer (a ms cb : Nat) (recur : Bool) (now : Nat)
  | cancel (a : Nat)
  | refresh (a now : Nat)
  | reset (a ms : Nat) (from_now : Bool) (now : Nat)
  | listExpiredCbs (w : W) (now tmp : Nat)
  | schedule (w : W)
  | execute (i : Nat)

def copies (s : State) (now tmp : Nat) : List Copy :=
  (expired s now tmp).map fun a => ⟨a, (s.heap a).bind Timer.cb⟩

variable {W : Type}

/-- The sections of the timers, the scheduling of the expired callbacks by `idle`, and the execution
of a task. -/
def step [DecidableEq W] (s : System W) : Action W → Option (System W)
  | .addTimer a ms cb recur now =>
    (operate s.timers (.addTimer a ms cb recur now)).map fun m => { s with timers := m }
  | .cancel a => (TimerManager.cancel s.timers a).map fun r =>
      { s with timers := r.1, log := if r.2 then .cancelled a :: s.log else s.log }
  | .refresh a now => (operate s.timers (.refresh a now)).map fun m => { s with timers := m }
  | .reset a ms from_now now => (operate s.timers (.reset a ms from_now now)).map fun m => { s with timers := m }
  | .listExpiredCbs w now tmp =>
    if s.cbs w = [] then
      (operate s.timers (.listExpiredCbs now tmp)).map fun m =>
        { s with timers := m, cbs := Function.update s.cbs w (copies s.timers now tmp) }
    else none
  | .schedule w => some { s with tasks := s.tasks ++ s.cbs w, cbs := Function.update s.cbs w [] }
  | .execute i => s.tasks[i]?.map fun k => { s with tasks := s.tasks.eraseIdx i, log := .started k :: s.log }

structure Init (s : System W) : Prop where
  timers : Empty s.timers
  cbs : ∀ w, s.cbs w = []
  tasks : s.tasks = []
  log : s.log = []

/-- No execution of a callback starts after its timer was cancelled. -/
def Respected (s : System W) : Prop :=
  s.log.Pairwise fun later earlier => ∀ k, later = .started k → earlier ≠ .cancelled k.timer

def Pending (s : System W) (a : Nat) : Prop := (∃ w, ∃ k ∈ s.cbs w, k.timer = a) ∨ ∃ k ∈ s.tasks, k.timer = a

/-- A recurring timer is cancelled only while no copy of its callback is on its way. -/
def Settled (s : System W) : Action W → Prop
  | .cancel a => ∀ t, s.timers.heap a = some t → t.cb ≠ none → t.recur = true → ¬ Pending s a
  | _ => True

theorem wellFormed_operate {s t : State} (h : WellFormed s) {op : Operation} (ht : operate s op = some t) :
    WellFormed t := by
  rw [← applyWrites_writes ht]
  exact h.writes (h.safeWrites ht)

def Same (t u : Timer) : Prop := u.cb = t.cb ∧ u.recur = t.recur

def Keeps (s t : State) : Prop := ∀ a u, s.heap a = some u → ∃ v, t.heap a = some v ∧ Same u v

structure Inv (s : System W) : Prop where
  wellFormed : WellFormed s.timers
  armed : ArmedBut [] s.timers
  handedOut : ∀ a, Pending s a → ∃ t, s.timers.heap a = some t ∧ (t.recur = false → t.cb = none)
  cancelled : ∀ a, .cancelled a ∈ s.log → ¬ Pending s a ∧ ∃ t, s.timers.heap a = some t ∧ t.cb = none
  respected : Respected s

section Keeps

variable {s t : State}

theorem keeps_addTimer {a : Nat} {v : Timer} (ha : s.heap a = none) : Keeps s (addTimer (s.set a v) a).1 := by
  intro b u hb
  have hne : b ≠ a := by
    rintro rfl
    exact nomatch ha.symm.trans hb
  refine ⟨u, ?_, rfl, rfl⟩
  exact (Function.update_of_ne hne _ _).trans hb

theorem keeps_rewrite {a : Nat} {u v : Timer} (hu : s.heap a = some u) (hsame : Same u v)
    (ht : t.heap = (s.withdraw a v).heap) : Keeps s t := by
  intro b w hw
  rw [ht]
  by_cases hb : b = a
  · subst hb
    obtain rfl := Option.some.inj (hu.symm.trans hw)
    exact ⟨v, Function.update_self _ _ _, hsame⟩
  · exact ⟨w, (Function.update_of_ne hb _ _).trans hw, rfl, rfl⟩

theorem keeps_self (s : State) : Keeps s s := fun _ u hu => ⟨u, hu, rfl, rfl⟩

theorem keeps_refresh {a now : Nat} {r : Bool} (h : refresh s a now = some (t, r)) : Keeps s t := by
  obtain rfl | ⟨u, v, hu, -, rfl, rfl⟩ := refresh_cases h
  · exact keeps_self _
  · exact keeps_rewrite (v := { u with next := addU64 now u.ms }) hu ⟨rfl, rfl⟩ rfl

theorem keeps_reset {a ms now : Nat} {from_now n r : Bool} (h : reset s a ms from_now now = some ((t, n), r)) :
    Keeps s t := by
  obtain ⟨rfl, -⟩ | ⟨u, hu, -, heq⟩ := reset_cases h
  · exact keeps_self _
  · have ht := congrArg Prod.fst heq
    dsimp only at ht
    rw [ht]
    apply keeps_rewrite (v := { u with
      ms := ms, next := addU64 (if from_now then now else subU64 u.next u.ms) ms }) hu ⟨rfl, rfl⟩
    rfl

end Keeps

section Runs

variable {s t : System W}

theorem Inv.keeps (h : Inv s) {m : State} {op : Operation} (hop : operate s.timers op = some m)
    (hk : Keeps s.timers m) : Inv { s with timers := m } := by
  refine ⟨wellFormed_operate h.wellFormed hop, h.armed.operate h.wellFormed hop, fun a ha => ?_, fun a ha => ?_,
    h.respected⟩
  · obtain ⟨u, hu, hcb⟩ := h.handedOut a ha
    obtain ⟨v, hv, hsame⟩ := hk a u hu
    exact ⟨v, hv, fun hr => hsame.1.trans (hcb (hsame.2.symm.trans hr))⟩
  · obtain ⟨hp, u, hu, hcb⟩ := h.cancelled a ha
    obtain ⟨v, hv, hsame⟩ := hk a u hu
    exact ⟨hp, v, hv, hsame.1.trans hcb⟩

theorem Inv.move (h : Inv s) {cbs : W → List Copy} {tasks : List Copy}
    (hp : ∀ a, Pending { s with cbs := cbs, tasks := tasks } a → Pending s a) :
    Inv { s with cbs := cbs, tasks := tasks } :=
  ⟨h.wellFormed, h.armed, fun a ha => h.handedOut a (hp a ha),
    fun a ha => ⟨fun hq => (h.cancelled a ha).1 (hp a hq), (h.cancelled a ha).2⟩, h.respected⟩

theorem init_inv (h : Init s) : Inv s := by
  have hpending : ∀ a, ¬ Pending s a := by
    rintro a (⟨w, k, hk, -⟩ | ⟨k, hk, -⟩)
    · rw [h.cbs] at hk
      cases hk
    · rw [h.tasks] at hk
      cases hk
  obtain ⟨hheap, htimers, -⟩ := h.timers
  refine ⟨⟨?_, ?_⟩, fun a _ => ?_, fun a ha => absurd ha (hpending a), fun a ha => ?_, ?_⟩
  · simp [htimers]
  · simp [htimers]
  · simp [htimers, hheap]
  · rw [h.log] at ha
    cases ha
  · rw [Respected, h.log]
    exact List.Pairwise.nil

theorem Inv.execute (h : Inv s) {i : Nat} {k : Copy} (hk : s.tasks[i]? = some k) :
    Inv { s with tasks := s.tasks.eraseIdx i, log := .started k :: s.log } := by
  have hmoved : Inv { s with cbs := s.cbs, tasks := s.tasks.eraseIdx i } := by
    apply h.move
    rintro a (ha | ⟨k', hk', rfl⟩)
    · exact Or.inl ha
    · exact Or.inr ⟨k', List.mem_of_mem_eraseIdx hk', rfl⟩
  refine ⟨h.wellFormed, h.armed, hmoved.handedOut, fun a ha => ?_, ?_⟩
  · obtain ha | ha := List.mem_cons.mp ha
    · cases ha
    · exact hmoved.cancelled a ha
  · refine List.pairwise_cons.mpr ⟨fun x hx k' hk' hcancel => ?_, h.respected⟩
    obtain rfl := Event.started.inj hk'
    apply (h.cancelled k.timer (hcancel ▸ hx)).1
    exact Or.inr ⟨k, List.mem_of_getElem? hk, rfl⟩

variable [DecidableEq W]

theorem Inv.cancel (h : Inv s) {a : Nat} (hok : Settled s (.cancel a)) (ht : step s (.cancel a) = some t) : Inv t := by
  obtain ⟨⟨m, r⟩, hc, rfl⟩ := Option.map_eq_some_iff.mp ht
  have hop : operate s.timers (.cancel a) = some m := by
    rw [operate, hc]
    rfl
  have hw := wellFormed_operate h.wellFormed hop
  have ha := h.armed.operate h.wellFormed hop
  obtain ⟨u, hu, hc⟩ := Option.bind_eq_some_iff.mp hc
  split at hc
  · obtain ⟨rfl, rfl⟩ := Prod.mk.inj (Option.some.inj hc)
    exact h
  · rename_i hcb
    obtain ⟨it, -, hit⟩ := Option.map_eq_some_iff.mp hc
    obtain ⟨rfl, rfl⟩ := Prod.mk.inj hit
    have hnone : ¬ Pending s a := by
      intro hp
      obtain ⟨v, hv, hclear⟩ := h.handedOut a hp
      obtain rfl := Option.some.inj (hu.symm.trans hv)
      cases hr : u.recur with
      | true => exact hok u hu hcb hr hp
      | false => exact hcb (hclear hr)
    refine ⟨hw, ha, fun b hb => ?_, fun b hb => ?_, ?_⟩
    · have hne : b ≠ a := fun he => hnone (he ▸ hb)
      obtain ⟨v, hv, hclear⟩ := h.handedOut b hb
      exact ⟨v, (Function.update_of_ne hne _ _).trans hv, hclear⟩
    · by_cases hb' : b = a
      · subst hb'
        exact ⟨hnone, _, Function.update_self _ _ _, rfl⟩
      · obtain hb | hb := List.mem_cons.mp hb
        · exact absurd (Event.cancelled.inj hb) hb'
        · obtain ⟨hp, v, hv, hclear⟩ := h.cancelled b hb
          exact ⟨hp, v, (Function.update_of_ne hb' _ _).trans hv, hclear⟩
    · refine List.pairwise_cons.mpr ⟨fun x _ k hk => ?_, h.respected⟩
      cases hk

/-- The timers whose callbacks are handed out are in the set, so they are not cancelled. -/
theorem Inv.listExpiredCbs (h : Inv s) {w : W} {now tmp : Nat} (ht : step s (.listExpiredCbs w now tmp) = some t) :
    Inv t := by
  simp only [step] at ht
  split at ht
  · rename_i hempty
    obtain ⟨m, hop, rfl⟩ := Option.map_eq_some_iff.mp ht
    have hw := wellFormed_operate h.wellFormed hop
    have ha := h.armed.operate h.wellFormed hop
    simp only [operate] at hop
    split at hop
    · obtain rfl := Option.some.inj hop
      obtain ⟨-, hexpired, hother⟩ := listExpiredCbs_expired now h.wellFormed tmp
      have hpending : ∀ a, Pending { s with cbs := Function.update s.cbs w (copies s.timers now tmp) } a →
          a ∈ expired s.timers now tmp ∨ Pending s a := by
        rintro a (⟨w', k, hk, rfl⟩ | hk)
        · by_cases hw' : w' = w
          · subst hw'
            dsimp only at hk
            rw [Function.update_self] at hk
            obtain ⟨b, hb, rfl⟩ := List.mem_map.mp hk
            exact Or.inl hb
          · dsimp only at hk
            rw [Function.update_of_ne hw'] at hk
            exact Or.inr (Or.inl ⟨w', k, hk, rfl⟩)
        · exact Or.inr (Or.inr hk)
      have hin : ∀ a ∈ expired s.timers now tmp, ∃ u, s.timers.heap a = some u ∧ u.cb ≠ none := fun a hm =>
        (h.armed a List.not_mem_nil).mp ((expired_sublist s.timers now tmp).subset hm)
      refine ⟨hw, ha, fun a hp => ?_, fun a hlog => ?_, h.respected⟩
      · by_cases hm : a ∈ expired s.timers now tmp
        · obtain ⟨u, hu, -⟩ := hin a hm
          refine ⟨_, (hexpired a hm u hu).1, fun hr => ?_⟩
          unfold expire at hr ⊢
          split at hr
          · rename_i hrec
            cases hrec.symm.trans hr
          · rename_i hrec
            rw [if_neg hrec]
        · obtain ⟨u, hu, hclear⟩ := h.handedOut a ((hpending a hp).resolve_left hm)
          exact ⟨u, (hother a hm).1.trans hu, hclear⟩
      · obtain ⟨hp, u, hu, hclear⟩ := h.cancelled a hlog
        have hm : a ∉ expired s.timers now tmp := by
          intro hm
          obtain ⟨v, hv, hcb⟩ := hin a hm
          obtain rfl := Option.some.inj (hu.symm.trans hv)
          exact hcb hclear
        exact ⟨fun hp' => hp ((hpending a hp').resolve_left hm), u, (hother a hm).1.trans hu, hclear⟩
    · cases hop
  · cases ht

theorem Inv.schedule (h : Inv s) (w : W) :
    Inv { s with tasks := s.tasks ++ s.cbs w, cbs := Function.update s.cbs w [] } := by
  apply h.move
  rintro a (⟨w', k, hk, rfl⟩ | ⟨k, hk, rfl⟩)
  · by_cases hw : w' = w
    · subst hw
      dsimp only at hk
      rw [Function.update_self] at hk
      cases hk
    · dsimp only at hk
      rw [Function.update_of_ne hw] at hk
      exact Or.inl ⟨w', k, hk, rfl⟩
  · obtain hk | hk := List.mem_append.mp hk
    · exact Or.inr ⟨k, hk, rfl⟩
    · exact Or.inl ⟨w, k, hk, rfl⟩

theorem Inv.step (h : Inv s) {a : Action W} (hok : Settled s a) (ht : step s a = some t) : Inv t := by
  cases a with
  | addTimer a ms cb recur now =>
    obtain ⟨m, hop, rfl⟩ := Option.map_eq_some_iff.mp ht
    refine h.keeps hop ?_
    simp only [operate] at hop
    split at hop
    · rename_i hnone
      obtain rfl := Option.some.inj hop
      exact keeps_addTimer hnone
    · cases hop
  | cancel a => exact h.cancel hok ht
  | refresh a now =>
    obtain ⟨m, hop, rfl⟩ := Option.map_eq_some_iff.mp ht
    obtain ⟨⟨u, r⟩, hc, rfl⟩ := Option.map_eq_some_iff.mp hop
    exact h.keeps hop (keeps_refresh hc)
  | reset a ms from_now now =>
    obtain ⟨m, hop, rfl⟩ := Option.map_eq_some_iff.mp ht
    obtain ⟨⟨⟨u, n⟩, r⟩, hc, rfl⟩ := Option.map_eq_some_iff.mp hop
    exact h.keeps hop (keeps_reset hc)
  | listExpiredCbs w now tmp => exact h.listExpiredCbs ht
  | schedule w =>
    obtain rfl := Option.some.inj ht
    exact h.schedule w
  | execute i =>
    obtain ⟨k, hk, rfl⟩ := Option.map_eq_some_iff.mp ht
    exact h.execute hk

/-- No callback starts after its timer was cancelled, in every run in which recurring timers are
cancelled only while no copy of their callback is on its way. -/
theorem respected_of_run (s : System W) (h : Run Init step Settled s) : Respected s :=
  (h.invariant (fun _ => init_inv) fun _ _ _ hi hok ht => hi.step hok ht).respected

end Runs

section Instances

variable [Fintype W]

instance (s : System W) (a : Nat) : Decidable (Pending s a) := inferInstanceAs (Decidable (_ ∨ _))

instance (s : System W) : DecidablePred (Settled s)
  | .cancel a =>
    match h : s.timers.heap a with
    | none => isTrue fun t ht => nomatch h.symm.trans ht
    | some t => decidable_of_iff (t.cb ≠ none → t.recur = true → ¬ Pending s a)
        ⟨fun hp u hu => by rw [h, Option.some.injEq] at hu; exact hu ▸ hp, fun hp => hp t h⟩
  | .addTimer .. | .refresh .. | .reset .. | .listExpiredCbs .. | .schedule _ | .execute _ => isTrue trivial

end Instances

def noTimer : System Unit := ⟨⟨fun _ => none, [], false, 1000⟩, fun _ => [], [], []⟩

theorem noTimer_init : Init noTimer := ⟨⟨rfl, rfl, rfl⟩, fun _ => rfl, rfl, rfl⟩

theorem respected_after_run :
    ∃ s : System Unit, s.log = [.cancelled 8, .started ⟨8, some 2⟩] ∧ Respected s := by
  have h : (exec (guarded step Settled) noTimer
      [.addTimer 8 300 2 true 1000, .listExpiredCbs () 1300 5, .schedule (), .execute 0, .cancel 8]).map System.log =
        some [.cancelled 8, .started ⟨8, some 2⟩] := by
    decide +kernel
  obtain ⟨s, hs, he⟩ := Option.map_eq_some_iff.mp h
  exact ⟨s, he, respected_of_run s (Run.exec (.start noTimer_init) _ hs)⟩

/-- A recurring timer is cancelled between `listExpiredCbs` and the execution of its callback. -/
theorem callback_started_after_cancel :
    ∃ s : System Unit, Reachable Init step s ∧ s.log = [.started ⟨8, some 2⟩, .cancelled 8] ∧ ¬ Respected s := by
  have h : (exec (guarded step fun _ _ => True) noTimer
      [.addTimer 8 300 2 true 1000, .listExpiredCbs () 1300 5, .cancel 8, .schedule (), .execute 0]).map System.log =
        some [.started ⟨8, some 2⟩, .cancelled 8] := by
    decide +kernel
  obtain ⟨s, hs, he⟩ := Option.map_eq_some_iff.mp h
  refine ⟨s, Run.exec (.start noTimer_init) _ hs, he, fun hr => ?_⟩
  rw [Respected, he] at hr
  exact (List.pairwise_cons.mp hr).1 (.cancelled 8) List.mem_cons_self ⟨8, some 2⟩ rfl rfl

end Windgent.TimerManager.Cancel
