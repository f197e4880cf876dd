import Windgent.ByteArray.Consume

namespace Windgent.ByteArray

open Segments Wire Transition

def Intact {α : Type} (m : Reader α) (s : Typed) : Prop := ∀ x t, m.run.run s = some (.error x, t) → t = s

/-- The bytes in front of a reader do not end behind its first step. -/
def Retryable (e : Endian) (u : List UInt8) : Kind → Prop
  | .int32 | .uint32 => u = [] ∨ 5 ≤ u.length ∨ ∃ c ∈ u, c.toNat < 0x80
  | .int64 | .uint64 => u = [] ∨ 10 ≤ u.length ∨ ∃ c ∈ u, c.toNat < 0x80
  | .stringF16 => u.length < 2 ∨ load e (u.take 2) ≤ u.length - 2
  | .stringF32 => u.length < 4 ∨ load e (u.take 4) ≤ u.length - 4
  | .stringF64 => u.length < 8 ∨ load e (u.take 8) ≤ u.length - 8
  | .stringVint => u = [] ∨ ∃ size n, takeVarint 64 0 0 u = .ok (size, n) ∧ size ≤ u.length - n
  | _ => True

variable {α β : Type} {b : Nat} {e : Endian} {s : Typed}

theorem thrown_iff (h : Inv b s.array) (n : Nat) :
    (∀ x t, (some (.error .outOfRange, s.skip n) : Option (Except Thrown α × Typed)) = some (.error x, t) → t = s) ↔
      n = 0 := by
  constructor
  · exact fun hi => (skip_eq_self_iff h).mp (hi _ _ rfl)
  · rintro rfl x t hx
    rw [skip_zero h] at hx
    exact (Prod.mk.inj (Option.some.inj hx)).2.symm

section Numbers

theorem intact_iff_of_takes (h : Inv b s.array) (he : s.endian = e) {m : Reader α} {f : Take α}
    (hm : Takes b e m f) : Intact m s ↔ ∀ n, f (unread s) = .error n → n = 0 := by
  have hrun := hm.run s h he
  unfold Intact
  rw [hrun]
  cases hf : f (unread s) with
  | error n =>
    rw [Typed.after, thrown_iff h]
    simp
  | ok p => simp [Typed.after]

theorem Take.map_error {f : Take α} {g : α → β} {u : List UInt8} {n : Nat} :
    f.map g u = .error n ↔ f u = .error n := by
  unfold Take.map
  cases f u <;> simp [Except.map]

theorem takeFixed_error {n k : Nat} {u : List UInt8} (h : takeFixed e n u = .error k) : k = 0 := by
  unfold takeFixed at h
  split at h
  · exact (Except.error.inj h).symm
  · cases h

theorem takeByte_error {u : List UInt8} {k : Nat} (h : takeByte u = .error k) : k = 0 := by
  cases u with
  | nil => exact (Except.error.inj h).symm
  | cons c u => cases h

/-- The loop throws when all bytes say that another one follows and none of them is the last one it would read. -/
theorem takeVarint_error {w i r n : Nat} {u : List UInt8} :
    takeVarint w i r u = .error n ↔ n = u.length ∧ (∀ c ∈ u, ¬ c.toNat < 0x80) ∧ i + 7 * u.length < w := by
  induction u generalizing i r n with
  | nil =>
    rw [takeVarint]
    split <;> simp [*, eq_comm]
  | cons c u ih =>
    rw [takeVarint]
    by_cases hi : i < w
    · rw [if_pos hi]
      by_cases hc : c.toNat < 0x80
      · simp [hc]
      · rw [if_neg hc]
        have hcons : (∀ d ∈ c :: u, ¬ d.toNat < 0x80) ↔ ∀ d ∈ u, ¬ d.toNat < 0x80 :=
          List.forall_mem_cons.trans (and_iff_right hc)
        rw [hcons, List.length_cons]
        generalize (r ||| ((c.toNat &&& 0x7F) <<< i) % 2 ^ w) = r'
        cases hv : takeVarint w (i + 7) r' u with
        | error k =>
          obtain ⟨hk, hall, hlen⟩ := ih.mp hv
          simp only [Except.error.injEq]
          exact ⟨fun hn => ⟨by omega, hall, by omega⟩, fun hn => by omega⟩
        | ok p =>
          refine iff_of_false (by simp) ?_
          rintro ⟨-, hall, hlen⟩
          have herr := (ih (i := i + 7) (r := r') (n := u.length)).mpr ⟨rfl, hall, by omega⟩
          rw [hv] at herr
          cases herr
    · rw [if_neg hi]
      refine iff_of_false (by simp) (fun h => ?_)
      omega

theorem intact_varint_iff {w m : Nat} {u : List UInt8} (hw : ∀ n, 7 * n < w ↔ n < m) :
    (∀ n, takeVarint w 0 0 u = .error n → n = 0) ↔ u = [] ∨ m ≤ u.length ∨ ∃ c ∈ u, c.toNat < 0x80 := by
  constructor
  · intro h
    by_contra hne
    simp only [not_or, not_exists, not_and] at hne
    obtain ⟨hnil, hlen, hall⟩ := hne
    have hlt := (hw u.length).mpr (Nat.lt_of_not_le hlen)
    have hzero := h u.length (takeVarint_error.mpr ⟨rfl, hall, by omega⟩)
    exact hnil (List.eq_nil_of_length_eq_zero hzero)
  · intro h n hn
    obtain ⟨rfl, hall, hlen⟩ := takeVarint_error.mp hn
    have hlt := (hw u.length).mp (by omega)
    rcases h with rfl | hm | ⟨c, hc, hlow⟩
    · rfl
    · omega
    · exact absurd hlow (hall c hc)

end Numbers

section Strings

theorem intact_readStringOf_iff (hb : 0 < b) (h : Inv b s.array) (he : s.endian = e) (host : Endian) (l : Length) :
    Intact (readStringOf host l) s ↔
      (∀ n, l.take e (unread s) = .error n → n = 0) ∧
        ∀ size n, l.take e (unread s) = .ok (size, n) → (unread s).length - n < size → n = 0 := by
  unfold Intact
  rw [run_readStringOf hb h he]
  cases hf : l.take e (unread s) with
  | error n =>
    rw [stringAfter, thrown_iff h]
    simp
  | ok p =>
    obtain ⟨size, n⟩ := p
    simp only [stringAfter, Except.ok.injEq, Prod.mk.injEq]
    by_cases hshort : (unread s).length - n < size
    · rw [if_pos hshort, thrown_iff h]
      refine ⟨fun hn => ⟨by simp, ?_⟩, fun hn => hn.2 size n ⟨rfl, rfl⟩ hshort⟩
      rintro size' n' ⟨rfl, rfl⟩ -
      exact hn
    · rw [if_neg hshort]
      refine iff_of_true ?_ ⟨by simp, ?_⟩
      · intro x t hx
        split at hx <;> simp at hx
      · rintro size' n' ⟨rfl, rfl⟩ hlt
        exact absurd hlt hshort

theorem intact_fixed_iff {w : Nat} (hw : 0 < w) {u : List UInt8} :
    ((∀ n, takeFixed e w u = .error n → n = 0) ∧
      ∀ size n, takeFixed e w u = .ok (size, n) → u.length - n < size → n = 0) ↔
      u.length < w ∨ load e (u.take w) ≤ u.length - w := by
  rw [and_iff_right fun n hn => takeFixed_error hn]
  unfold takeFixed
  by_cases hlen : u.length < w
  · simp [hlen]
  · simp only [hlen, if_false, Except.ok.injEq, Prod.mk.injEq, false_or]
    constructor
    · intro h
      by_contra hlt
      have := h _ _ ⟨rfl, rfl⟩ (Nat.lt_of_not_le hlt)
      omega
    · rintro hle size n ⟨rfl, rfl⟩ hlt
      omega

theorem intact_vint_iff {u : List UInt8} :
    ((∀ n, takeVarint 64 0 0 u = .error n → n = 0) ∧
      ∀ size n, takeVarint 64 0 0 u = .ok (size, n) → u.length - n < size → n = 0) ↔
      u = [] ∨ ∃ size n, takeVarint 64 0 0 u = .ok (size, n) ∧ size ≤ u.length - n := by
  cases hv : takeVarint 64 0 0 u with
  | error n =>
    obtain ⟨rfl, hall, hlen⟩ := takeVarint_error.mp hv
    simp
  | ok p =>
    obtain ⟨size, n⟩ := p
    have hpos := takeVarint_pos (by decide) hv
    have hne : u ≠ [] := by
      rintro rfl
      simp [takeVarint] at hv
    simp only [reduceCtorEq, false_implies, implies_true, true_and, Except.ok.injEq, Prod.mk.injEq, hne, false_or]
    constructor
    · intro h
      by_contra hlt
      simp only [not_exists, not_and] at hlt
      have := h size n ⟨rfl, rfl⟩ (Nat.lt_of_not_le (hlt size n ⟨rfl, rfl⟩))
      omega
    · rintro ⟨size', n', ⟨rfl, rfl⟩, hle⟩ size'' n'' ⟨rfl, rfl⟩ hlt
      omega

end Strings

/-- When a typed reader that throws leaves the array as it was. -/
theorem intact_iff (hb : 1 ≤ b) {fresh : Nat → Nat → UInt8}
    (hr : Reachable (fun s => s = new fresh b) (ByteArray.advance fresh) s.array) (host : Endian) (k : Kind) :
    Intact (readVal host k) s ↔ Retryable s.endian (unread s) k := by
  have h := inv_of_reachable hb hr
  have hfixed : ∀ {α : Type} {n : Nat} (g : Nat → α), 0 < n →
      Intact (readFixed host n >>= fun v => pure (g v)) s := by
    intro α n g hn
    refine (intact_iff_of_takes h rfl ((takes_readFixed host hb hn).map g)).mpr fun k hk => ?_
    exact takeFixed_error (Take.map_error.mp hk)
  have hvarint : ∀ {α : Type} {w m : Nat} {f : Reader α} {t : Take α}, Takes b s.endian f t →
      (∀ n, t (unread s) = .error n ↔ takeVarint w 0 0 (unread s) = .error n) → (∀ n, 7 * n < w ↔ n < m) →
      (Intact f s ↔ unread s = [] ∨ m ≤ (unread s).length ∨ ∃ c ∈ unread s, c.toNat < 0x80) := by
    intro α w m f t hf ht hw
    rw [intact_iff_of_takes h rfl hf, ← intact_varint_iff hw]
    exact forall_congr' fun n => imp_congr_left (ht n)
  have h32 := (takes_readVarintLoop (e := s.endian) host hb 32 0 0).map UInt32.ofNat
  have h64 := (takes_readVarintLoop (e := s.endian) host hb 64 0 0).map UInt64.ofNat
  cases k with
  | fint8 =>
    refine iff_of_true ((intact_iff_of_takes h rfl ((takes_readObject host hb Nat.one_pos).map _)).mpr ?_) trivial
    intro n hn
    have herr := Take.map_error.mp (Take.map_error.mp hn)
    unfold takeBytes at herr
    split at herr
    · exact (Except.error.inj herr).symm
    · cases herr
  | fuint8 =>
    exact iff_of_true ((intact_iff_of_takes h rfl (takes_readFuint8 host hb)).mpr fun n hn => takeByte_error hn) trivial
  | fint16 | fuint16 | fint32 | fuint32 | fint64 | fuint64 | float | double =>
    exact iff_of_true (hfixed _ (by decide)) trivial
  | uint32 => exact hvarint h32 (fun n => Take.map_error) (by omega)
  | int32 => exact hvarint (h32.map _) (fun n => Take.map_error.trans Take.map_error) (by omega)
  | uint64 => exact hvarint h64 (fun n => Take.map_error) (by omega)
  | int64 => exact hvarint (h64.map _) (fun n => Take.map_error.trans Take.map_error) (by omega)
  | stringF16 => exact (intact_readStringOf_iff hb h rfl host .f16).trans (intact_fixed_iff (by decide))
  | stringF32 => exact (intact_readStringOf_iff hb h rfl host .f32).trans (intact_fixed_iff (by decide))
  | stringF64 => exact (intact_readStringOf_iff hb h rfl host .f64).trans (intact_fixed_iff (by decide))
  | stringVint => exact (intact_readStringOf_iff hb h rfl host .vint).trans intact_vint_iff

theorem intact_fint32 : unread ⟨{ sixBytes with position := 4, cur := some 1 }, .big⟩ = [5, 6] ∧
    Intact (readVal .little .fint32) ⟨{ sixBytes with position := 4, cur := some 1 }, .big⟩ := by
  have hr : Reachable (fun s => s = new (fun _ _ => 7) 4) (ByteArray.advance fun _ _ => 7)
      { sixBytes with position := 4, cur := some 1 } := by
    exact (new_reachable _ 4).exec [.op (.write [1, 2, 3, 4, 5, 6]), .op (.setPosition 4)] (by decide)
  exact ⟨by decide, (intact_iff (s := ⟨_, _⟩) (by decide) hr .little .fint32).mpr trivial⟩

def halfVarint : State := ⟨4, 0, 4, 1, [[0x80, 7, 7, 7]], some 0, 1⟩

theorem halfVarint_reachable :
    Reachable (fun s => s = new (fun _ _ => 7) 4) (ByteArray.advance fun _ _ => 7) halfVarint := by
  exact (new_reachable _ 4).exec [.op (.write [0x80]), .op (.setPosition 0)] (by decide)

/-- The byte is gone when `readUint32` throws. -/
theorem readUint32_loses_byte :
    Reachable (fun s => s = new (fun _ _ => 7) 4) (ByteArray.advance fun _ _ => 7) halfVarint ∧
      (readVal .little .uint32).run.run ⟨halfVarint, .big⟩ =
        some (.error .outOfRange, ⟨{ halfVarint with position := 1 }, .big⟩) ∧
      ¬ Intact (readVal .little .uint32) ⟨halfVarint, .big⟩ := by
  have hi := inv_of_reachable (by decide) halfVarint_reachable
  have htake := (takes_readVarintLoop (e := .big) .little (by decide : 0 < 4) 32 0 0).map UInt32.ofNat
  have hrun : (readVal .little .uint32).run.run ⟨halfVarint, .big⟩ =
      some (.error .outOfRange, ⟨{ halfVarint with position := 1 }, .big⟩) := by
    exact (htake.run ⟨halfVarint, .big⟩ hi rfl).trans (by decide)
  refine ⟨halfVarint_reachable, hrun, fun hintact => ?_⟩
  have heq := hintact _ _ hrun
  exact absurd (congrArg (fun t => t.array.position) heq) (by decide)

end Windgent.ByteArray
