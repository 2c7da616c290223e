import Mathlib
import WindowLayout.Proofs.Binary64.Opposite

namespace WindowLayout.Binary64

theorem equal_iff {x y : Binary64} :
    x.equal y ↔ ∃ i, x.position? = some i ∧ y.position? = some i := by
  rw [equal]
  cases x.position? with
  | none => simp
  | some i =>
    cases y.position? with
    | none => simp
    | some j =>
      simp only [beq_iff_eq, Option.some.injEq, exists_eq_left']
      exact eq_comm

theorem equal_comm (x y : Binary64) : x.equal y = y.equal x := by
  rw [Bool.eq_iff_iff, equal_iff, equal_iff]
  exact exists_congr fun _ => and_comm

theorem equal_trans {x y z : Binary64} (h : x.equal y) (h' : y.equal z) : x.equal z := by
  obtain ⟨i, hx, hy⟩ := equal_iff.1 h
  obtain ⟨j, hy', hz⟩ := equal_iff.1 h'
  obtain rfl := Option.some.inj (hy.symm.trans hy')
  exact equal_iff.2 ⟨i, hx, hz⟩

theorem equal_self_iff {x : Binary64} : x.equal x ↔ x.isNaN = false := by
  cases x with
  | nan => exact iff_of_false (by simp [equal, position?]) (by simp [isNaN])
  | infinite => exact iff_of_true (equal_iff.2 ⟨_, rfl, rfl⟩) rfl
  | finite => exact iff_of_true (equal_iff.2 ⟨_, rfl, rfl⟩) rfl

/-- The same, or zeros of any signs. -/
inductive Agree : Binary64 → Binary64 → Prop
  | refl (x : Binary64) : Agree x x
  | zeros (s t : Bool) : Agree (zero s) (zero t)

theorem agree_of_equal {x y : Binary64} (h : x.equal y) : Agree x y := by
  cases x with
  | nan => simp [equal, position?] at h
  | infinite s =>
    cases y with
    | nan => simp [equal, position?] at h
    | infinite t =>
      have hsigned : signed s magnitudes = signed t magnitudes := by
        simpa [equal, position?] using h
      obtain rfl := (eq_of_signed_eq hsigned).2.resolve_right (by decide)
      exact .refl _
    | finite t rank =>
      rw [equal_comm] at h
      rcases eq_of_equal_finite h with h | ⟨-, h⟩ <;> cases h
  | finite s rank =>
    rcases eq_of_equal_finite h with rfl | ⟨hzero, rfl⟩
    · exact .refl _
    · obtain rfl : rank = ⟨0, by decide⟩ := Fin.ext hzero
      exact .zeros s _

theorem agree_iff {x y : Binary64} : Agree x y ↔ x.isNaN ∧ y.isNaN ∨ x.equal y := by
  constructor
  · intro h
    cases h with
    | refl =>
      cases h : x.isNaN with
      | true => exact .inl ⟨rfl, rfl⟩
      | false => exact .inr (equal_self_iff.2 h)
    | zeros s t => exact .inr (equal_iff.2 ⟨0, by cases s <;> rfl, by cases t <;> rfl⟩)
  · rintro (⟨hx, hy⟩ | h)
    · cases x <;> cases hx
      cases y <;> cases hy
      exact .refl _
    · exact agree_of_equal h

theorem agree_ofUnits (s t : Bool) (sum : Int) : Agree (ofUnits s sum) (ofUnits t sum) := by
  rcases eq_or_ne sum 0 with rfl | hne
  · rw [ofUnits_zero, ofUnits_zero]
    exact .zeros s t
  · rw [ofUnits, ofUnits, if_neg hne, if_neg hne]
    exact .refl _

theorem agree_zero_add (s t : Bool) (x : Binary64) : Agree (zero s + x) (zero t + x) := by
  cases x with
  | nan => exact .refl _
  | infinite => exact .refl _
  | finite =>
    rw [zero, zero, finite_add_finite, finite_add_finite, units_zero, signed_zero, signed_zero]
    exact agree_ofUnits _ _ _

theorem agree_add_zero (s t : Bool) (x : Binary64) : Agree (x + zero s) (x + zero t) := by
  cases x with
  | nan => exact .refl _
  | infinite => exact .refl _
  | finite =>
    rw [zero, zero, finite_add_finite, finite_add_finite, units_zero, signed_zero, signed_zero]
    exact agree_ofUnits _ _ _

theorem agree_zero_mul (s t : Bool) (x : Binary64) : Agree (zero s * x) (zero t * x) := by
  cases x with
  | nan => exact .refl _
  | infinite => exact .refl _
  | finite =>
    rw [zero_mul_finite, zero_mul_finite]
    exact .zeros _ _

namespace Agree

variable {x y z u v : Binary64}

theorem add (h : Agree x y) (h' : Agree u v) : Agree (x + u) (y + v) := by
  cases h with
  | refl =>
    cases h' with
    | refl => exact .refl _
    | zeros s t => exact agree_add_zero s t x
  | zeros s t =>
    cases h' with
    | refl => exact agree_zero_add s t u
    | zeros s' t' =>
      change Agree (ofUnits (s && s') (signed s 0 + signed s' 0))
        (ofUnits (t && t') (signed t 0 + signed t' 0))
      simp only [signed_zero]
      exact agree_ofUnits _ _ _

theorem neg (h : Agree x y) : Agree x.neg y.neg := by
  cases h with
  | refl => exact .refl _
  | zeros s t => exact .zeros (!s) (!t)

theorem sub (h : Agree x y) (h' : Agree u v) : Agree (x - u) (y - v) := h.add h'.neg

theorem mul_right (h : Agree x y) (factor : Binary64) : Agree (x * factor) (y * factor) := by
  cases h with
  | refl => exact .refl _
  | zeros s t => exact agree_zero_mul s t factor

theorem mul_left (factor : Binary64) (h : Agree x y) : Agree (factor * x) (factor * y) := by
  rw [Binary64.mul_comm factor x, Binary64.mul_comm factor y]
  exact h.mul_right factor

theorem toInt64_round (h : Agree x y) : x.round.toInt64 = y.round.toInt64 := by
  cases h with
  | refl => rfl
  | zeros s t => cases s <;> cases t <;> decide +kernel

end Agree

end WindowLayout.Binary64
