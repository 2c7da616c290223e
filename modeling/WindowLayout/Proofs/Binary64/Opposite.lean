import Mathlib
import WindowLayout.Proofs.Binary64.Whole

namespace Int64

def opposite (i : Int64) : Int64 :=
  if i = maxValue then minValue else if i = minValue then maxValue else -i

theorem toInt_opposite {i : Int64} {k : Int}
    (h : i.toInt = max minValue.toInt (min maxValue.toInt k)) (hk : k ≠ 2 ^ 63 - 1) :
    i.opposite.toInt = max minValue.toInt (min maxValue.toInt (-k)) := by
  have hmin : minValue.toInt = -2 ^ 63 := by decide
  have hmax : maxValue.toInt = 2 ^ 63 - 1 := by decide
  rw [opposite]
  split
  · rename_i heq
    rw [heq] at h
    omega
  · split
    · rename_i heq
      rw [heq] at h
      omega
    · rename_i hne hne'
      have hlt : i.toInt ≠ minValue.toInt := fun h => hne' (toInt_inj.1 h)
      have hgt : i.toInt ≠ maxValue.toInt := fun h => hne (toInt_inj.1 h)
      rw [toInt_neg, Int.bmod_eq_of_le] <;> omega

end Int64

namespace WindowLayout.Binary64

/-- The values add up to zero, or neither is a number. -/
inductive Opposite : Binary64 → Binary64 → Prop
  | nan : Opposite .nan .nan
  | infinite (negative : Bool) : Opposite (.infinite negative) (.infinite !negative)
  | finite {s t : Bool} {rank : Fin magnitudes} :
    signed t rank = -signed s rank → Opposite (.finite s rank) (.finite t rank)

theorem signed_opposite {f : Nat → Nat} (hzero : f 0 = 0) {s t : Bool} {n : Nat}
    (h : signed t n = -signed s n) : signed t (f n) = -signed s (f n) := by
  rcases eq_or_ne t (!s) with rfl | hne
  · exact signed_not s _
  · obtain rfl : t = s := by simpa using hne
    have hn : n = 0 := by
      cases t <;> simp only [signed_false, signed_true] at h <;> omega
    rw [hn, hzero, signed_zero]
    rfl

theorem opposite_neg (x : Binary64) : Opposite x x.neg := by
  cases x with
  | nan => exact .nan
  | infinite negative => exact .infinite negative
  | finite negative rank => exact .finite (signed_not negative _)

theorem opposite_ofQuotient (negative : Bool) (n d : Nat) :
    Opposite (ofQuotient negative n d) (ofQuotient (!negative) n d) := by
  rw [ofQuotient, ofQuotient]
  split
  · exact .finite (signed_not negative _)
  · exact .infinite negative

theorem ofUnits_zero (negative : Bool) : ofUnits negative 0 = zero negative := by
  rw [ofUnits, if_pos rfl]
  exact ofQuotient_eq_finite_iff.2 ⟨rfl, (nearest_zero Nat.one_pos).symm⟩

theorem opposite_ofUnits (s t : Bool) (sum : Int) :
    Opposite (ofUnits s sum) (ofUnits t (-sum)) := by
  rcases eq_or_ne sum 0 with rfl | hne
  · rw [Int.neg_zero, ofUnits_zero, ofUnits_zero]
    exact .finite (by rw [signed_zero, signed_zero]; rfl)
  · have hsign : decide (-sum < 0) = !decide (sum < 0) := by
      rw [← decide_not, decide_eq_decide]
      omega
    rw [ofUnits, ofUnits, if_neg hne, if_neg (neg_ne_zero.2 hne), Int.natAbs_neg, hsign]
    exact opposite_ofQuotient _ _ _

theorem ofUnits_signed_units (negative : Bool) (rank : Fin magnitudes) :
    ofUnits negative (signed negative (units rank)) = .finite negative rank := by
  have hsign : (if signed negative (units rank) = 0 then negative
      else decide (signed negative (units rank) < 0)) = negative := by
    split
    · rfl
    · cases negative with
      | false => exact decide_eq_false (by rw [signed_false]; omega)
      | true => exact decide_eq_true (by rw [signed_true] at *; omega)
  rw [ofUnits, hsign, natAbs_signed, ofQuotient_units]

theorem opposite_zero_sub (x : Binary64) : Opposite x (0 - x) := by
  rw [zero_eq]
  cases x with
  | nan => exact .nan
  | infinite negative => exact .infinite negative
  | finite negative rank =>
    have hsub : zero false - .finite negative rank =
        ofUnits false (-signed negative (units rank)) := by
      change zero false + .finite (!negative) rank = _
      rw [zero, finite_add_finite, Bool.false_and, units_zero, signed_zero, Int.zero_add, signed_not]
    rw [hsub, ← ofUnits_signed_units]
    exact opposite_ofUnits _ _ _

namespace Opposite

variable {x y u v : Binary64}

theorem symm (h : Opposite x y) : Opposite y x := by
  cases h with
  | nan => exact .nan
  | infinite negative =>
    have h := Opposite.infinite !negative
    rwa [Bool.not_not] at h
  | finite h => exact .finite (by rw [h, Int.neg_neg])

theorem add (h : Opposite x y) (h' : Opposite u v) : Opposite (x + u) (y + v) := by
  cases h with
  | nan => exact .nan
  | infinite s =>
    cases h' with
    | nan => exact .nan
    | infinite t => cases s <;> cases t <;> first | exact .nan | exact .infinite _
    | finite => exact .infinite s
  | finite h =>
    cases h' with
    | nan => exact .nan
    | infinite t => exact .infinite t
    | finite h' =>
      rw [finite_add_finite, finite_add_finite, signed_opposite units_zero h,
        signed_opposite units_zero h', ← Int.neg_add]
      exact opposite_ofUnits _ _ _

theorem roundsTo {i : Int64} (h : Opposite x y) (hx : RoundsTo x i) : RoundsTo y i.opposite := by
  cases h with
  | nan =>
    cases hx
    exact .nan
  | infinite negative =>
    cases hx
    cases negative with
    | false => exact .infinite true
    | true => exact .infinite false
  | @finite s t rank h =>
    cases hx with
    | @finite _ _ q _ hq hi =>
      refine .finite hq ?_
      have hwhole := signed_opposite wholeOf_zero h
      rw [← hq.eq_wholeOf] at hwhole
      rw [hwhole]
      apply Int64.toInt_opposite hi
      have := hq.ne_maxValue
      cases s <;> simp only [signed_false, signed_true] <;> omega

end Opposite

end WindowLayout.Binary64
