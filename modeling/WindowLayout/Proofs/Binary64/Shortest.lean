import Mathlib
import WindowLayout.Decimal
import WindowLayout.Proofs.Binary64.Nearest
import WindowLayout.Proofs.Decimal

namespace WindowLayout.Binary64

/-- `y` is the number closest to a decimal. The decimals from half a spacing above the largest
number on have none. -/
def IsClosestTo (x : Decimal) (y : Binary64) : Prop :=
  x.digits < (2 ^ 1024 - 2 ^ 970) * 10 ^ x.places ∧
    ∃ rank : Fin magnitudes,
      y = .finite false rank ∧ IsClosest (x.digits * unitsInOne) (10 ^ x.places) rank

theorem ofQuotient_eq_finite_iff {negative sign : Bool} {n d : Nat} {rank : Fin magnitudes} :
    ofQuotient negative n d = .finite sign rank ↔ sign = negative ∧ rank.val = nearest n d := by
  rw [ofQuotient]
  split
  · simp [Fin.ext_iff, eq_comm]
  · rename_i h
    simp only [reduceCtorEq, false_iff, not_and]
    intro _ heq
    exact h (heq ▸ rank.isLt)

theorem ofDecimal_eq_finite_iff {x : Decimal} {sign : Bool} {rank : Fin magnitudes} :
    ofDecimal x = .finite sign rank ↔
      sign = false ∧ rank.val = nearest (x.digits * unitsInOne) (10 ^ x.places) :=
  ofQuotient_eq_finite_iff

theorem isClosestTo_iff {x : Decimal} {y : Binary64} :
    IsClosestTo x y ↔ ofDecimal x = y ∧ y.isFinite := by
  have hpos : 0 < 10 ^ x.places := by positivity
  have hlt : nearest (x.digits * unitsInOne) (10 ^ x.places) < magnitudes ↔
      x.digits < (2 ^ 1024 - 2 ^ 970) * 10 ^ x.places := by
    rw [nearest_lt_magnitudes_iff hpos, overflow_eq, Nat.mul_right_comm]
    exact Nat.mul_lt_mul_right unitsInOne_pos
  constructor
  · rintro ⟨-, rank, rfl, hclosest⟩
    exact ⟨ofDecimal_eq_finite_iff.2 ⟨rfl, (isClosest_iff hpos).1 hclosest⟩, rfl⟩
  · rintro ⟨heq, hfinite⟩
    cases y with
    | nan => cases hfinite
    | infinite => cases hfinite
    | finite sign rank =>
      obtain ⟨rfl, hrank⟩ := ofDecimal_eq_finite_iff.1 heq
      exact ⟨hlt.1 (hrank ▸ rank.isLt), rank, rfl, (isClosest_iff hpos).2 hrank⟩

theorem exists_isClosestTo {x : Decimal} (h : x.digits < (2 ^ 1024 - 2 ^ 970) * 10 ^ x.places) :
    ∃ rank, IsClosestTo x (.finite false rank) := by
  have hpos : 0 < 10 ^ x.places := by positivity
  have hlt : nearest (x.digits * unitsInOne) (10 ^ x.places) < magnitudes := by
    rw [nearest_lt_magnitudes_iff hpos, overflow_eq, Nat.mul_right_comm]
    exact Nat.mul_lt_mul_of_pos_right h unitsInOne_pos
  exact ⟨⟨_, hlt⟩, h, _, rfl, (isClosest_iff hpos).2 rfl⟩

theorem nearest_congr_decimal {x y : Decimal}
    (h : x.digits * 10 ^ y.places = y.digits * 10 ^ x.places) :
    nearest (x.digits * unitsInOne) (10 ^ x.places) =
      nearest (y.digits * unitsInOne) (10 ^ y.places) := by
  apply nearest_congr (by positivity) (by positivity)
  rw [Nat.mul_right_comm, h, Nat.mul_right_comm]

theorem five_pow_pos (n : Nat) : 0 < Nat.pow 5 n := Nat.pow_pos (by decide)

theorem ten_pow_depth : 10 ^ depth = Nat.pow 5 depth * unitsInOne := by
  have hpow (n : Nat) : 10 ^ n = Nat.pow 5 n * 2 ^ n := Nat.mul_pow 5 2 n
  rw [hpow, unitsInOne_eq]

theorem readsBack_iff {rank candidate : Nat} :
    readsBack rank candidate ↔
      nearest (candidate * unitsInOne) (10 ^ depth) = rank := by
  rw [ten_pow_depth, nearest_mul_mul (five_pow_pos depth) unitsInOne_pos, readsBack,
    beq_iff_eq]

theorem readsBack_choose? {rank value step candidate : Nat}
    (h : choose? rank value step = some candidate) : readsBack rank candidate := by
  simp only [choose?] at h
  split at h
  · rename_i hlow
    cases h
    exact (Bool.and_eq_true_iff.1 hlow).1
  · split at h
    · cases h
      assumption
    · cases h

theorem readsBack_chooseFrom {rank value : Nat} (h : readsBack rank value) (i : Nat) :
    readsBack rank (chooseFrom rank value i) := by
  induction i with
  | zero => exact h
  | succ i ih =>
    rw [chooseFrom]
    cases hchoice : choose? rank value (Nat.pow 10 (i + 1)) with
    | none => exact ih
    | some candidate => exact readsBack_choose? hchoice

theorem readsBack_value (rank : Nat) : readsBack rank (units rank * Nat.pow 5 depth) := by
  rw [readsBack, beq_iff_eq]
  exact nearest_units_mul rank (five_pow_pos depth)

theorem nearest_shortest (rank : Nat) :
    nearest ((shortest rank).digits * unitsInOne) (10 ^ (shortest rank).places) = rank := by
  rw [shortest, nearest_congr_decimal (Decimal.digits_reduce _)]
  exact readsBack_iff.1 (readsBack_chooseFrom (readsBack_value rank) _)

theorem ofSigned_shortest (negative : Bool) (rank : Fin magnitudes) :
    ofSigned negative (shortest rank) = .finite negative rank :=
  ofQuotient_eq_finite_iff.2 ⟨rfl, (nearest_shortest rank).symm⟩

theorem ofDecimal_shortest (rank : Fin magnitudes) :
    ofDecimal (shortest rank) = .finite false rank :=
  ofSigned_shortest false rank

theorem toChars_finite_false (rank : Fin magnitudes) :
    (Binary64.finite false rank).toChars = (shortest rank).toChars := by
  rw [toChars]
  exact List.nil_append _

theorem toChars_finite_true (rank : Fin magnitudes) :
    (Binary64.finite true rank).toChars = '-' :: (shortest rank).toChars := by
  rw [toChars]
  exact List.singleton_append

theorem ofChars?_minus (text : List Char) :
    ofChars? ('-' :: text) = (Decimal.ofChars? text).map (ofSigned true) := rfl

theorem ofChars?_numeral {text : List Char} {x : Decimal} (h : Decimal.Numeral text x) :
    ofChars? text = some (ofDecimal x) := by
  rw [ofChars?.eq_def]
  split
  · rcases h.isDigit_or_point '-' List.mem_cons_self with hc | hc <;> simp at hc
  · rw [Decimal.ofChars?_eq_some_iff.2 h, Option.map_some]

theorem ofChars?_toChars (negative : Bool) (rank : Fin magnitudes) :
    ofChars? (finite negative rank).toChars = some (.finite negative rank) := by
  have hnumeral := Decimal.numeral_toChars (shortest rank)
  cases negative with
  | true =>
    rw [toChars_finite_true, ofChars?_minus, Decimal.ofChars?_eq_some_iff.2 hnumeral,
      Option.map_some, ofSigned_shortest]
  | false => rw [toChars_finite_false, ofChars?_numeral hnumeral, ofDecimal_shortest]

end WindowLayout.Binary64
