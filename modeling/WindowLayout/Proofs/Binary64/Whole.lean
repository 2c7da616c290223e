import Mathlib
import WindowLayout.Proofs.Binary64.Arithmetic

namespace Int64

theorem toInt_ofIntClamp_eq (i : Int) :
    (ofIntClamp i).toInt = max minValue.toInt (min maxValue.toInt i) := by
  have hle : minValue.toInt ≤ maxValue.toInt := by decide
  rw [ofIntClamp]
  split
  · split
    · rw [toInt_ofIntLE]
      omega
    · omega
  · omega

end Int64

namespace WindowLayout.Binary64

structure HalfUp (n d q : Nat) : Prop where
  below : 2 * (q * d) ≤ 2 * n + d
  above : 2 * n + d < 2 * (q * d) + 2 * d

/-- `i` is the whole number nearest to `x`, of two the one further from zero, and the bound of 64
bits where it lies beyond; what is not a number counts as zero. -/
inductive RoundsTo : Binary64 → Int64 → Prop
  | nan : RoundsTo .nan 0
  | infinite (negative : Bool) :
    RoundsTo (.infinite negative) (if negative then Int64.minValue else Int64.maxValue)
  | finite {negative : Bool} {rank : Fin magnitudes} {q : Nat} {i : Int64} :
    HalfUp (units rank) unitsInOne q →
    i.toInt = max Int64.minValue.toInt (min Int64.maxValue.toInt (signed negative q)) →
    RoundsTo (.finite negative rank) i

theorem halfUp_iff {n d q : Nat} (hd : 0 < d) : HalfUp n d q ↔ (2 * n + d) / (2 * d) = q := by
  have hq : q * (2 * d) = 2 * (q * d) := by ring
  rw [Nat.div_eq_iff (by omega), hq]
  constructor
  · rintro ⟨hbelow, habove⟩
    omega
  · rintro ⟨hbelow, habove⟩
    constructor <;> omega

theorem halfUp_mul {d : Nat} (hd : 0 < d) (q : Nat) : HalfUp (q * d) d q := by
  constructor <;> omega

theorem HalfUp.unique {n d q q' : Nat} (h : HalfUp n d q) (h' : HalfUp n d q') (hd : 0 < d) :
    q = q' := by
  rw [← (halfUp_iff hd).1 h, (halfUp_iff hd).1 h']

def wholeOf (rank : Nat) : Nat := (2 * units rank + unitsInOne) / (2 * unitsInOne)

theorem HalfUp.eq_wholeOf {rank q : Nat} (h : HalfUp (units rank) unitsInOne q) :
    q = wholeOf rank :=
  ((halfUp_iff unitsInOne_pos).1 h).symm

theorem wholeOf_zero : wholeOf 0 = 0 := by
  have hpos := unitsInOne_pos
  rw [wholeOf, units_zero]
  exact Nat.div_eq_of_lt (by omega)

theorem wholeOf_mono : Monotone wholeOf := by
  intro a b h
  have hunits := units_strictMono.monotone h
  exact Nat.div_le_div_right (by omega)

theorem two_mul_unitsInOne_dvd_units {rank : Nat} (h : 2 ^ 53 * unitsInOne ≤ units rank) :
    2 * unitsInOne ∣ units rank := by
  obtain ⟨binade, m, rfl, hm, hnormal⟩ := exists_binade rank
  rw [units_add hm.le hnormal, unitsInOne_eq] at *
  generalize depth = depth at *
  have hlt : 2 ^ 53 * 2 ^ depth < 2 ^ 53 * 2 ^ binade :=
    h.trans_lt (Nat.mul_lt_mul_of_pos_right hm (Nat.two_pow_pos _))
  have hdepth : depth + 1 ≤ binade :=
    (Nat.pow_lt_pow_iff_right (by decide)).1 (Nat.lt_of_mul_lt_mul_left hlt)
  rw [← Nat.pow_succ']
  exact Dvd.dvd.mul_left (pow_dvd_pow 2 hdepth) m

theorem unitsInOne_dvd_units {rank : Nat} (h : 2 ^ 53 * unitsInOne ≤ units rank) :
    unitsInOne ∣ units rank :=
  (Nat.dvd_mul_left _ _).trans (two_mul_unitsInOne_dvd_units h)

theorem HalfUp.ne_maxValue {rank q : Nat} (h : HalfUp (units rank) unitsInOne q) :
    q ≠ 2 ^ 63 - 1 := by
  rintro rfl
  have hbelow := h.below
  have hpos := unitsInOne_pos
  have hlarge : 2 ^ 53 * unitsInOne ≤ units rank := by omega
  obtain ⟨k, hk⟩ := two_mul_unitsInOne_dvd_units hlarge
  have heven : HalfUp (units rank) unitsInOne (2 * k) := by
    rw [hk, Nat.mul_right_comm]
    exact halfUp_mul hpos _
  have := h.unique heven hpos
  omega

theorem exists_round_eq (negative : Bool) {rank : Fin magnitudes} {q : Nat}
    (h : HalfUp (units rank) unitsInOne q) :
    ∃ whole : Fin magnitudes,
      (Binary64.finite negative rank).round = .finite negative whole ∧
        units whole = q * unitsInOne := by
  have hround : (Binary64.finite negative rank).round =
      ofQuotient negative (q * unitsInOne) 1 := by
    rw [round, (halfUp_iff unitsInOne_pos).1 h]
  rw [hround]
  -- Small whole numbers are numbers of the format, and large numbers of the format are whole.
  rcases Nat.lt_or_ge (units rank) (2 ^ 53 * unitsInOne) with hlt | hge
  · have hq : q ≤ 2 ^ 53 := by
      by_contra hgt
      have hmul := Nat.mul_le_mul_right unitsInOne (show 2 ^ 53 + 1 ≤ q by omega)
      have hbelow := h.below
      omega
    obtain ⟨whole, -, hunits⟩ := exists_ofInt_eq hq
    refine ⟨whole, ?_, hunits⟩
    rw [← hunits, ofQuotient_units]
  · obtain ⟨k, hk⟩ := unitsInOne_dvd_units hge
    rw [Nat.mul_comm] at hk
    rw [hk] at h
    obtain rfl := h.unique (halfUp_mul unitsInOne_pos k) unitsInOne_pos
    refine ⟨rank, ?_, hk⟩
    rw [← hk, ofQuotient_units]

theorem roundsTo_iff {x : Binary64} {i : Int64} : RoundsTo x i ↔ x.round.toInt64 = i := by
  have hround : RoundsTo x x.round.toInt64 := by
    cases x with
    | nan => exact .nan
    | infinite negative => exact .infinite negative
    | finite negative rank =>
      have h := (halfUp_iff (n := units rank) unitsInOne_pos).2 rfl
      obtain ⟨whole, heq, hunits⟩ := exists_round_eq negative h
      refine .finite h ?_
      rw [heq, toInt64, hunits, Nat.mul_div_cancel _ unitsInOne_pos, Int64.toInt_ofIntClamp_eq]
  constructor
  · intro h
    cases h with
    | nan => rfl
    | infinite => rfl
    | finite hq hi =>
      cases hround with
      | finite hq' hi' =>
        obtain rfl := hq.unique hq' unitsInOne_pos
        exact Int64.toInt_inj.1 (hi'.trans hi.symm)
  · rintro rfl
    exact hround

theorem toInt_round_finite (negative : Bool) {rank : Fin magnitudes} {q : Nat}
    (h : HalfUp (units rank) unitsInOne q) (hq : q < 2 ^ 63) :
    (Binary64.finite negative rank).round.toInt64.toInt = signed negative q := by
  obtain ⟨whole, heq, hunits⟩ := exists_round_eq negative h
  have hmin : Int64.minValue.toInt = -2 ^ 63 := by decide
  have hmax : Int64.maxValue.toInt = 2 ^ 63 - 1 := by decide
  have hbounds : -2 ^ 63 < signed negative q ∧ signed negative q < 2 ^ 63 := by
    cases negative <;> simp only [signed] <;> omega
  rw [heq, toInt64, hunits, Nat.mul_div_cancel _ unitsInOne_pos, Int64.toInt_ofIntClamp_eq]
  omega

end WindowLayout.Binary64
