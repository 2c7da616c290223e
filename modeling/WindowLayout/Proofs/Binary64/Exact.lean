import Mathlib
import WindowLayout.Proofs.Binary64.Whole

namespace WindowLayout.Binary64

inductive IsWhole : Binary64 → Int → Prop
  | finite {negative : Bool} {rank : Fin magnitudes} {i : Int} :
    units rank = i.natAbs * unitsInOne → signed negative i.natAbs = i →
    IsWhole (.finite negative rank) i

theorem isWhole_ofQuotient {negative : Bool} {n d : Nat} {i : Int} (hd : 0 < d)
    (h : n = i.natAbs * unitsInOne * d) (hi : i.natAbs ≤ 2 ^ 53)
    (hsign : signed negative i.natAbs = i) : IsWhole (ofQuotient negative n d) i := by
  obtain ⟨rank, -, hunits⟩ := exists_ofInt_eq hi
  have hrank : rank.val = nearest n d := by
    rw [h, ← hunits, nearest_units_mul _ hd]
  rw [ofQuotient_eq_finite_iff.2 ⟨rfl, hrank⟩]
  exact .finite hunits hsign

theorem isWhole_ofUnits (zeroNegative : Bool) {i : Int} (h : i.natAbs ≤ 2 ^ 53) :
    IsWhole (ofUnits zeroNegative (i * unitsInOne)) i := by
  have hpos : (0 : Int) < unitsInOne := Int.natCast_pos.2 unitsInOne_pos
  apply isWhole_ofQuotient Nat.one_pos _ h
  · split
    · rename_i hzero
      rw [(Int.mul_eq_zero.1 hzero).resolve_right hpos.ne']
      exact signed_zero _
    · have hsign : i * unitsInOne < 0 ↔ i < 0 := by
        rw [mul_neg_iff]
        omega
      simp only [hsign, signed_natAbs]
  · rw [Int.natAbs_mul, Int.natAbs_natCast, Nat.mul_one]

theorem isWhole_ofInt {n : Nat} (h : n ≤ 2 ^ 53) : IsWhole (ofInt n) n := by
  rw [ofInt_natCast]
  exact isWhole_ofQuotient Nat.one_pos (Nat.mul_one _).symm h rfl

theorem isWhole_zero (negative : Bool) : IsWhole (zero negative) 0 :=
  .finite (Nat.zero_mul _).symm (signed_zero negative)

namespace IsWhole

variable {x y : Binary64} {i j : Int}

theorem rank_eq_zero_iff {negative : Bool} {rank : Fin magnitudes}
    (h : IsWhole (.finite negative rank) i) : rank.val = 0 ↔ i = 0 := by
  cases h with
  | finite hunits _ =>
    constructor
    · intro hzero
      rw [hzero, units_zero] at hunits
      exact Int.natAbs_eq_zero.1 ((Nat.mul_eq_zero.1 hunits.symm).resolve_right unitsInOne_pos.ne')
    · rintro rfl
      by_contra hne
      exact (units_pos hne).ne' (hunits.trans (Nat.zero_mul _))

theorem exists_eq_zero (h : IsWhole x 0) : ∃ negative, x = zero negative := by
  cases x with
  | nan => cases h
  | infinite => cases h
  | finite negative rank =>
    exact ⟨negative, congrArg (Binary64.finite negative) (Fin.ext (h.rank_eq_zero_iff.2 rfl))⟩

theorem of_equal (h : IsWhole x i) (hequal : x.equal y) : IsWhole y i := by
  cases x with
  | nan => cases h
  | infinite => cases h
  | finite negative rank =>
    rcases eq_of_equal_finite hequal with rfl | ⟨hzero, rfl⟩
    · exact h
    · rw [h.rank_eq_zero_iff.1 hzero]
      exact isWhole_zero _

theorem neg (h : IsWhole x i) : IsWhole x.neg (-i) := by
  cases h with
  | finite hunits hsign =>
    refine .finite ?_ ?_
    · rwa [Int.natAbs_neg]
    · rw [Int.natAbs_neg, signed_not, hsign]

theorem add (hx : IsWhole x i) (hy : IsWhole y j) (h : (i + j).natAbs ≤ 2 ^ 53) :
    IsWhole (x + y) (i + j) := by
  cases hx with
  | @finite s a _ ha hs =>
    cases hy with
    | @finite t b _ hb ht =>
      have hsum : signed s (units a) + signed t (units b) = (i + j) * unitsInOne := by
        rw [ha, hb, signed_mul, signed_mul, hs, ht, Int.add_mul]
      rw [finite_add_finite, hsum]
      exact isWhole_ofUnits _ h

theorem sub (hx : IsWhole x i) (hy : IsWhole y j) (h : (i - j).natAbs ≤ 2 ^ 53) :
    IsWhole (x - y) (i - j) := by
  rw [Int.sub_eq_add_neg] at *
  exact hx.add hy.neg h

theorem mul (hx : IsWhole x i) (hy : IsWhole y j) (h : (i * j).natAbs ≤ 2 ^ 53) :
    IsWhole (x * y) (i * j) := by
  cases hx with
  | @finite s a _ ha hs =>
    cases hy with
    | @finite t b _ hb ht =>
      rw [finite_mul_finite]
      apply isWhole_ofQuotient unitsInOne_pos _ h
      · rw [Int.natAbs_mul, signed_xor, hs, ht]
      · rw [ha, hb, Int.natAbs_mul]
        ring

theorem div (hx : IsWhole x (i * j)) (hy : IsWhole y j) (hj : j ≠ 0) (h : i.natAbs ≤ 2 ^ 53) :
    IsWhole (x / y) i := by
  cases hx with
  | @finite s a _ ha hs =>
    cases hy with
    | @finite t b _ hb ht =>
      have hpos : 0 < units b := by
        rw [hb]
        exact Nat.mul_pos (Int.natAbs_pos.2 hj) unitsInOne_pos
      rw [finite_div_finite _ _ (ne_zero_of_units_pos hpos)]
      apply isWhole_ofQuotient hpos _ h
      · have hproduct : signed (s ^^ t) i.natAbs * signed t j.natAbs = i * j := by
          rw [← signed_xor, Bool.xor_assoc, Bool.xor_self, Bool.xor_false, ← Int.natAbs_mul, hs]
        rw [ht] at hproduct
        exact Int.eq_of_mul_eq_mul_right hj hproduct
      · rw [ha, hb, Int.natAbs_mul]
        ring

theorem zero_mul (hx : IsWhole x 0) (negative : Bool) (rank : Fin magnitudes) :
    IsWhole (x * .finite negative rank) 0 := by
  obtain ⟨s, rfl⟩ := hx.exists_eq_zero
  rw [zero_mul_finite]
  exact isWhole_zero _

theorem zero_div (hx : IsWhole x 0) (negative : Bool) {rank : Fin magnitudes}
    (h : rank.val ≠ 0) : IsWhole (x / .finite negative rank) 0 := by
  obtain ⟨s, rfl⟩ := hx.exists_eq_zero
  rw [zero_div_finite _ _ h]
  exact isWhole_zero _

theorem toInt_round (h : IsWhole x i) (hi : i.natAbs ≤ 2 ^ 53) : x.round.toInt64.toInt = i := by
  cases h with
  | @finite negative rank _ hunits hsign =>
    have hhalf : HalfUp (units rank) unitsInOne i.natAbs := by
      rw [hunits]
      exact halfUp_mul unitsInOne_pos _
    rw [toInt_round_finite negative hhalf (hi.trans_lt (by norm_num)), hsign]

end IsWhole

end WindowLayout.Binary64
