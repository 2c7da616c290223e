import Mathlib
import WindowLayout.Proofs.Binary64.Product
import WindowLayout.Proofs.Expr.OnePass
import WindowLayout.Proofs.Expr.Percentage

namespace WindowLayout

namespace Binary64

theorem toInt_round_div_ofInt {n d : Nat} (hn : n < 2 ^ 52) (hd : 0 < d) (hd' : d ≤ 2 ^ 64) :
    (ofInt n / ofInt d).round.toInt64.toInt = ((2 * n + d) / (2 * d) : Nat) := by
  have hhalf : HalfUp n d ((2 * n + d) / (2 * d)) := (halfUp_iff hd).2 rfl
  have hq : (2 * n + d) / (2 * d) < 2 ^ 63 := by
    apply Nat.div_lt_of_lt_mul
    omega
  have hoverflow : n * unitsInOne < overflow := whole_lt_overflow (hn.le.trans (by norm_num))
  obtain ⟨rank, hrank, hunits⟩ := exists_ofInt_eq (hn.le.trans (by norm_num))
  -- A divisor that is no number itself is so large that the quotient is less than a half.
  rcases Nat.lt_or_ge (2 ^ 53) d with hlarge | hsmall
  · obtain ⟨divisor, hdivisor, hnearest⟩ := exists_ofInt_nearest hd'
    have hle := mul_unitsInOne_le_units le_rfl hlarge.le
    rw [← hnearest] at hle
    have hpos : 0 < units divisor := (Nat.mul_pos (by norm_num) unitsInOne_pos).trans_le hle
    have hlt := units_nearest_lt_half hn hle
    have hzero : (2 * n + d) / (2 * d) = 0 := Nat.div_eq_of_lt (by omega)
    rw [hrank, hdivisor, finite_div_finite _ _ (ne_zero_of_units_pos hpos), hunits, hzero,
      Bool.xor_false]
    apply toInt_round_ofQuotient hpos
    · have hone : unitsInOne ≤ units divisor := by omega
      calc
        n * unitsInOne * unitsInOne < overflow * unitsInOne :=
          Nat.mul_lt_mul_of_pos_right hoverflow unitsInOne_pos
        _ ≤ overflow * units divisor := Nat.mul_le_mul_left _ hone
    · constructor <;> omega
    · norm_num
  · rw [hrank, div_ofInt hd hsmall, hunits]
    apply toInt_round_ofQuotient hd _ (hhalf.quotient hn hd hsmall) hq
    exact hoverflow.trans_le (Nat.le_mul_of_pos_right _ hd)

theorem zero_mul_ofInt (n : Nat) : (zero false * ofInt n).round.toInt64 = 0 := by
  have hzero : (zero false).round.toInt64 = 0 := by decide +kernel
  rw [ofInt_natCast, ofQuotient]
  split
  · rw [zero_mul_finite, Bool.xor_false, hzero]
  · rfl

theorem units_nearest_hundred_of_dvd {p : Nat} (h : 25 ∣ p) (hp : p ≤ 2 ^ 53) :
    units (nearest (p * unitsInOne) 100) * 100 = p * unitsInOne := by
  obtain ⟨s, rfl⟩ := h
  have hone : unitsInOne = 2 ^ 2 * 2 ^ (depth - 2) := unitsInOne_eq_mul (by decide)
  have hquarter : nearest (25 * s * unitsInOne) 100 = nearest (s * 2 ^ (depth - 2)) 1 := by
    apply nearest_congr (by norm_num) Nat.one_pos
    rw [hone]
    ring
  rw [hquarter, units_nearest_mul_two_pow (by omega), hone]
  ring

theorem round_percentage_of_eq_zero {W p : Nat} {k : Fin magnitudes}
    (hk : ofInt p = .finite false k) (h : W * p = 0) :
    (ofInt W * (ofInt p / 100)).round.toInt64 = 0 := by
  have hzero : ofInt (0 : Nat) = zero false := zero_eq
  rcases Nat.mul_eq_zero.1 h with rfl | rfl
  · have hround : (zero false).round.toInt64 = 0 := by decide +kernel
    rw [hk, div_hundred_eq, hzero, zero_mul_finite, Bool.xor_false, hround]
  · have hratio : ofInt (0 : Nat) / 100 = zero false := by decide +kernel
    rw [hratio, Binary64.mul_comm, zero_mul_ofInt]

theorem HalfUp.percentage_of_dvd {W p q : Nat} (h : HalfUp (p * W) 100 q) (hle : p * W ≤ 2 ^ 50)
    (hp : p ≤ 2 ^ 53) (hdvd : 25 ∣ p) :
    HalfUp (Binary64.productOfQuotient p 100 W) unitsInOne q := by
  rw [productOfQuotient_of_exact (by norm_num) (units_nearest_hundred_of_dvd hdvd hp)]
  exact h.quotient (hle.trans_lt (by norm_num)) (by norm_num) (by norm_num)

theorem toInt_round_percentage {W p : Nat} {k : Fin magnitudes} (hk : ofInt p = .finite false k)
    (h : W * p ≤ 2 ^ 50) :
    let length := (ofInt W * (ofInt p / 100)).round.toInt64.toInt
    let whole := (2 * (W * p) + 100) / (2 * 100)
    (W * p % 100 ≠ 50 ∨ 25 ∣ p → length = whole) ∧ (length = whole ∨ length + 1 = whole) := by
  intro length whole
  rcases Nat.eq_zero_or_pos (W * p) with hzero | hpos
  · have hwhole : whole = 0 := by
      simp only [whole, hzero]
    have hlength : length = 0 := congrArg Int64.toInt (round_percentage_of_eq_zero hk hzero)
    rw [hwhole, hlength]
    simp
  · have hW : W ≤ 2 ^ 53 :=
      ((Nat.le_mul_of_pos_right W (Nat.pos_of_mul_pos_left hpos)).trans h).trans (by norm_num)
    have hp : p ≤ 2 ^ 53 :=
      ((Nat.le_mul_of_pos_left p (Nat.pos_of_mul_pos_right hpos)).trans h).trans (by norm_num)
    have hhalf : HalfUp (p * W) 100 whole :=
      (halfUp_iff (by norm_num)).2 (by rw [Nat.mul_comm p W])
    have hle : p * W ≤ 2 ^ 50 := (Nat.mul_comm p W).trans_le h
    obtain ⟨hexact, hnear⟩ :=
      toInt_round_mul_quotient hp hW (show 0 < 100 by norm_num) (by norm_num) hle hhalf
    refine ⟨?_, hnear⟩
    rintro (hsafe | hdvd)
    · apply hexact
      rw [Nat.mul_comm p W]
      omega
    · apply toInt_round_mul_quotient_of_halfUp hp hW (by norm_num) (by norm_num) hle
        (hhalf.percentage_of_dvd hle hp hdvd)
      have hbelow := hhalf.below
      omega

end Binary64

namespace Expr

open Decimal (Numeral)
open Term (IsNatural isNatural_toDigits)

variable {s : String}

theorem resolve_of_spells {text : List Char} {t : Term}
    (hs : Text.withoutBlanks s.toList = text) (h : Term.Spells text t)
    (container : Binary64) (screen : Option Binary64) :
    resolve s container screen = .ok ((Expr.term t).evaluate container screen) := by
  have hspells : (⟨text, []⟩ : Operands).Spells ⟨t, []⟩ := ⟨h, .nil⟩
  have htext : (⟨text, []⟩ : Operands).toChars = Text.withoutBlanks s.toList := by
    rw [hs]
    exact List.append_nil text
  have hparse : parse s = .ok (.term t) :=
    parse_eq_ok_iff_spells.2 ⟨_, _, htext, hspells, rfl⟩
  rw [resolve, hparse]
  rfl

/-- A fraction of a whole container is the exact quotient rounded to a whole number, a half going
away from zero. -/
theorem resolve_fraction_eq_exact {numerator denominator : List Char} {W a b : Nat}
    (hs : Text.withoutBlanks s.toList = numerator ++ '/' :: denominator)
    (ha : IsNatural numerator a) (hb : IsNatural denominator b) (hpos : 0 < b)
    (hW : W ≤ 2 ^ 53) (halt : a < 2 ^ 63) (hblt : b < 2 ^ 63) (h : W * a < 2 ^ 52)
    (screen : Option Binary64) :
    ∃ reply, resolve s (.ofInt W) screen = .ok reply ∧
      reply.value.toInt = ((2 * W * a + b) / (2 * b) : Nat) := by
  refine ⟨_, resolve_of_spells hs (.fraction ha hb halt hblt hpos.ne') _ _, ?_⟩
  have hvalue : ((Expr.term (.fraction (.ofNat a) (.ofNat b))).evaluate (.ofInt W) screen).value =
      (Binary64.ofInt W * .ofInt a / .ofInt b).round.toInt64 := by
    rw [← Term.ofInt64_ofNat halt, ← Term.ofInt64_ofNat hblt]
    rfl
  have hproduct : Binary64.ofInt W * .ofInt a = .ofInt (W * a : Nat) :=
    Binary64.ofInt_mul_ofInt hW (halt.le.trans (by norm_num)) (h.le.trans (by norm_num))
  rw [hvalue, hproduct, Nat.mul_assoc]
  exact Binary64.toInt_round_div_ofInt h hpos (hblt.le.trans (by norm_num))

theorem resolve_fraction_large_denominator :
    (2 ^ 52 - 1) * 1 < 2 ^ 52 ∧ ∃ reply,
      resolve "1 / 9007199254740993" (.ofInt (2 ^ 52 - 1 : Nat)) none = .ok reply ∧
        reply.value.toInt =
          ((2 * (2 ^ 52 - 1) * 1 + 9007199254740993) / (2 * 9007199254740993) : Nat) := by
  have hs : Text.withoutBlanks "1 / 9007199254740993".toList =
      Nat.toDigits 10 1 ++ '/' :: Nat.toDigits 10 9007199254740993 := by
    decide +kernel
  refine ⟨by norm_num, ?_⟩
  exact resolve_fraction_eq_exact hs (isNatural_toDigits 1) (isNatural_toDigits 9007199254740993)
    (by norm_num) (by norm_num) (by norm_num) (by norm_num) (by norm_num) none

/-- A whole percentage of a whole container is the exact part rounded to a whole number, a half going
away from zero. Only a half can be lost, to the whole number below, when the ratio was rounded; the
ratios of quarters of a percentage are not. -/
theorem resolve_percentage_eq_exact {number : List Char} {x : Decimal} {W p : Nat}
    (hs : Text.withoutBlanks s.toList = number ++ ['%']) (hx : Numeral number x)
    (hp : x.digits = p * 10 ^ x.places) (hlt : p < 2 ^ 1024 - 2 ^ 970) (h : W * p ≤ 2 ^ 50)
    (screen : Option Binary64) :
    ∃ reply, resolve s (.ofInt W) screen = .ok reply ∧
      (W * p % 100 ≠ 50 ∨ 25 ∣ p → reply.value.toInt = ((2 * W * p + 100) / 200 : Nat)) ∧
      (reply.value.toInt = ((2 * W * p + 100) / 200 : Nat) ∨
        reply.value.toInt + 1 = ((2 * W * p + 100) / 200 : Nat)) := by
  have hbound : x.digits < (2 ^ 1024 - 2 ^ 970) * 10 ^ x.places := by
    rw [hp]
    exact Nat.mul_lt_mul_of_pos_right hlt (by positivity)
  obtain ⟨rank, hclosest⟩ := Binary64.exists_isClosestTo hbound
  have hrank : Binary64.ofInt p = .finite false rank := by
    rw [← Binary64.ofDecimal_eq_ofInt hp]
    exact (Binary64.isClosestTo_iff.1 hclosest).1
  refine ⟨_, resolve_of_spells hs (.percentage hx hclosest) _ _, ?_⟩
  rw [← hrank, Nat.mul_assoc 2 W p]
  exact Binary64.toInt_round_percentage hrank h

theorem resolve_percentage_quarter :
    Numeral ['2', '5', '.', '0'] ⟨250, 1⟩ ∧ 2 * 25 ≤ 2 ^ 50 ∧ 25 ∣ 25 ∧ ∃ reply,
      resolve "25.0%" (.ofInt (2 : Nat)) none = .ok reply ∧ reply.value.toInt = 1 := by
  have hs : Text.withoutBlanks "25.0%".toList = ['2', '5', '.', '0'] ++ ['%'] := by decide +kernel
  have hx : Numeral ['2', '5', '.', '0'] ⟨250, 1⟩ := by
    rw [← Decimal.ofChars?_eq_some_iff]
    decide
  have hlt : 25 < 2 ^ 1024 - 2 ^ 970 := by decide +kernel
  obtain ⟨reply, hreply, hvalue, -⟩ :=
    resolve_percentage_eq_exact (W := 2) (p := 25) hs hx rfl hlt (by norm_num) none
  exact ⟨hx, by norm_num, dvd_rfl, reply, hreply, hvalue (.inr dvd_rfl)⟩

theorem resolve_percentage_loses_half :
    resolve "29%" (.ofInt 50) none = .ok ⟨14, []⟩ ∧
      resolve "29/100" (.ofInt 50) none = .ok ⟨15, []⟩ ∧ (2 * 50 * 29 + 100) / 200 = 15 := by
  decide +kernel

end Expr

end WindowLayout
