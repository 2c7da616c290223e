import Mathlib
import WindowLayout.Proofs.Expr.Portion

namespace WindowLayout

open Binary64 (HalfUp)

section

variable {x : ℚ}

theorem round_eq_ceil_of_half (h : Int.fract x = 1 / 2) : round x = ⌈x⌉ := by
  rw [round, if_neg]
  rw [h]
  norm_num

theorem floor_add_one_eq_ceil_of_half (h : Int.fract x = 1 / 2) : ⌊x⌋ + 1 = ⌈x⌉ := by
  rw [eq_comm, Int.ceil_eq_floor_add_one_iff_notMem, ← Int.fract_ne_zero_iff, h]
  norm_num

variable {n d q : Nat}

theorem round_div_of_halfUp (h : HalfUp n d q) (hd : 0 < d) : round ((n : ℚ) / d) = q := by
  have hpos : (0 : ℚ) < d := by exact_mod_cast hd
  have hbelow : (2 * (q * d) : ℚ) ≤ 2 * n + d := by exact_mod_cast h.below
  have habove : (2 * n + d : ℚ) < 2 * (q * d) + 2 * d := by exact_mod_cast h.above
  rw [round_eq, Int.floor_eq_iff, div_add_div _ _ hpos.ne' two_ne_zero]
  constructor
  · rw [le_div_iff₀ (by positivity)]
    push_cast
    linarith
  · rw [div_lt_iff₀ (by positivity)]
    push_cast
    linarith

theorem fract_div_of_middle (h : 2 * (q * d) = 2 * n + d) (hd : 0 < d) :
    Int.fract ((n : ℚ) / d) = 1 / 2 := by
  have hpos : (0 : ℚ) < d := by exact_mod_cast hd
  have hmiddle : (2 * (q * d) : ℚ) = 2 * n + d := by exact_mod_cast h
  rw [Int.fract_eq_iff]
  refine ⟨by norm_num, by norm_num, q - 1, ?_⟩
  push_cast
  rw [sub_eq_iff_eq_add, div_eq_iff hpos.ne']
  linarith

end

namespace Expr

open Decimal (Numeral)

variable {s : String}

/-- Whole pixels of a whole screen on a picture of whole length are the exact length rounded to the
nearest whole number. Where it lies in the middle between two they are one of these. -/
theorem resolve_scaled_pixels_eq_nearest {number : List Char} {x : Decimal} {N W S : Nat}
    (hs : Text.withoutBlanks s.toList = number ++ ['p', 'x']) (hx : Numeral number x)
    (hpixels : x.digits = N * 10 ^ x.places) (hN : N ≤ 2 ^ 53) (hW : W ≤ 2 ^ 53) (hpos : 0 < S)
    (hS : S ≤ 2 ^ 53) (h : N * W ≤ 2 ^ 50) :
    let length : ℚ := N * W / S
    ∃ reply, resolve s (.ofInt W) (some (.ofInt S)) = .ok reply ∧
      (Int.fract length ≠ 1 / 2 → reply.value.toInt = round length) ∧
      (Int.fract length = 1 / 2 → reply.value.toInt = ⌊length⌋ ∨ reply.value.toInt = ⌈length⌉) := by
  intro length
  have hlarge {n : Nat} (hn : n ≤ 2 ^ 53) : n ≤ 2 ^ 64 := hn.trans (by norm_num)
  have hspells : Term.Spells (number ++ ['p', 'x']) (.pixels (.ofInt N)) :=
    .pixels hx (Binary64.isClosestTo_ofInt hpixels (hlarge hN))
  refine ⟨_, resolve_of_spells hs hspells _ _, ?_⟩
  have hscale := pixelScale_of_usable (.ofInt W) (usable_ofInt hpos (hlarge hS))
  have hlength : length = ((W * N : Nat) : ℚ) / S := by
    rw [Nat.mul_comm, Nat.cast_mul]
  have hhalf : HalfUp (W * N) S ((2 * (W * N) + S) / (2 * S)) := (Binary64.halfUp_iff hpos).2 rfl
  have hround := round_div_of_halfUp hhalf hpos
  obtain ⟨hoff, hnear⟩ :=
    Binary64.toInt_round_mul_quotient hW hN hpos hS ((Nat.mul_comm W N).trans_le h) hhalf
  rw [value_evaluate, hscale, value, Term.value, Option.elim_some, hlength]
  generalize (Binary64.ofInt N * (.ofInt W / .ofInt S)).round.toInt64.toInt = pixels at *
  constructor
  · intro hfract
    rw [hround]
    apply hoff
    intro hmiddle
    exact hfract (fract_div_of_middle hmiddle hpos)
  · intro hfract
    have hceil := round_eq_ceil_of_half hfract
    have hfloor := floor_add_one_eq_ceil_of_half hfract
    omega

theorem resolve_scaled_pixels_below_half :
    33554433 * 33554431 ≤ 2 ^ 50 ∧ ∃ reply,
      resolve "33554433px" (.ofInt (33554431 : Nat)) (some (.ofInt (2251799813685247 : Nat))) =
        .ok reply ∧ reply.value.toInt = 0 := by
  have hs : Text.withoutBlanks "33554433px".toList = Nat.toDigits 10 33554433 ++ ['p', 'x'] := by
    decide +kernel
  have hx : Numeral (Nat.toDigits 10 33554433) ⟨33554433, 0⟩ := by
    rw [← Decimal.ofChars?_eq_some_iff]
    decide +kernel
  obtain ⟨reply, hreply, hvalue, -⟩ :=
    resolve_scaled_pixels_eq_nearest (N := 33554433) (W := 33554431) (S := 2251799813685247) hs hx
      (by norm_num) (by norm_num) (by norm_num) (by norm_num) (by norm_num) (by norm_num)
  have hfloor : ⌊((33554433 : Nat) * (33554431 : Nat) / (2251799813685247 : Nat) : ℚ)⌋ = 0 := by
    rw [Int.floor_eq_zero_iff]
    constructor <;> norm_num
  have hfract : Int.fract ((33554433 : Nat) * (33554431 : Nat) / (2251799813685247 : Nat) : ℚ) ≠
      1 / 2 := by
    rw [Int.fract, hfloor]
    norm_num
  refine ⟨by norm_num, reply, hreply, (hvalue hfract).trans ?_⟩
  rw [round_eq, Int.floor_eq_zero_iff]
  constructor <;> norm_num

end Expr

end WindowLayout
