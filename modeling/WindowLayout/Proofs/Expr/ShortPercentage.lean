import Mathlib
import WindowLayout.Proofs.Binary64.FifteenDigits
import WindowLayout.Proofs.Expr.Percentage

namespace WindowLayout

structure Decimal.IsShort (x : Decimal) : Prop where
  places_le : x.places ≤ 9
  digits_lt : x.digits < 10 ^ 6 * 10 ^ x.places

instance (x : Decimal) : Decidable x.IsShort :=
  decidable_of_iff (x.places ≤ 9 ∧ x.digits < 10 ^ 6 * 10 ^ x.places)
    ⟨fun h => ⟨h.1, h.2⟩, fun h => ⟨h.places_le, h.digits_lt⟩⟩

namespace Binary64

def hundredfold (rank : Nat) : Nat := nearest (units (nearest (units rank) 100) * 100) 1

theorem halfUp_hundredfold {n : Nat} (hn : n < 10 ^ 15) :
    let rank := hundredfold (nearest (n * unitsInOne) (10 ^ 9))
    units rank * 10 ^ 9 < 2 ^ 64 * unitsInOne ∧
      HalfUp (units (nearest (units rank * 10 ^ 9) 1)) unitsInOne n := by
  have hone := unitsInOne_pos
  intro rank
  rcases Nat.eq_zero_or_pos n with rfl | hpos
  · have hrank : rank = 0 := by
      simp only [rank, hundredfold, Nat.zero_mul, units_zero, nearest_zero, Nat.pow_pos,
        Nat.succ_pos]
    rw [hrank, units_zero, Nat.zero_mul, nearest_zero Nat.one_pos, units_zero]
    constructor
    · omega
    · constructor <;> omega
  · have hlarge := (normal_mul_unitsInOne n (d := 2 ^ 64) le_rfl).resolve_left
      (Nat.mul_pos hpos hone).ne'
    have hbound := Nat.mul_le_mul_right unitsInOne hn
    rw [Nat.succ_mul] at hbound
    simp only [rank, hundredfold]
    obtain ⟨hp, hp'⟩ := close_nearest (n := n * unitsInOne) (d := 10 ^ 9) (by norm_num)
      (.inr (by omega))
    generalize nearest (n * unitsInOne) (10 ^ 9) = p at hp hp' ⊢
    obtain ⟨hj, hj'⟩ := close_nearest (n := units p) (d := 100) (by norm_num) (.inr (by omega))
    generalize nearest (units p) 100 = j at hj hj' ⊢
    obtain ⟨hq, hq'⟩ := close_nearest (n := units j * 100) Nat.one_pos (.inr (by omega))
    generalize nearest (units j * 100) 1 = q at hq hq' ⊢
    obtain ⟨ht, ht'⟩ := close_nearest (n := units q * 10 ^ 9) Nat.one_pos (.inr (by omega))
    generalize units (nearest (units q * 10 ^ 9) 1) = t at ht ht' ⊢
    -- Four roundings of less than `10 ^ 15` billionths together move by less than a half of one.
    constructor
    · omega
    · constructor <;> omega

theorem mul_billion (negative : Bool) (rank : Fin magnitudes) :
    .finite negative rank * 1000000000 = ofQuotient negative (units rank * 1000000000) 1 :=
  mul_ofInt (n := 1000000000) (by norm_num) negative rank

theorem div_billion (negative : Bool) (rank : Fin magnitudes) :
    .finite negative rank / 1000000000 = ofQuotient negative (units rank) 1000000000 :=
  div_ofInt (n := 1000000000) (by norm_num) (by norm_num) negative rank

theorem exists_billionths {x : Decimal} (hx : x.IsShort) :
    ∃ n < 10 ^ 15, nearest (x.digits * unitsInOne) (10 ^ x.places) =
      nearest (n * unitsInOne) (10 ^ 9) := by
  obtain ⟨k, hk⟩ := Nat.exists_eq_add_of_le hx.places_le
  have hten : 10 ^ 9 = 10 ^ x.places * 10 ^ k := by rw [hk, pow_add]
  refine ⟨x.digits * 10 ^ k, ?_, ?_⟩
  · calc
      x.digits * 10 ^ k < 10 ^ 6 * 10 ^ x.places * 10 ^ k :=
        Nat.mul_lt_mul_of_pos_right hx.digits_lt (by positivity)
      _ = 10 ^ 6 * 10 ^ 9 := by rw [Nat.mul_assoc, ← hten]
      _ = 10 ^ 15 := by norm_num
  · apply nearest_congr (by positivity) (by positivity)
    rw [hten]
    ring

theorem shortest_short {x : Decimal} (hx : x.IsShort) :
    shortest (nearest (x.digits * unitsInOne) (10 ^ x.places)) = x.reduce := by
  have hpow : 10 ^ x.places ≤ 10 ^ 9 := Nat.pow_le_pow_right (by norm_num) hx.places_le
  have hlt := hx.digits_lt
  apply shortest_nearest
  · exact hx.places_le.trans (by decide)
  · omega
  · have hnormal := normal_mul_unitsInOne x.digits (d := 2 * 10 ^ x.places) (by omega)
    rcases hnormal with hzero | hlarge
    · exact .inl ((Nat.mul_eq_zero.1 hzero).resolve_right unitsInOne_pos.ne')
    · right
      omega

theorem toChars_short {x : Decimal} {p : Binary64} (hx : x.IsShort) (hp : IsClosestTo x p) :
    p.toChars = x.reduce.toChars := by
  obtain ⟨-, rank, rfl, hclosest⟩ := hp
  rw [isClosest_iff (by positivity)] at hclosest
  rw [toChars, hclosest, shortest_short hx]
  exact List.nil_append _

end Binary64

namespace Percentage

open Binary64

theorem product_div_hundred {rank : Fin magnitudes} (h : hundredfold rank < magnitudes) :
    product (.finite false rank / 100) = .finite false ⟨hundredfold rank, h⟩ := by
  obtain ⟨_, hproduct⟩ := product_finite false ⟨nearest (units rank) 100,
    (nearest_units_hundred_le rank).trans_lt rank.isLt⟩
  have hle : hundredfold rank ≤ magnitudes - 1 := Nat.le_sub_one_of_lt h
  rw [div_hundred_eq, hproduct, Binary64.finite.injEq, Fin.ext_iff]
  exact ⟨rfl, Nat.min_eq_left hle⟩

theorem cleaned_div_hundred {rank : Fin magnitudes} {n : Nat} (hn : n < 10 ^ 15)
    (hrank : rank.val = nearest (n * unitsInOne) (10 ^ 9)) :
    cleaned (.finite false rank / 100) = .finite false rank := by
  obtain ⟨hlt, hhalf⟩ := halfUp_hundredfold hn
  have hbillion : 10 ^ 9 = 1000000000 := by norm_num
  rw [← hrank, hbillion] at hlt hhalf
  have hoverflow := hlt.trans (whole_lt_overflow le_rfl)
  have hproduct : hundredfold rank < magnitudes := by
    rw [← nearest_units (hundredfold rank), nearest_lt_magnitudes_iff Nat.one_pos]
    omega
  have hscaled : nearest (units (hundredfold rank) * 1000000000) 1 < magnitudes := by
    rw [nearest_lt_magnitudes_iff Nat.one_pos]
    omega
  obtain ⟨whole, hround, hunits⟩ := @exists_round_eq false ⟨_, hscaled⟩ _ hhalf
  rw [cleaned, product_div_hundred hproduct, mul_billion, ofQuotient, dif_pos hscaled, hround,
    div_billion, hunits]
  exact ofQuotient_eq_finite_iff.2 ⟨rfl, hbillion ▸ hrank⟩

theorem ofRatio_short {x : Decimal} {p : Binary64} (hx : x.IsShort) (hp : IsClosestTo x p) :
    ofRatio (p / 100) = p := by
  obtain ⟨-, rank, rfl, hclosest⟩ := hp
  rw [isClosest_iff (by positivity)] at hclosest
  obtain ⟨n, hn, hbillionths⟩ := exists_billionths hx
  have hcleaned := cleaned_div_hundred hn (hclosest.trans hbillionths)
  have hgives : gives (.finite false rank / 100) (.finite false rank) := by
    rw [gives_eq, Binary64.isFinite, Bool.true_and, div_hundred_eq]
    exact equal_self rfl
  have hfinite : (Binary64.finite false rank / 100).isFinite := by
    rw [div_hundred_eq]
    rfl
  rw [ofRatio, hcleaned, hgives, hfinite]
  rfl

end Percentage

end WindowLayout
