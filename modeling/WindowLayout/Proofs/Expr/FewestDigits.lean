import Mathlib
import WindowLayout.Proofs.Binary64.FewestDigits
import WindowLayout.Proofs.Expr.Canonical
import WindowLayout.Proofs.Expr.ShortPercentage

/-! A percentage is written with the fewest significant digits that give its ratio, unless another
number gives the ratio too and has fewer. -/

namespace WindowLayout

open Decimal (AtMostDigits Numeral atMostDigits_of_lt significant)

namespace Binary64

def spacing (rank : Nat) : Nat := 2 ^ (rank / 2 ^ 52 - 1)

theorem spacing_pos (rank : Nat) : 0 < spacing rank := Nat.two_pow_pos _

structure Near (n m : Nat) : Prop where
  le : 2 ^ 50 * n ≤ (2 ^ 50 + 1) * m
  ge : 2 ^ 50 * m ≤ (2 ^ 50 + 1) * n

namespace Near

variable {n m k : Nat}

theorem symm (h : Near n m) : Near m n := ⟨h.ge, h.le⟩

theorem of_mul_right (h : Near (n * k) (m * k)) (hk : 0 < k) : Near n m := by
  obtain ⟨hle, hge⟩ := h
  rw [← Nat.mul_assoc, ← Nat.mul_assoc] at hle hge
  exact ⟨Nat.le_of_mul_le_mul_right hle hk, Nat.le_of_mul_le_mul_right hge hk⟩

theorem eq_of_lt (h : Near n m) (hn : n < 10 ^ 15) : n = m := by
  obtain ⟨hle, hge⟩ := h
  omega

theorem eq_of_mul_pow {i j : Nat} (h : Near (n * 10 ^ i) (m * 10 ^ j)) (hn : n < 10 ^ 15)
    (hm : m < 10 ^ 15) : n * 10 ^ i = m * 10 ^ j := by
  wlog hij : i ≤ j generalizing n m i j
  · exact (this h.symm hm hn (Nat.le_of_not_le hij)).symm
  -- In steps of the finer one both are whole numbers, and less than one step apart.
  obtain ⟨k, rfl⟩ := Nat.exists_eq_add_of_le hij
  have hpow : m * 10 ^ (i + k) = m * 10 ^ k * 10 ^ i := by ring
  rw [hpow] at h ⊢
  rw [(h.of_mul_right (by positivity)).eq_of_lt hn]

end Near

section

variable {n d i k other : Nat}

theorem half_spacing_nearest (n : Nat) (hd : 0 < d) :
    2 * n ≤ 2 * (units (nearest n d) * d) + spacing (nearest n d) * d ∧
      2 * (units (nearest n d) * d) ≤ 2 * n + spacing (nearest n d) * d := by
  obtain ⟨b, m, h, heq⟩ := exists_rounding n hd
  have hunits : units (b * 2 ^ 52 + m) * d = m * (d * 2 ^ b) := by
    rw [h.units_eq hd]
    ring
  have hspacing : d * 2 ^ b ≤ spacing (b * 2 ^ 52 + m) * d := by
    rw [Nat.mul_comm]
    apply Nat.mul_le_mul_right
    rcases h.significand hd with rfl | hm
    · exact spacing_pos _
    · exact Nat.pow_le_pow_right Nat.two_pos (by omega)
  have habove := h.whole.above
  have hbelow := h.whole.below
  rw [heq, hunits]
  constructor <;> omega

/-- A hundred is 64 times 25 sixteenths. So from a power of two to 25 sixteenths of it a spacing is
128 spacings of the hundredth part. -/
theorem spacing_nearest_hundred (hi : 8 * 2 ^ 52 ≤ i) (hlt : i % 2 ^ 52 < 9 * 2 ^ 48) :
    128 * spacing (nearest (units i) 100) ≤ spacing i := by
  obtain ⟨-, hbelow⟩ := half_spacing_nearest (units i) (show 0 < 100 by decide)
  generalize nearest (units i) 100 = j at hbelow ⊢
  obtain ⟨b, m, rfl, hm, hnormal⟩ := exists_binade i
  obtain ⟨c, l, rfl, hl, hnormal'⟩ := exists_binade j
  have hb : spacing (b * 2 ^ 52 + m) = 2 ^ b := by
    rw [spacing, show (b * 2 ^ 52 + m) / 2 ^ 52 - 1 = b by omega]
  have hc : spacing (c * 2 ^ 52 + l) = 2 ^ c := by
    rw [spacing, show (c * 2 ^ 52 + l) / 2 ^ 52 - 1 = c by omega]
  have hseven : 128 * 2 ^ c = 2 ^ (c + 7) := by ring
  rw [units_add hm.le hnormal, units_add hl.le hnormal', hc] at hbelow
  rw [hb, hc, hseven]
  apply Nat.pow_le_pow_right Nat.two_pos
  -- Only six binades down the quotient would be less than `2 ^ 52` of its spacings.
  by_contra hgt
  have hc : c ≠ 0 := by omega
  have hpow : 2 ^ b ≤ 2 ^ (c + 6) := Nat.pow_le_pow_right Nat.two_pos (by omega)
  have hsix : 2 ^ (c + 6) = 64 * 2 ^ c := by ring
  have hleast : 2 ^ 52 * 2 ^ c ≤ l * 2 ^ c := Nat.mul_le_mul_right _ (hnormal'.resolve_left hc)
  have hmost : m * 2 ^ b ≤ (25 * 2 ^ 48 - 1) * 2 ^ b := Nat.mul_le_mul_right _ (by omega)
  have hpos := Nat.two_pow_pos c
  omega

theorem nearest_hundred_lt_succ (hi : 8 * 2 ^ 52 ≤ i) (hlt : i % 2 ^ 52 < 9 * 2 ^ 48) :
    nearest (units i) 100 < nearest (units (i + 1)) 100 := by
  by_contra hge
  have heq : nearest (units (i + 1)) 100 = nearest (units i) 100 :=
    Nat.le_antisymm (Nat.le_of_not_lt hge) (nearest_units_hundred_mono (Nat.le_succ i))
  obtain ⟨-, hbelow⟩ := half_spacing_nearest (units i) (show 0 < 100 by decide)
  obtain ⟨habove, -⟩ := half_spacing_nearest (units (i + 1)) (show 0 < 100 by decide)
  have hspacing := spacing_nearest_hundred hi hlt
  have hpos := spacing_pos (nearest (units i) 100)
  rw [heq, units_succ, ← spacing] at habove
  omega

theorem eq_of_nearest_hundred (hk : 8 * 2 ^ 52 ≤ k) (hpos : 0 < k % 2 ^ 52)
    (hlt : k % 2 ^ 52 < 9 * 2 ^ 48) (h : nearest (units other) 100 = nearest (units k) 100) :
    other = k := by
  rcases Nat.lt_trichotomy other k with hless | heq | hgreater
  · obtain ⟨i, rfl⟩ : ∃ i, k = i + 1 := ⟨k - 1, by omega⟩
    have hmono := nearest_units_hundred_mono (Nat.le_of_lt_succ hless)
    have hnext := nearest_hundred_lt_succ (i := i) (by omega) (by omega)
    omega
  · exact heq
  · have hmono := nearest_units_hundred_mono (j := k + 1) hgreater
    have hnext := nearest_hundred_lt_succ hk hlt
    omega

theorem normal_of_units_nearest (hd : 0 < d) (h : 2 ^ 53 ≤ units (nearest n d)) :
    2 ^ 52 * d ≤ n := by
  have hleast : units (2 ^ 52) = 2 ^ 52 := units_of_le (by norm_num)
  by_contra hlt
  have hle : nearest n d ≤ nearest (units (2 ^ 52)) 1 := by
    apply nearest_mono hd Nat.one_pos
    rw [hleast]
    omega
  have hunits := units_strictMono.monotone hle
  rw [nearest_units, hleast] at hunits
  omega

theorem near_of_same_hundredth {n' d' : Nat} (hd : 0 < d) (hd' : 0 < d')
    (hlarge : 2 ^ 60 ≤ units (nearest n d))
    (h : nearest (units (nearest n' d')) 100 = nearest (units (nearest n d)) 100) :
    Near (n * d') (n' * d) := by
  have hp : 2 ^ 53 ≤ units (nearest n d) := by omega
  have hfirst := close_nearest hd (.inr (normal_of_units_nearest hd hp))
  generalize nearest n d = p at hlarge h hfirst
  have hratio := close_nearest (n := units p) (show 0 < 100 by decide) (.inr (by omega))
  have hj : 2 ^ 53 ≤ units (nearest (units p) 100) := by
    have hbelow := hratio.below
    omega
  generalize nearest (units p) 100 = j at h hratio hj
  have hq : 2 ^ 53 ≤ units (nearest n' d') := by
    apply hj.trans
    rw [← h]
    exact units_strictMono.monotone (nearest_units_hundred_le _)
  have hother := close_nearest hd' (.inr (normal_of_units_nearest hd' hq))
  generalize nearest n' d' = q at h hother
  rw [← h] at hj
  have hratio' := close_nearest (n := units q) (show 0 < 100 by decide)
    (.inr (normal_of_units_nearest (by decide) hj))
  rw [h] at hratio'
  -- Over the common denominator the four roundings lead from one number to the other.
  obtain ⟨hn, hn'⟩ := hfirst.mul_right d'
  obtain ⟨hp, hp'⟩ := hratio.mul_right (d * d')
  obtain ⟨hq, hq'⟩ := hratio'.mul_right (d * d')
  obtain ⟨ho, ho'⟩ := hother.mul_right d
  rw [Nat.mul_assoc (units p)] at hn hn'
  rw [Nat.mul_assoc (units q), Nat.mul_comm d' d] at ho ho'
  generalize units p * (d * d') = p' at hn hn' hp hp'
  generalize units q * (d * d') = q' at ho ho' hq hq'
  generalize units j * 100 * (d * d') = j' at hp hp' hq hq'
  constructor <;> omega

end

section

variable {x y : Decimal} {count : Nat}

theorem near_of_same_ratio (hx : x.IsShort) (hpos : 0 < x.digits)
    (h : nearest (units (nearest (y.digits * unitsInOne) (10 ^ y.places))) 100 =
      nearest (units (nearest (x.digits * unitsInOne) (10 ^ x.places))) 100) :
    Near (x.digits * 10 ^ y.places) (y.digits * 10 ^ x.places) := by
  have hone : 2 ^ 200 ≤ unitsInOne := two_pow_le_unitsInOne (by decide)
  have hplaces : 10 ^ x.places ≤ 10 ^ 9 := Nat.pow_le_pow_right (by norm_num) hx.places_le
  have hpow (n : Nat) : 0 < 10 ^ n := by positivity
  have hlarge : 2 ^ 60 ≤ units (nearest (x.digits * unitsInOne) (10 ^ x.places)) := by
    have hbelow := (close_nearest (hpow x.places)
      (normal_mul_unitsInOne x.digits (hplaces.trans (by norm_num)))).below
    have hdigits := Nat.mul_le_mul_right unitsInOne hpos
    have hscale := Nat.mul_le_mul_left (units (nearest (x.digits * unitsInOne) (10 ^ x.places)))
      hplaces
    omega
  have hnear := near_of_same_hundredth (hpow x.places) (hpow y.places) hlarge h
  have hone := unitsInOne_pos
  generalize unitsInOne = one at hnear hone
  rw [Nat.mul_right_comm, Nat.mul_right_comm y.digits] at hnear
  exact hnear.of_mul_right hone

theorem Near.atMostDigits (h : Near (x.digits * 10 ^ y.places) (y.digits * 10 ^ x.places))
    (hx : x.digits < 10 ^ 15) (hy : AtMostDigits count y.digits) :
    AtMostDigits count x.digits := by
  rcases Nat.lt_or_ge count 15 with hcount | hcount
  · have heq : x.digits * 10 ^ y.places = y.digits * 10 ^ x.places := by
      obtain ⟨m, hm, zeros, hdigits⟩ := hy
      rw [hdigits, Nat.mul_assoc, ← pow_add] at h ⊢
      exact h.eq_of_mul_pow hx (hm.trans_le (Nat.pow_le_pow_right (by norm_num) hcount.le))
    apply AtMostDigits.of_mul_pow (k := y.places)
    rw [heq]
    exact hy.mul_pow _
  · exact atMostDigits_of_lt (hx.trans_le (Nat.pow_le_pow_right (by norm_num) hcount))

end

end Binary64

namespace Percentage

open Binary64

def IsOfShort (ratio : Binary64) : Prop :=
  ∃ (x : Decimal) (p : Binary64), x.IsShort ∧ IsClosestTo x p ∧ p / 100 = ratio

/-- From a power of two to 25 sixteenths of it no two numbers have the same ratio, as long as the
ratio is not near zero. -/
def HasOwnRatio (p : Binary64) : Prop :=
  ∃ rank : Fin magnitudes, p = .finite false rank ∧
    8 * 2 ^ 52 ≤ rank.val ∧ 0 < rank.val % 2 ^ 52 ∧ rank.val % 2 ^ 52 < 9 * 2 ^ 48

section

variable {p q : Binary64} {x y : Decimal} {count : Nat}

theorem nearest_hundred_eq_of_div {rank other : Fin magnitudes}
    (h : Binary64.finite false other / 100 = .finite false rank / 100) :
    nearest (units other) 100 = nearest (units rank) 100 :=
  div_hundred_eq_iff.1 (h.trans (div_hundred_eq false rank))

theorem HasOwnRatio.eq_of_div (h : HasOwnRatio p) (hy : IsClosestTo y q) (heq : q / 100 = p / 100) :
    q = p := by
  obtain ⟨-, other, rfl, -⟩ := hy
  obtain ⟨rank, rfl, hlarge, hpos, hlt⟩ := h
  rw [Fin.ext (eq_of_nearest_hundred hlarge hpos hlt (nearest_hundred_eq_of_div heq))]

theorem div_eq_of_equal (hx : IsClosestTo x p) (hy : IsClosestTo y q)
    (h : (q / 100).equal (p / 100)) : q / 100 = p / 100 := by
  obtain ⟨-, rank, rfl, -⟩ := hx
  obtain ⟨-, other, rfl, -⟩ := hy
  rw [div_hundred_eq, div_hundred_eq] at h ⊢
  rcases eq_of_equal_finite h with heq | ⟨-, hzero⟩
  · exact heq.symm
  · cases hzero

theorem ofRatio_div_eq (hx : IsClosestTo x p) : ofRatio (p / 100) / 100 = p / 100 := by
  obtain ⟨-, rank, rfl, -⟩ := hx
  obtain ⟨best, hbest, hdiv⟩ := exists_ofRatio_eq (div_hundred_eq false rank)
  rw [div_hundred_eq false rank, hbest, hdiv]

theorem atMostDigits_short (hshort : x.IsShort) (hx : IsClosestTo x p) (hy : IsClosestTo y q)
    (heq : q / 100 = p / 100) (h : AtMostDigits count y.digits) : AtMostDigits count x.digits := by
  obtain ⟨-, rank, rfl, hrank⟩ := hx
  obtain ⟨-, other, rfl, hother⟩ := hy
  rw [isClosest_iff (by positivity)] at hrank hother
  have hsame := nearest_hundred_eq_of_div heq
  rw [hrank, hother] at hsame
  rcases Nat.eq_zero_or_pos x.digits with hzero | hpos
  · rw [hzero]
    exact atMostDigits_of_lt (by positivity)
  · apply (near_of_same_ratio hshort hpos hsame).atMostDigits _ h
    calc
      x.digits < 10 ^ 6 * 10 ^ x.places := hshort.digits_lt
      _ ≤ 10 ^ 6 * 10 ^ 9 :=
        Nat.mul_le_mul_left _ (Nat.pow_le_pow_right (by norm_num) hshort.places_le)
      _ = 10 ^ 15 := by norm_num

theorem length_significant_toChars_le (hx : IsClosestTo x p) (h : AtMostDigits count x.digits) :
    (significant p.toChars).length ≤ count := by
  obtain ⟨-, rank, rfl, hrank⟩ := hx
  rw [isClosest_iff (by positivity)] at hrank
  rw [toChars_finite_false, (Decimal.numeral_toChars _).length_significant_le_iff]
  exact atMostDigits_shortest hrank.symm h

end

end Percentage

namespace Term

open Binary64

section

variable {number other : List Char} {r r' : Binary64}

theorem spells_percentage_iff :
    Spells (number ++ ['%']) (.percentage r) ↔
      ∃ x p, Numeral number x ∧ IsClosestTo x p ∧ p / 100 = r := by
  constructor
  · intro h
    generalize htext : number ++ ['%'] = text at h
    cases h with
    | percentage hx hp =>
      obtain rfl := List.append_cancel_right htext
      exact ⟨_, _, hx, hp, rfl⟩
  · rintro ⟨x, p, hx, hp, rfl⟩
    exact .percentage hx hp

theorem significant_percentage (r : Binary64) :
    significant (Term.percentage r).toChars = significant (Percentage.ofRatio r).toChars := by
  rw [significant, significant, toChars, List.filter_append]
  simp

/-- The number written for a percentage has no more significant digits than any other for its ratio,
if a decimal below a million with nine decimals at most gives the ratio, or if the number written is
the only one that does. In any case it has no more than any other that is read as the same number. -/
theorem toChars_percentage_fewest_digits (h : parse (number ++ ['%']) = .ok (.percentage r))
    (hother : parse (other ++ ['%']) = .ok (.percentage r')) (hratio : r'.equal r)
    (hcase : Percentage.IsOfShort r ∨ Percentage.HasOwnRatio (Percentage.ofRatio r) ∨
      number? other = some (Percentage.ofRatio r)) :
    (significant (Term.percentage r).toChars).length ≤ (significant other).length := by
  rw [parse_eq_ok_iff, spells_percentage_iff] at h hother
  obtain ⟨x, p, -, hp, rfl⟩ := h
  obtain ⟨y, q, hy, hq, rfl⟩ := hother
  have heq := Percentage.div_eq_of_equal hp hq hratio
  have hdigits := hy.length_significant_le_iff.1 le_rfl
  rw [significant_percentage]
  rcases hcase with ⟨z, s, hshort, hs, hdiv⟩ | hown | hread
  · rw [← hdiv] at heq ⊢
    rw [Percentage.ofRatio_short hshort hs]
    exact Percentage.length_significant_toChars_le hs
      (Percentage.atMostDigits_short hshort hs hq heq hdigits)
  · rw [← Percentage.ofRatio_div_eq hp] at heq
    rw [← hown.eq_of_div hq heq]
    exact Percentage.length_significant_toChars_le hq hdigits
  · obtain ⟨z, hz, hread⟩ := number?_eq_some_iff.1 hread
    exact Percentage.length_significant_toChars_le hread (hz.length_significant_le_iff.1 le_rfl)

end

theorem toChars_percentage_fewest_digits_same_ratio :
    let r : Binary64 := ofDecimal ⟨14, 0⟩ / 100
    let r' : Binary64 := ofDecimal ⟨123456789, 1⟩ / 100
    parse ("14".toList ++ ['%']) = .ok (.percentage r) ∧
      parse ("14.000000000000002".toList ++ ['%']) = .ok (.percentage r) ∧
      (significant (Term.percentage r).toChars).length ≤
        (significant "14.000000000000002".toList).length ∧
      parse ("12345678.9".toList ++ ['%']) = .ok (.percentage r') ∧
      (significant (Term.percentage r').toChars).length ≤
        (significant "0012345678.900".toList).length := by
  intro r r'
  have h : parse ("14".toList ++ ['%']) = .ok (.percentage r) := by decide +kernel
  have hnext : parse ("14.000000000000002".toList ++ ['%']) = .ok (.percentage r) := by
    decide +kernel
  have h' : parse ("12345678.9".toList ++ ['%']) = .ok (.percentage r') := by decide +kernel
  have hpadded : parse ("0012345678.900".toList ++ ['%']) = .ok (.percentage r') := by
    decide +kernel
  have hshort : Percentage.IsOfShort r :=
    ⟨⟨14, 0⟩, ofDecimal ⟨14, 0⟩, by decide, isClosestTo_iff.2 ⟨rfl, by decide +kernel⟩, rfl⟩
  have hown : Percentage.HasOwnRatio (Percentage.ofRatio r') :=
    ⟨⟨4712889646492470477, by decide⟩, by decide +kernel, by decide, by decide, by decide⟩
  exact ⟨h, hnext, toChars_percentage_fewest_digits h hnext (by decide +kernel) (.inl hshort), h',
    toChars_percentage_fewest_digits h' hpadded (by decide +kernel) (.inr (.inl hown))⟩

theorem toChars_percentage_not_fewest_digits :
    ∃ r, parse "3276805%".toList = .ok (.percentage r) ∧
      (Term.percentage r).toChars = "3276805.0000000005%".toList ∧
      (significant "3276805".toList).length = 7 ∧
      (significant (Term.percentage r).toChars).length = 17 :=
  ⟨ofDecimal ⟨3276805, 0⟩ / 100, by decide +kernel⟩

end Term

end WindowLayout
