import Mathlib
import WindowLayout.Proofs.Decimal.Normal

namespace WindowLayout.Decimal

/-- The digits of a text without the zeros around them, wherever the point is. -/
def significant (text : List Char) : List Char :=
  ((text.filter Char.isDigit).dropWhile (· = '0')).rdropWhile (· = '0')

def AtMostDigits (count n : Nat) : Prop := ∃ m < 10 ^ count, ∃ zeros, n = m * 10 ^ zeros

section

variable {count n : Nat}

theorem atMostDigits_of_lt (h : n < 10 ^ count) : AtMostDigits count n :=
  ⟨n, h, 0, by rw [pow_zero, Nat.mul_one]⟩

theorem atMostDigits_zero_iff : AtMostDigits 0 n ↔ n = 0 := by
  constructor
  · rintro ⟨m, hm, zeros, rfl⟩
    rw [pow_zero, Nat.lt_one_iff] at hm
    rw [hm, Nat.zero_mul]
  · rintro rfl
    exact atMostDigits_of_lt (by positivity)

theorem AtMostDigits.mul_pow (h : AtMostDigits count n) (k : Nat) :
    AtMostDigits count (n * 10 ^ k) := by
  obtain ⟨m, hm, zeros, rfl⟩ := h
  exact ⟨m, hm, zeros + k, by rw [Nat.mul_assoc, ← pow_add]⟩

theorem AtMostDigits.of_mul_ten (h : AtMostDigits count (n * 10)) : AtMostDigits count n := by
  obtain ⟨m, hm, zeros, hn⟩ := h
  cases zeros with
  | zero =>
    apply atMostDigits_of_lt
    omega
  | succ zeros =>
    refine ⟨m, hm, zeros, Nat.eq_of_mul_eq_mul_right (by norm_num : 0 < 10) ?_⟩
    rw [hn, pow_succ, Nat.mul_assoc]

theorem AtMostDigits.of_mul_pow {k : Nat} (h : AtMostDigits count (n * 10 ^ k)) :
    AtMostDigits count n := by
  induction k with
  | zero => rwa [pow_zero, Nat.mul_one] at h
  | succ k ih =>
    apply ih
    rw [pow_succ, ← Nat.mul_assoc] at h
    exact h.of_mul_ten

theorem AtMostDigits.reduceFrom (h : AtMostDigits count n) (places : Nat) :
    AtMostDigits count (reduceFrom n places).digits := by
  apply AtMostDigits.of_mul_pow (k := places)
  rw [digits_reduceFrom]
  exact h.mul_pow _

theorem AtMostDigits.lt_of_not_dvd (h : AtMostDigits count n) (hn : ¬10 ∣ n) : n < 10 ^ count := by
  obtain ⟨m, hm, zeros, rfl⟩ := h
  cases zeros with
  | zero => rwa [pow_zero, Nat.mul_one]
  | succ zeros => exact absurd (Dvd.intro_left (m * 10 ^ zeros) (by rw [Nat.mul_assoc, pow_succ])) hn

theorem toDigits_eq_concat (n : Nat) :
    ∃ front, Nat.toDigits 10 n = front ++ [(n % 10).digitChar] := by
  have hlast : n % 10 < 10 := Nat.mod_lt n (by norm_num)
  rcases Nat.eq_zero_or_pos (n / 10) with hzero | hpos
  · have hmod : n % 10 = n := by omega
    exact ⟨[], by rw [hmod, Nat.toDigits_of_lt_base (by omega), List.nil_append]⟩
  · have hn : 10 * (n / 10) + n % 10 = n := Nat.div_add_mod n 10
    have hdigits := Nat.toDigits_append_toDigits (by norm_num) hpos hlast
    rw [hn, Nat.toDigits_of_lt_base hlast] at hdigits
    exact ⟨_, hdigits.symm⟩

theorem length_toDigits_le_iff_lt (hpos : 0 < n) :
    (Nat.toDigits 10 n).length ≤ count ↔ n < 10 ^ count := by
  rcases Nat.eq_zero_or_pos count with rfl | hcount
  · have hlength := List.length_pos_iff.2 (Nat.toDigits_ne_nil (n := n) (b := 10))
    exact iff_of_false (by omega) (by omega)
  · exact Nat.length_toDigits_le_iff (by norm_num) hcount

theorem length_rdropWhile_toDigits_le_iff (hpos : 0 < n) :
    ((Nat.toDigits 10 n).rdropWhile (· = '0')).length ≤ count ↔ AtMostDigits count n := by
  induction n using Nat.strong_induction_on with
  | _ n ih =>
    by_cases hdvd : 10 ∣ n
    · -- A zero at the end is dropped, and what is left has as many significant digits.
      obtain ⟨k, rfl⟩ := hdvd
      have hk : 0 < k := by omega
      have hdigits := Nat.toDigits_append_toDigits (b := 10) (by norm_num) hk (show 0 < 10 by norm_num)
      rw [Nat.add_zero] at hdigits
      rw [← hdigits, Nat.toDigits_zero, List.rdropWhile_concat_pos _ _ _ (by decide),
        ih k (by omega) hk, Nat.mul_comm]
      exact ⟨fun h => h.mul_pow 1, AtMostDigits.of_mul_ten⟩
    · obtain ⟨front, hfront⟩ := toDigits_eq_concat n
      have hlast : (n % 10).digitChar ≠ '0' := by
        simpa using fun hzero => hdvd (Nat.dvd_of_mod_eq_zero hzero)
      have hkept : (Nat.toDigits 10 n).rdropWhile (· = '0') = Nat.toDigits 10 n := by
        rw [hfront]
        exact List.rdropWhile_concat_neg _ _ _ (by simpa using hlast)
      rw [hkept, length_toDigits_le_iff_lt hpos]
      exact ⟨atMostDigits_of_lt, fun h => h.lt_of_not_dvd hdvd⟩

end

section

variable {digits text : List Char} {x : Decimal} {count : Nat}

theorem dropWhile_zeros (h : ∀ c ∈ digits, c.isDigit) (hpos : 0 < Nat.ofDigitChars 10 digits 0) :
    digits.dropWhile (· = '0') = Nat.toDigits 10 (Nat.ofDigitChars 10 digits 0) := by
  have hvalue := toDigits_ofDigitChars h
  cases hrest : digits.dropWhile (· = '0') with
  | cons c rest => rw [hvalue, normalDigits_of_cons hrest]
  | nil =>
    rw [normalDigits_of_nil hrest] at hvalue
    have hzero := Nat.ofDigitChars_ten_toDigits (n := Nat.ofDigitChars 10 digits 0)
    rw [hvalue] at hzero
    exact absurd hzero hpos.ne

theorem dropWhile_zeros_of_zero (h : ∀ c ∈ digits, c.isDigit)
    (hzero : Nat.ofDigitChars 10 digits 0 = 0) : digits.dropWhile (· = '0') = [] := by
  have hvalue := toDigits_ofDigitChars h
  rw [hzero, Nat.toDigits_zero] at hvalue
  by_contra hne
  have hhead := List.head_dropWhile_not (· = '0') hne
  obtain ⟨c, rest, hrest⟩ := List.exists_cons_of_ne_nil hne
  rw [normalDigits_of_cons hrest] at hvalue
  obtain ⟨rfl, -⟩ := List.cons.inj hvalue
  simp [hrest] at hhead

theorem Numeral.filter_isDigit (h : Numeral text x) :
    x.digits = Nat.ofDigitChars 10 (text.filter Char.isDigit) 0 := by
  cases h with
  | whole _ hdigits => rw [List.filter_eq_self.2 hdigits]
  | pointed _ hwhole hfraction =>
    rw [List.filter_append, List.filter_cons_of_neg (by decide), List.filter_eq_self.2 hwhole,
      List.filter_eq_self.2 hfraction]

theorem Numeral.length_significant_le_iff (h : Numeral text x) :
    (significant text).length ≤ count ↔ AtMostDigits count x.digits := by
  have hdigits : ∀ c ∈ text.filter Char.isDigit, c.isDigit := fun c hc => List.of_mem_filter hc
  rw [h.filter_isDigit, significant]
  rcases Nat.eq_zero_or_pos (Nat.ofDigitChars 10 (text.filter Char.isDigit) 0) with hzero | hpos
  · rw [dropWhile_zeros_of_zero hdigits hzero, hzero]
    exact iff_of_true (Nat.zero_le _) (atMostDigits_of_lt (by positivity))
  · rw [dropWhile_zeros hdigits hpos]
    exact length_rdropWhile_toDigits_le_iff hpos

end

end WindowLayout.Decimal
