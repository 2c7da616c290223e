import Mathlib
import WindowLayout.Decimal

namespace WindowLayout.Decimal

inductive Numeral : List Char → Decimal → Prop
  | whole {digits : List Char} : digits ≠ [] → (∀ c ∈ digits, c.isDigit) →
    Numeral digits ⟨Nat.ofDigitChars 10 digits 0, 0⟩
  | pointed {whole fraction : List Char} : whole ++ fraction ≠ [] → (∀ c ∈ whole, c.isDigit) →
    (∀ c ∈ fraction, c.isDigit) →
    Numeral (whole ++ '.' :: fraction)
      ⟨Nat.ofDigitChars 10 (whole ++ fraction) 0, fraction.length⟩

theorem ofChars?_eq_some_iff {text : List Char} {x : Decimal} :
    ofChars? text = some x ↔ Numeral text x := by
  constructor
  · intro h
    have hwhole : ∀ c ∈ text.takeWhile Char.isDigit, c.isDigit :=
      List.all_eq_true.1 List.all_takeWhile
    have htext := List.takeWhile_append_dropWhile (p := Char.isDigit) (l := text)
    simp only [ofChars?] at h
    split at h
    · rename_i hrest
      rw [hrest, List.append_nil] at htext
      split at h
      · cases h
      · rename_i hne
        cases h
        rw [htext] at hne hwhole ⊢
        exact .whole hne hwhole
    · rename_i c fraction hrest
      split at h
      · rename_i hpoint
        obtain ⟨rfl, hfraction, hne⟩ := hpoint
        cases h
        rw [hrest] at htext
        have := Numeral.pointed hne hwhole (List.all_eq_true.1 hfraction)
        rwa [htext] at this
      · cases h
  · intro h
    cases h with
    | whole hne hdigits =>
      simp [ofChars?, List.takeWhile_eq_self_iff.2 hdigits, List.dropWhile_eq_nil_iff.2 hdigits,
        hne]
    | @pointed whole fraction hne hwhole hfraction =>
      have hboth : (∀ c ∈ fraction, c.isDigit) ∧ (whole = [] → fraction ≠ []) :=
        ⟨hfraction, by simpa using hne⟩
      rw [ofChars?, List.takeWhile_append_of_pos hwhole, List.dropWhile_append_of_pos hwhole]
      simpa using hboth

theorem Numeral.isDigit_or_point {text : List Char} {x : Decimal} (h : Numeral text x) :
    ∀ c ∈ text, c.isDigit ∨ c = '.' := by
  cases h with
  | whole _ hdigits =>
    intro c hc
    exact .inl (hdigits c hc)
  | pointed _ hwhole hfraction =>
    intro c hc
    rcases List.mem_append.1 hc with hc | hc
    · exact .inl (hwhole c hc)
    · rcases List.mem_cons.1 hc with rfl | hc
      · exact .inr rfl
      · exact .inl (hfraction c hc)

theorem isDigit_of_mem_toDigits (n : Nat) : ∀ c ∈ Nat.toDigits 10 n, c.isDigit := by
  intro c
  exact Nat.isDigit_of_mem_toDigits (by decide) (by decide)

theorem ofDigitChars_leftpad_toDigits {n places : Nat} (h : (Nat.toDigits 10 n).length ≤ places)
    (init : Nat) :
    Nat.ofDigitChars 10 ((Nat.toDigits 10 n).leftpad places '0') init = 10 ^ places * init + n := by
  rw [List.leftpad, Nat.ofDigitChars_append, Nat.ofDigitChars_replicate_zero,
    Nat.ofDigitChars_eq_ofDigitChars_zero, Nat.ofDigitChars_ten_toDigits, ← Nat.mul_assoc,
    ← Nat.pow_add, Nat.add_sub_cancel' h]

theorem numeral_toChars (x : Decimal) : Numeral x.toChars x := by
  obtain ⟨digits, places⟩ := x
  rcases Nat.eq_zero_or_pos places with rfl | hpos
  · have h := Numeral.whole (Nat.toDigits_ne_nil (n := digits) (b := 10)) (isDigit_of_mem_toDigits _)
    rw [Nat.ofDigitChars_ten_toDigits] at h
    simpa [toChars] using h
  · have hlength : (Nat.toDigits 10 (digits % 10 ^ places)).length ≤ places :=
      (Nat.length_toDigits_le_iff (by decide) hpos).2 (Nat.mod_lt _ (Nat.pow_pos (by decide)))
    have hpadded : ∀ c ∈ (Nat.toDigits 10 (digits % 10 ^ places)).leftpad places '0', c.isDigit := by
      intro c hc
      rcases List.mem_append.1 hc with hc | hc
      · rw [List.eq_of_mem_replicate hc]
        rfl
      · exact isDigit_of_mem_toDigits _ c hc
    have h := Numeral.pointed (by simp [Nat.toDigits_ne_nil])
      (isDigit_of_mem_toDigits (digits / 10 ^ places)) hpadded
    rw [Nat.ofDigitChars_append, Nat.ofDigitChars_ten_toDigits,
      ofDigitChars_leftpad_toDigits hlength, Nat.div_add_mod, List.length_leftpad,
      Nat.max_eq_left hlength] at h
    simpa [toChars, hpos.ne'] using h

theorem digits_reduceFrom (digits places : Nat) :
    (reduceFrom digits places).digits * 10 ^ places =
      digits * 10 ^ (reduceFrom digits places).places := by
  induction places generalizing digits with
  | zero => simp [reduceFrom]
  | succ places ih =>
    rw [reduceFrom]
    split
    · have hten : digits / 10 * 10 = digits := by omega
      calc
        (reduceFrom (digits / 10) places).digits * 10 ^ (places + 1) =
            (reduceFrom (digits / 10) places).digits * 10 ^ places * 10 := by ring
        _ = digits / 10 * 10 * 10 ^ (reduceFrom (digits / 10) places).places := by rw [ih]; ring
        _ = digits * 10 ^ (reduceFrom (digits / 10) places).places := by rw [hten]
    · rfl

theorem digits_reduce (x : Decimal) :
    x.reduce.digits * 10 ^ x.places = x.digits * 10 ^ x.reduce.places :=
  digits_reduceFrom x.digits x.places

theorem reduceFrom_zero (places : Nat) : reduceFrom 0 places = ⟨0, 0⟩ := by
  induction places with
  | zero => rfl
  | succ places ih => rw [reduceFrom, if_pos (Nat.zero_mod 10), Nat.zero_div, ih]

theorem reduceFrom_mul_pow (digits places k : Nat) :
    reduceFrom (digits * 10 ^ k) (places + k) = reduceFrom digits places := by
  induction k with
  | zero => rw [pow_zero, Nat.mul_one, Nat.add_zero]
  | succ k ih =>
    rw [← Nat.add_assoc, reduceFrom, pow_succ, ← Nat.mul_assoc, if_pos (Nat.mul_mod_left _ _),
      Nat.mul_div_cancel _ (by norm_num), ih]

end WindowLayout.Decimal
