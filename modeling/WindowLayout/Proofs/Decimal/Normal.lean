import Mathlib
import WindowLayout.Proofs.Decimal

namespace WindowLayout.Decimal

def normalDigits (digits : List Char) : List Char :=
  match digits.dropWhile (· = '0') with
  | [] => ['0']
  | rest => rest

/-- Normal digits before the point, no zeros at the end of the fraction, and no point without one. -/
def normalChars (text : List Char) : List Char :=
  let whole := text.takeWhile Char.isDigit
  let fraction := ((text.dropWhile Char.isDigit).drop 1).rdropWhile (· = '0')
  normalDigits whole ++ if fraction = [] then [] else '.' :: fraction

theorem exists_digitChar {c : Char} (h : c.isDigit) : ∃ d < 10, c = d.digitChar := by
  obtain ⟨hlow, hhigh⟩ := Char.isDigit_iff_toNat.1 h
  have hzero : '0'.toNat = 48 := rfl
  have hnine : '9'.toNat = 57 := rfl
  refine ⟨c.toNat - 48, by omega, Char.toNat_inj.1 ?_⟩
  rw [Nat.toNat_digitChar_of_lt_ten (by omega)]
  omega

theorem ofDigitChars_concat (digits : List Char) {d : Nat} (h : d < 10) :
    Nat.ofDigitChars 10 (digits ++ [d.digitChar]) 0 = 10 * Nat.ofDigitChars 10 digits 0 + d := by
  rw [Nat.ofDigitChars_append, Nat.ofDigitChars_cons_digitChar_of_lt_ten h, Nat.ofDigitChars_nil]

theorem normalDigits_of_cons {digits rest : List Char} {c : Char}
    (h : digits.dropWhile (· = '0') = c :: rest) : normalDigits digits = c :: rest := by
  rw [normalDigits, h]

theorem normalDigits_of_nil {digits : List Char} (h : digits.dropWhile (· = '0') = []) :
    normalDigits digits = ['0'] := by
  rw [normalDigits, h]

theorem toDigits_ofDigitChars_of_pos {digits : List Char} (h : ∀ c ∈ digits, c.isDigit) {init : Nat}
    (hpos : 0 < init) :
    Nat.toDigits 10 (Nat.ofDigitChars 10 digits init) = Nat.toDigits 10 init ++ digits := by
  induction digits generalizing init with
  | nil => exact (List.append_nil _).symm
  | cons c digits ih =>
    obtain ⟨hc, hdigits⟩ := List.forall_mem_cons.1 h
    obtain ⟨d, hd, rfl⟩ := exists_digitChar hc
    rw [Nat.ofDigitChars_cons_digitChar_of_lt_ten hd, ih hdigits (by omega),
      ← Nat.toDigits_append_toDigits (by norm_num) hpos hd, Nat.toDigits_of_lt_base hd,
      List.append_assoc, List.singleton_append]

theorem toDigits_ofDigitChars {digits : List Char} (h : ∀ c ∈ digits, c.isDigit) :
    Nat.toDigits 10 (Nat.ofDigitChars 10 digits 0) = normalDigits digits := by
  induction digits with
  | nil => rfl
  | cons c digits ih =>
    obtain ⟨hc, hdigits⟩ := List.forall_mem_cons.1 h
    obtain ⟨d, hd, rfl⟩ := exists_digitChar hc
    rw [Nat.ofDigitChars_cons_digitChar_of_lt_ten hd, Nat.mul_zero, Nat.zero_add]
    rcases Nat.eq_zero_or_pos d with rfl | hpos
    · exact ih hdigits
    · have hne : d.digitChar ≠ '0' := by
        simpa using hpos.ne'
      rw [toDigits_ofDigitChars_of_pos hdigits hpos, Nat.toDigits_of_lt_base hd,
        List.singleton_append, normalDigits_of_cons (List.dropWhile_cons_of_neg (by simpa using hne))]

theorem leftpad_normalDigits {digits : List Char} (h : digits ≠ []) :
    (normalDigits digits).leftpad digits.length '0' = digits := by
  have hzeros : digits.takeWhile (· = '0') =
      List.replicate (digits.takeWhile (· = '0')).length '0' := by
    rw [List.eq_replicate_iff]
    refine ⟨rfl, ?_⟩
    intro c hc
    simpa using List.all_eq_true.1 List.all_takeWhile c hc
  have hsplit := List.takeWhile_append_dropWhile (p := (· = '0')) (l := digits)
  generalize digits.takeWhile (· = '0') = zeros at hzeros hsplit
  cases hrest : digits.dropWhile (· = '0') with
  | nil =>
    rw [hrest, List.append_nil] at hsplit
    subst hsplit
    have hpos : 0 < zeros.length := List.length_pos_iff.2 h
    have hsucc : zeros.length = zeros.length - 1 + 1 := by omega
    rw [normalDigits_of_nil hrest, List.leftpad, List.length_singleton, ← List.replicate_succ',
      ← hsucc, ← hzeros]
  | cons c rest =>
    rw [hrest] at hsplit
    rw [normalDigits_of_cons hrest, List.leftpad, ← hsplit, List.length_append,
      Nat.add_sub_cancel, ← hzeros]

theorem ofDigitChars_lt {digits : List Char} (h : ∀ c ∈ digits, c.isDigit) :
    Nat.ofDigitChars 10 digits 0 < 10 ^ digits.length := by
  induction digits using List.reverseRecOn with
  | nil => decide
  | append_singleton digits c ih =>
    obtain ⟨hdigits, hc⟩ := List.forall_mem_append.1 h
    obtain ⟨d, hd, rfl⟩ := exists_digitChar (hc c (List.mem_singleton_self c))
    have hlt := ih hdigits
    rw [ofDigitChars_concat digits hd, List.length_append, List.length_singleton, pow_succ]
    omega

section

variable {whole fraction : List Char}

theorem toChars_ofDigitChars (hwhole : ∀ c ∈ whole, c.isDigit)
    (hfraction : ∀ c ∈ fraction, c.isDigit) :
    toChars ⟨Nat.ofDigitChars 10 (whole ++ fraction) 0, fraction.length⟩ =
      normalDigits whole ++ if fraction = [] then [] else '.' :: fraction := by
  have hlt := ofDigitChars_lt hfraction
  have hvalue : Nat.ofDigitChars 10 (whole ++ fraction) 0 =
      10 ^ fraction.length * Nat.ofDigitChars 10 whole 0 + Nat.ofDigitChars 10 fraction 0 := by
    rw [Nat.ofDigitChars_append, Nat.ofDigitChars_eq_ofDigitChars_zero]
  have hdiv : Nat.ofDigitChars 10 (whole ++ fraction) 0 / 10 ^ fraction.length =
      Nat.ofDigitChars 10 whole 0 := by
    rw [hvalue, Nat.mul_add_div (by positivity), Nat.div_eq_of_lt hlt, Nat.add_zero]
  have hmod : Nat.ofDigitChars 10 (whole ++ fraction) 0 % 10 ^ fraction.length =
      Nat.ofDigitChars 10 fraction 0 := by
    rw [hvalue, Nat.mul_add_mod, Nat.mod_eq_of_lt hlt]
  have hpow : Nat.pow 10 fraction.length = 10 ^ fraction.length := rfl
  simp only [toChars, hpow, hdiv, hmod, List.length_eq_zero_iff, toDigits_ofDigitChars hwhole,
    toDigits_ofDigitChars hfraction]
  rcases eq_or_ne fraction [] with rfl | hne
  · rw [if_pos rfl, if_pos rfl, List.append_nil]
  · rw [if_neg hne, if_neg hne, leftpad_normalDigits hne]

theorem reduceFrom_ofDigitChars (whole : List Char) (hfraction : ∀ c ∈ fraction, c.isDigit) :
    reduceFrom (Nat.ofDigitChars 10 (whole ++ fraction) 0) fraction.length =
      ⟨Nat.ofDigitChars 10 (whole ++ fraction.rdropWhile (· = '0')) 0,
        (fraction.rdropWhile (· = '0')).length⟩ := by
  induction fraction using List.reverseRecOn with
  | nil => rfl
  | append_singleton fraction c ih =>
    obtain ⟨hdigits, hc⟩ := List.forall_mem_append.1 hfraction
    obtain ⟨d, hd, rfl⟩ := exists_digitChar (hc c (List.mem_singleton_self c))
    have hvalue := ofDigitChars_concat (whole ++ fraction) hd
    rw [List.append_assoc] at hvalue
    rw [hvalue, List.length_append, List.length_singleton, reduceFrom]
    rcases Nat.eq_zero_or_pos d with rfl | hpos
    · rw [if_pos (by omega), Nat.add_zero, Nat.mul_div_cancel_left _ (by norm_num), ih hdigits,
        List.rdropWhile_concat_pos]
      rfl
    · have hne : d.digitChar ≠ '0' := by
        simpa using hpos.ne'
      rw [if_neg (by omega), List.rdropWhile_concat_neg (· = '0') fraction _ (by simpa using hne),
        hvalue, List.length_append, List.length_singleton]

end

theorem Numeral.toChars_reduce {text : List Char} {x : Decimal} (h : Numeral text x) :
    x.reduce.toChars = normalChars text := by
  cases h with
  | whole _ hdigits =>
    have hnone := toChars_ofDigitChars hdigits (List.forall_mem_nil _)
    rw [List.append_nil] at hnone
    rw [normalChars, List.takeWhile_eq_self_iff.2 hdigits, List.dropWhile_eq_nil_iff.2 hdigits]
    exact hnone
  | @pointed whole fraction _ hwhole hfraction =>
    have hkept : ∀ c ∈ fraction.rdropWhile (· = '0'), c.isDigit := by
      intro c hc
      exact hfraction c ((List.rdropWhile_prefix _ _).subset hc)
    rw [reduce, reduceFrom_ofDigitChars whole hfraction, toChars_ofDigitChars hwhole hkept,
      normalChars, List.takeWhile_append_of_pos hwhole, List.dropWhile_append_of_pos hwhole]
    simp

end WindowLayout.Decimal
