import Mathlib
import WindowLayout.Expr.Parser
import WindowLayout.Proofs.Binary64.Shortest

namespace WindowLayout

theorem Text.divide_append {p : Char → Bool} {front back : List Char} (hfront : ∀ c ∈ front, p c)
    (hback : ∀ c ∈ back.head?, p c = false) :
    (front ++ back).takeWhile p = front ∧ (front ++ back).dropWhile p = back := by
  rw [List.takeWhile_append_of_pos hfront, List.dropWhile_append_of_pos hfront]
  cases back with
  | nil => simp
  | cons c rest =>
    have hc := hback c rfl
    rw [List.takeWhile_cons, List.dropWhile_cons, hc]
    simp

namespace Term

open Decimal (Numeral)
open Binary64 (IsClosestTo)

structure IsNatural (text : List Char) (n : Nat) : Prop where
  ne_nil : text ≠ []
  isDigit : ∀ c ∈ text, c.isDigit
  value_eq : n = Nat.ofDigitChars 10 text 0

theorem isNatural_toDigits (n : Nat) : IsNatural (Nat.toDigits 10 n) n where
  ne_nil := Nat.toDigits_ne_nil
  isDigit := Decimal.isDigit_of_mem_toDigits n
  value_eq := Nat.ofDigitChars_ten_toDigits.symm

inductive Spells : List Char → Term → Prop
  | zero : Spells ['0'] .zero
  | fraction {numerator denominator : List Char} {n d : Nat} :
    IsNatural numerator n → IsNatural denominator d → n < 2 ^ 63 → d < 2 ^ 63 → d ≠ 0 →
    Spells (numerator ++ '/' :: denominator) (.fraction (.ofNat n) (.ofNat d))
  | percentage {text : List Char} {x : Decimal} {p : Binary64} :
    Numeral text x → IsClosestTo x p → Spells (text ++ ['%']) (.percentage (p / 100))
  | pixels {text : List Char} {x : Decimal} {p : Binary64} :
    Numeral text x → IsClosestTo x p → Spells (text ++ ['p', 'x']) (.pixels p)

theorem integer?_eq_some_iff {text : List Char} {i : Int64} :
    integer? text = some i ↔ ∃ n, IsNatural text n ∧ n < 2 ^ 63 ∧ i = .ofNat n := by
  have hpow : 1 <<< 63 = 2 ^ 63 := rfl
  simp only [integer?, List.all_eq_true, hpow]
  constructor
  · intro h
    split at h
    · rename_i hdigits
      obtain ⟨hne, hdigits, hlt⟩ := hdigits
      exact ⟨_, ⟨hne, hdigits, rfl⟩, hlt, (Option.some.inj h).symm⟩
    · cases h
  · rintro ⟨n, ⟨hne, hdigits, rfl⟩, hlt, rfl⟩
    rw [if_pos ⟨hne, hdigits, hlt⟩]

theorem number?_eq_some_iff {text : List Char} {p : Binary64} :
    number? text = some p ↔ ∃ x, Numeral text x ∧ IsClosestTo x p := by
  rw [number?, Option.filter_eq_some_iff, Option.map_eq_some_iff]
  constructor
  · rintro ⟨⟨x, hx, hp⟩, hfinite⟩
    exact ⟨x, Decimal.ofChars?_eq_some_iff.1 hx, Binary64.isClosestTo_iff.2 ⟨hp, hfinite⟩⟩
  · rintro ⟨x, hx, hp⟩
    obtain ⟨hp, hfinite⟩ := Binary64.isClosestTo_iff.1 hp
    exact ⟨⟨x, Decimal.ofChars?_eq_some_iff.2 hx, hp⟩, hfinite⟩

theorem beforeUnit?_eq_some_iff {unit text : List Char} {p : Option Binary64} :
    beforeUnit? unit text = some p ↔ ∃ number, number ++ unit = text ∧ number? number = p := by
  simp [beforeUnit?, Option.map_eq_some_iff]

theorem beforeUnit?_append (unit number : List Char) :
    beforeUnit? unit (number ++ unit) = some (number? number) :=
  beforeUnit?_eq_some_iff.2 ⟨number, rfl, rfl⟩

theorem divide_slash {numerator : List Char} (h : '/' ∉ numerator) (denominator : List Char) :
    (numerator ++ '/' :: denominator).takeWhile (· ≠ '/') = numerator ∧
      (numerator ++ '/' :: denominator).dropWhile (· ≠ '/') = '/' :: denominator := by
  apply Text.divide_append
  · intro c hc
    simpa using ne_of_mem_of_not_mem hc h
  · simp

theorem parseFraction_eq_ok_iff {numerator denominator : List Char} (h : '/' ∉ numerator)
    {t : Term} :
    parseFraction (numerator ++ '/' :: denominator) = .ok t ↔
      ∃ n d, integer? numerator = some n ∧ integer? denominator = some d ∧ d ≠ 0 ∧
        t = .fraction n d := by
  obtain ⟨hnumerator, hdenominator⟩ := divide_slash h denominator
  rw [parseFraction, hnumerator, hdenominator, List.drop_succ_cons, List.drop_zero]
  cases integer? numerator with
  | none => simp
  | some n =>
    cases integer? denominator with
    | none => simp
    | some d =>
      by_cases hd : d = 0
      · simp [hd]
      · simp [hd, eq_comm]

theorem not_slash_of_numeral {text : List Char} {x : Decimal} (h : Numeral text x) :
    '/' ∉ text := by
  intro hmem
  rcases h.isDigit_or_point _ hmem with h | h <;> simp at h

theorem IsNatural.not_slash {text : List Char} {n : Nat} (h : IsNatural text n) : '/' ∉ text := by
  intro hmem
  simpa using h.isDigit _ hmem

theorem beforePercent?_append_px (number : List Char) :
    beforeUnit? ['%'] (number ++ ['p', 'x']) = none := by
  rw [beforeUnit?, Option.map_eq_none_iff, Option.eq_none_iff_forall_ne_some]
  intro rest h
  have hlast := congrArg List.getLast? (List.isSuffixOf?_eq_some_iff_append_eq.1 h)
  simp at hlast

theorem spells_of_parse {text : List Char} {t : Term} (h : parse text = .ok t) :
    Spells text t := by
  rw [parse] at h
  split at h
  · rename_i hzero
    cases h
    rw [hzero]
    exact .zero
  · split at h
    · rename_i hslash
      obtain ⟨numerator, denominator, rfl, hnumerator⟩ := List.eq_append_cons_of_mem hslash
      obtain ⟨n, d, hn, hd, hne, rfl⟩ := (parseFraction_eq_ok_iff hnumerator).1 h
      obtain ⟨n, hnatural, hnlt, rfl⟩ := integer?_eq_some_iff.1 hn
      obtain ⟨d, hdnatural, hdlt, rfl⟩ := integer?_eq_some_iff.1 hd
      refine .fraction hnatural hdnatural hnlt hdlt ?_
      rintro rfl
      exact hne rfl
    · split at h
      · rename_i p hbefore
        cases h
        obtain ⟨number, rfl, hnumber⟩ := beforeUnit?_eq_some_iff.1 hbefore
        obtain ⟨x, hx, hp⟩ := number?_eq_some_iff.1 hnumber
        exact .percentage hx hp
      · cases h
      · rename_i p _ hbefore
        cases h
        obtain ⟨number, rfl, hnumber⟩ := beforeUnit?_eq_some_iff.1 hbefore
        obtain ⟨x, hx, hp⟩ := number?_eq_some_iff.1 hnumber
        exact .pixels hx hp
      · cases h
      · cases h

theorem Spells.parse_eq_ok {text : List Char} {t : Term} (h : Spells text t) :
    parse text = .ok t := by
  cases h with
  | zero => rfl
  | @fraction numerator denominator n d hn hd hnlt hdlt hne =>
    have hzero : Int64.ofNat d ≠ 0 := by
      intro h
      have hd := congrArg Int64.toInt h
      rw [Int64.toInt_ofNat_of_lt hdlt] at hd
      exact hne (by simpa using hd)
    rw [parse, if_neg (by simp [List.append_eq_singleton_iff]), if_pos (by simp),
      parseFraction_eq_ok_iff hn.not_slash]
    exact ⟨_, _, integer?_eq_some_iff.2 ⟨n, hn, hnlt, rfl⟩,
      integer?_eq_some_iff.2 ⟨d, hd, hdlt, rfl⟩, hzero, rfl⟩
  | @percentage text x p hx hp =>
    have hnumber := number?_eq_some_iff.2 ⟨x, hx, hp⟩
    rw [parse, if_neg (by simp [List.append_eq_singleton_iff]),
      if_neg (by simp [not_slash_of_numeral hx]), beforeUnit?_append, hnumber]
  | @pixels text x p hx hp =>
    have hnumber := number?_eq_some_iff.2 ⟨x, hx, hp⟩
    rw [parse, if_neg (by simp [List.append_eq_singleton_iff]),
      if_neg (by simp [not_slash_of_numeral hx]), beforePercent?_append_px, beforeUnit?_append,
      hnumber]

theorem parse_eq_ok_iff {text : List Char} {t : Term} : parse text = .ok t ↔ Spells text t :=
  ⟨spells_of_parse, Spells.parse_eq_ok⟩

end Term

end WindowLayout
