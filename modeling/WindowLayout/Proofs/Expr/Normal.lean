import Mathlib
import WindowLayout.Proofs.Decimal.Normal
import WindowLayout.Proofs.Expr.Canonical
import WindowLayout.Proofs.Expr.ShortPercentage

namespace WindowLayout

open Decimal (Numeral normalDigits)

namespace Text

def isNumeral (c : Char) : Bool := c.isDigit || c = '.'

def isSign (c : Char) : Bool := (Operator.ofChar? c).isSome

def spaced (sign : Char) (text : List Char) : List Char := ' ' :: sign :: ' ' :: text

end Text

open Text (isNumeral isSign spaced)

namespace Term

def normalChars (text : List Char) : List Char :=
  if '/' ∈ text then
    normalDigits (text.takeWhile (· ≠ '/')) ++
      '/' :: normalDigits ((text.dropWhile (· ≠ '/')).drop 1)
  else Decimal.normalChars (text.takeWhile isNumeral) ++ text.dropWhile isNumeral

def HasShortNumber (text : List Char) : Prop :=
  '/' ∉ text → ∀ x ∈ Decimal.ofChars? (text.takeWhile isNumeral), x.IsShort

instance (text : List Char) : Decidable (HasShortNumber text) :=
  inferInstanceAs (Decidable ('/' ∉ text → _))

theorem integerChars_ofNat {n : Nat} (h : n < 2 ^ 63) :
    integerChars (.ofNat n) = Nat.toDigits 10 n := by
  rw [integerChars_of_nonneg (ofNat_nonneg h), Int64.toInt_ofNat_of_lt h, Int.natAbs_natCast]

theorem IsNatural.integerChars_eq {text : List Char} {n : Nat} (h : IsNatural text n)
    (hlt : n < 2 ^ 63) : integerChars (.ofNat n) = normalDigits text := by
  rw [integerChars_ofNat hlt, h.value_eq, Decimal.toDigits_ofDigitChars h.isDigit]

theorem normalChars_fraction {numerator : List Char} (h : '/' ∉ numerator)
    (denominator : List Char) :
    normalChars (numerator ++ '/' :: denominator) =
      normalDigits numerator ++ '/' :: normalDigits denominator := by
  obtain ⟨hnumerator, hdenominator⟩ := divide_slash h denominator
  rw [normalChars, if_pos (by simp), hnumerator, hdenominator, List.drop_succ_cons, List.drop_zero]

section

variable {number unit : List Char} {x : Decimal}

theorem isNumeral_of_numeral (h : Numeral number x) : ∀ c ∈ number, isNumeral c := by
  intro c hc
  rcases h.isDigit_or_point c hc with hdigit | rfl
  · rw [isNumeral, hdigit]
    rfl
  · rfl

theorem divide_number (h : Numeral number x) (hunit : ∀ c ∈ unit, isNumeral c = false) :
    (number ++ unit).takeWhile isNumeral = number ∧
      (number ++ unit).dropWhile isNumeral = unit :=
  Text.divide_append (isNumeral_of_numeral h) fun c hc => hunit c (List.mem_of_mem_head? hc)

theorem not_slash_append (h : Numeral number x) (hunit : '/' ∉ unit) : '/' ∉ number ++ unit := by
  rw [List.mem_append, not_or]
  exact ⟨not_slash_of_numeral h, hunit⟩

theorem normalChars_number (h : Numeral number x) (hslash : '/' ∉ unit)
    (hunit : ∀ c ∈ unit, isNumeral c = false) :
    normalChars (number ++ unit) = Decimal.normalChars number ++ unit := by
  obtain ⟨hnumber, hrest⟩ := divide_number h hunit
  rw [normalChars, if_neg (not_slash_append h hslash), hnumber, hrest]

theorem HasShortNumber.isShort (hshort : HasShortNumber (number ++ unit)) (h : Numeral number x)
    (hslash : '/' ∉ unit) (hunit : ∀ c ∈ unit, isNumeral c = false) : x.IsShort := by
  refine hshort (not_slash_append h hslash) x ?_
  rw [(divide_number h hunit).1]
  exact Decimal.ofChars?_eq_some_iff.2 h

end

theorem Spells.toChars_eq_normalChars {text : List Char} {t : Term} (h : Spells text t)
    (hshort : HasShortNumber text) : t.toChars = normalChars text := by
  cases h with
  | zero => decide
  | fraction hn hd hnlt hdlt =>
    rw [toChars, hn.integerChars_eq hnlt, hd.integerChars_eq hdlt, normalChars_fraction hn.not_slash]
  | percentage hx hp =>
    have hslash : '/' ∉ ['%'] := by decide
    have hunit : ∀ c ∈ ['%'], isNumeral c = false := by simp [isNumeral]
    have hx' := hshort.isShort hx hslash hunit
    rw [toChars, Percentage.ofRatio_short hx' hp, Binary64.toChars_short hx' hp, hx.toChars_reduce,
      normalChars_number hx hslash hunit]
  | pixels hx hp =>
    have hslash : '/' ∉ ['p', 'x'] := by decide
    have hunit : ∀ c ∈ ['p', 'x'], isNumeral c = false := by simp [isNumeral]
    have hx' := hshort.isShort hx hslash hunit
    rw [toChars, Binary64.toChars_short hx' hp, hx.toChars_reduce,
      normalChars_number hx hslash hunit]

theorem Spells.isSign_eq_false {text : List Char} {t : Term} (h : Spells text t) :
    ∀ c ∈ text, isSign c = false := by
  intro c hc
  rw [isSign, h.not_sign c hc]
  rfl

end Term

namespace Operands

theorem isSign_toChar (op : Operator) : isSign op.toChar := by
  cases op <;> rfl

theorem filter_isSign {text : List Char} (h : ∀ c ∈ text, isSign c = false) :
    text.filter isSign = [] := by
  rw [List.filter_eq_nil_iff]
  intro c hc
  rw [h c hc]
  exact Bool.false_ne_true

theorem split_linkChars {first : List Char} {rest : List (Operator × List Char)}
    (hfirst : ∀ c ∈ first, isSign c = false) (hrest : ∀ part ∈ rest, ∀ c ∈ part.2, isSign c = false) :
    (first ++ linkChars rest).splitOnP isSign = first :: rest.map Prod.snd ∧
      (first ++ linkChars rest).filter isSign = rest.map fun part => part.1.toChar := by
  induction rest generalizing first with
  | nil =>
    rw [linkChars, List.flatMap_nil, List.append_nil]
    exact ⟨List.splitOnP_eq_singleton hfirst, filter_isSign hfirst⟩
  | cons part rest ih =>
    obtain ⟨op, text⟩ := part
    obtain ⟨hpart, hrest⟩ := List.forall_mem_cons.1 hrest
    obtain ⟨hterms, hsigns⟩ := ih hpart hrest
    have hlink : linkChars ((op, text) :: rest) = op.toChar :: (text ++ linkChars rest) := rfl
    rw [hlink]
    constructor
    · rw [List.splitOnP_append_cons_of_forall_mem hfirst _ (isSign_toChar op), hterms]
      rfl
    · rw [List.filter_append, filter_isSign hfirst, List.nil_append,
        List.filter_cons_of_pos (isSign_toChar op), hsigns]
      rfl

theorem flatMap_toChars_eq {rest : List (Operator × List Char)} {links : List Link}
    (h : List.Forall₂ SpellsLink rest links) (hshort : ∀ part ∈ rest, Term.HasShortNumber part.2) :
    links.flatMap (fun link => spaced link.1.toChar link.2.toChars) =
      rest.flatMap fun part => spaced part.1.toChar (Term.normalChars part.2) := by
  induction h with
  | nil => rfl
  | cons hlink _ ih =>
    obtain ⟨hpart, hrest⟩ := List.forall_mem_cons.1 hshort
    rw [List.flatMap_cons, List.flatMap_cons, ih hrest, hlink.1,
      hlink.2.toChars_eq_normalChars hpart]

end Operands

namespace Expr

theorem toChars_extend (e : Expr) (links : List Link) :
    (e.extend links).toChars =
      e.toChars ++ links.flatMap fun link => spaced link.1.toChar link.2.toChars := by
  induction links generalizing e with
  | nil => simp
  | cons link links ih =>
    obtain ⟨op, t⟩ := link
    simp [ih, toChars, spaced]

def terms (s : String) : List (List Char) := (Text.withoutBlanks s.toList).splitOnP isSign

def normal (s : String) : String :=
  match terms s with
  | [] => ""
  | first :: others =>
    let signs := (Text.withoutBlanks s.toList).filter isSign
    .ofList (Term.normalChars first ++
      (signs.zip others).flatMap fun part => spaced part.1 (Term.normalChars part.2))

/-- What was read from a text is written as the normal spelling of the text, if its percentages and
pixels are below a million and have nine decimals at most. -/
theorem toString_eq_normal {s : String} {e : Expr} (h : parse s = .ok e)
    (hshort : ∀ text ∈ terms s, Term.HasShortNumber text) : e.toString = normal s := by
  obtain ⟨o, c, ho, hspells, rfl⟩ := parse_eq_ok_iff_spells.1 h
  have hrest : ∀ part ∈ o.rest, ∀ c ∈ part.2, isSign c = false := by
    refine hspells.rest.forall_left ?_
    intro part link hlink
    exact hlink.2.isSign_eq_false
  obtain ⟨hterms, hsigns⟩ := Operands.split_linkChars hspells.first.isSign_eq_false hrest
  have htext : terms s = o.first :: o.rest.map Prod.snd := by
    rw [terms, ← ho]
    exact hterms
  have hzip : ((Text.withoutBlanks s.toList).filter isSign).zip (o.rest.map Prod.snd) =
      o.rest.map fun part => (part.1.toChar, part.2) := by
    rw [← ho, Operands.toChars, hsigns, List.zip_map']
  rw [htext, List.forall_mem_cons, List.forall_mem_map] at hshort
  have hchars : c.toExpr.toChars = Term.normalChars o.first ++
      o.rest.flatMap fun part => spaced part.1.toChar (Term.normalChars part.2) := by
    rw [Chain.toExpr, toChars_extend, toChars, hspells.first.toChars_eq_normalChars hshort.1,
      Operands.flatMap_toChars_eq hspells.rest hshort.2]
  rw [toString, hchars, normal, htext]
  simp only [hzip, List.flatMap_map]

theorem toString_eq_normal_three_terms :
    let text := " 007.50 % - .5px+ 010/003"
    (∀ term ∈ terms text, Term.HasShortNumber term) ∧
      ∃ e, parse text = .ok e ∧ e.toString = "7.5% - 0.5px + 10/3" := by
  intro text
  have hshort : ∀ term ∈ terms text, Term.HasShortNumber term := by decide +kernel
  have hnormal : normal text = "7.5% - 0.5px + 10/3" := by decide +kernel
  have hread : (parse text).isOk := by decide +kernel
  refine ⟨hshort, ?_⟩
  cases h : parse text with
  | error => rw [h] at hread; cases hread
  | ok e => exact ⟨e, rfl, (toString_eq_normal h hshort).trans hnormal⟩

end Expr

end WindowLayout
