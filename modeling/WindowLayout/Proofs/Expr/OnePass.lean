import Mathlib
import WindowLayout.Expr.Evaluate
import WindowLayout.Proofs.Binary64.Whole
import WindowLayout.Proofs.Expr.Acceptance

namespace WindowLayout

open Decimal (Numeral)
open Binary64 (IsClosestTo RoundsTo)

structure Usable (size : Binary64) : Prop where
  finite : size.isFinite
  positive : Binary64.less 0 size

inductive Warns : Option Binary64 → List Warning → Prop
  | absent : Warns none []
  | usable {size : Binary64} : Usable size → Warns (some size) []
  | unusable {size : Binary64} : ¬Usable size → Warns (some size) [.unusableScreen size]

theorem usableScreen_iff {size : Binary64} : usableScreen size ↔ Usable size := by
  rw [usableScreen, Bool.and_eq_true]
  exact ⟨fun ⟨hfinite, hpositive⟩ => ⟨hfinite, hpositive⟩, fun h => ⟨h.finite, h.positive⟩⟩

theorem usable_ofInt {n : Nat} (hpos : 0 < n) (h : n ≤ 2 ^ 64) : Usable (.ofInt n) := by
  obtain ⟨rank, heq, hne⟩ := Binary64.exists_ofInt_pos hpos h
  rw [heq]
  exact ⟨rfl, Binary64.zero_less_finite_iff.2 ⟨rfl, hne⟩⟩

section

variable (container : Binary64)

theorem pixelScale_of_usable {size : Binary64} (h : Usable size) :
    pixelScale container (some size) = ⟨some (container / size), []⟩ := by
  rw [pixelScale, if_pos (usableScreen_iff.2 h)]
  rfl

theorem pixelScale_of_not_usable {size : Binary64} (h : ¬Usable size) :
    pixelScale container (some size) = ⟨none, [.unusableScreen size]⟩ := by
  rw [pixelScale, if_neg fun hsize => h (usableScreen_iff.1 hsize)]
  rfl

theorem warns_iff {screen : Option Binary64} {warnings : List Warning} :
    Warns screen warnings ↔ (pixelScale container screen).warnings = warnings := by
  have hwarns : Warns screen (pixelScale container screen).warnings := by
    cases screen with
    | none => exact .absent
    | some size =>
      by_cases h : Usable size
      · rw [pixelScale_of_usable container h]
        exact .usable h
      · rw [pixelScale_of_not_usable container h]
        exact .unusable h
  constructor
  · intro h
    cases h with
    | absent => rfl
    | usable h => rw [pixelScale_of_usable container h]
    | unusable h => rw [pixelScale_of_not_usable container h]
  · rintro rfl
    exact hwarns

end

namespace Term

variable {container : Binary64} {screen : Option Binary64} {text : List Char}

inductive Measures (container : Binary64) (screen : Option Binary64) :
    List Char → Binary64 → Prop
  | zero : Measures container screen ['0'] 0
  | fraction {numerator denominator : List Char} {n d : Nat} :
    IsNatural numerator n → IsNatural denominator d → n < 2 ^ 63 → d < 2 ^ 63 → d ≠ 0 →
    Measures container screen (numerator ++ '/' :: denominator)
      (container * .ofInt n / .ofInt d)
  | percentage {text : List Char} {x : Decimal} {p : Binary64} :
    Numeral text x → IsClosestTo x p →
    Measures container screen (text ++ ['%']) (container * (p / 100))
  | scaled {text : List Char} {x : Decimal} {p size : Binary64} :
    Numeral text x → IsClosestTo x p → screen = some size → Usable size →
    Measures container screen (text ++ ['p', 'x']) (p * (container / size))
  | pixels {text : List Char} {x : Decimal} {p : Binary64} :
    Numeral text x → IsClosestTo x p → (∀ size, screen = some size → ¬Usable size) →
    Measures container screen (text ++ ['p', 'x']) p

theorem ofInt64_ofNat {n : Nat} (h : n < 2 ^ 63) :
    Binary64.ofInt64 (.ofNat n) = .ofInt n := by
  rw [Binary64.ofInt64, Int64.toInt_ofNat_of_lt h]

theorem Spells.measures {t : Term} (h : Spells text t) :
    Measures container screen text (t.value container (pixelScale container screen).value) := by
  cases h with
  | zero => exact .zero
  | fraction hn hd hnlt hdlt hne =>
    rw [value, ofInt64_ofNat hnlt, ofInt64_ofNat hdlt]
    exact .fraction hn hd hnlt hdlt hne
  | percentage hx hp => exact .percentage hx hp
  | pixels hx hp =>
    cases screen with
    | none => exact .pixels hx hp (by simp)
    | some size =>
      by_cases h : Usable size
      · rw [pixelScale_of_usable container h]
        exact .scaled hx hp rfl h
      · rw [pixelScale_of_not_usable container h]
        refine .pixels hx hp ?_
        intro other hother
        cases hother
        exact h

theorem Measures.exists_spells {v : Binary64} (h : Measures container screen text v) :
    ∃ t, Spells text t ∧ t.value container (pixelScale container screen).value = v := by
  cases h with
  | zero => exact ⟨_, .zero, rfl⟩
  | fraction hn hd hnlt hdlt hne =>
    refine ⟨_, .fraction hn hd hnlt hdlt hne, ?_⟩
    rw [value, ofInt64_ofNat hnlt, ofInt64_ofNat hdlt]
  | percentage hx hp => exact ⟨_, .percentage hx hp, rfl⟩
  | scaled hx hp hscreen h =>
    refine ⟨_, .pixels hx hp, ?_⟩
    rw [hscreen, pixelScale_of_usable container h]
    rfl
  | pixels hx hp hscreen =>
    refine ⟨_, .pixels hx hp, ?_⟩
    cases screen with
    | none => rfl
    | some size =>
      rw [pixelScale_of_not_usable container (hscreen size rfl)]
      rfl

end Term

structure Lengths : Type where
  first : Binary64
  rest : List (Operator × Binary64)

namespace Lengths

def totalFrom (sum : Binary64) : List (Operator × Binary64) → Binary64
  | [] => sum
  | (.add, v) :: rest => totalFrom (sum + v) rest
  | (.subtract, v) :: rest => totalFrom (sum - v) rest

def total (lengths : Lengths) : Binary64 := totalFrom lengths.first lengths.rest

theorem totalFrom_eq_foldl (sum : Binary64) (rest : List (Operator × Binary64)) :
    totalFrom sum rest = rest.foldl (fun sum part => part.1.apply sum part.2) sum := by
  induction rest generalizing sum with
  | nil => rfl
  | cons part rest ih =>
    obtain ⟨op, v⟩ := part
    cases op with
    | add => exact ih (sum + v)
    | subtract => exact ih (sum - v)

end Lengths

variable {container : Binary64} {screen : Option Binary64}

namespace Operands

def MeasuresLink (container : Binary64) (screen : Option Binary64)
    (part : Operator × List Char) (link : Operator × Binary64) : Prop :=
  part.1 = link.1 ∧ Term.Measures container screen part.2 link.2

structure Measures (container : Binary64) (screen : Option Binary64) (o : Operands)
    (lengths : Lengths) : Prop where
  first : Term.Measures container screen o.first lengths.first
  rest : List.Forall₂ (MeasuresLink container screen) o.rest lengths.rest

end Operands

namespace Chain

def lengths (container : Binary64) (scale : Option Binary64) (c : Chain) : Lengths :=
  ⟨c.first.value container scale, c.rest.map fun link => (link.1, link.2.value container scale)⟩

theorem value_extend (scale : Option Binary64) (e : Expr) (links : List Link) :
    (e.extend links).value container scale =
      links.foldl (fun sum link => link.1.apply sum (link.2.value container scale))
        (e.value container scale) := by
  induction links generalizing e with
  | nil => rfl
  | cons link links ih =>
    obtain ⟨op, t⟩ := link
    rw [Expr.extend_cons, ih]
    rfl

theorem value_toExpr (scale : Option Binary64) (c : Chain) :
    c.toExpr.value container scale = (c.lengths container scale).total := by
  rw [toExpr, value_extend, Lengths.total, Lengths.totalFrom_eq_foldl, lengths, List.foldl_map]
  rfl

end Chain

namespace Operands

theorem Spells.measures {o : Operands} {c : Chain} (h : o.Spells c) :
    o.Measures container screen (c.lengths container (pixelScale container screen).value) := by
  constructor
  · exact h.first.measures
  · rw [Chain.lengths, List.forall₂_map_right_iff]
    apply h.rest.imp
    rintro part link ⟨hop, hspells⟩
    exact ⟨hop, hspells.measures⟩

theorem exists_links_of_measures {rest : List (Operator × List Char)}
    {lengths : List (Operator × Binary64)}
    (h : List.Forall₂ (MeasuresLink container screen) rest lengths) :
    ∃ links : List Link, List.Forall₂ SpellsLink rest links ∧
      (links.map fun link =>
        (link.1, link.2.value container (pixelScale container screen).value)) = lengths := by
  induction h with
  | nil => exact ⟨[], .nil, rfl⟩
  | @cons part link rest lengths hlink _ ih =>
    obtain ⟨hop, hmeasures⟩ := hlink
    obtain ⟨t, hspells, hvalue⟩ := hmeasures.exists_spells
    obtain ⟨links, hlinks, hlengths⟩ := ih
    refine ⟨(part.1, t) :: links, .cons ⟨rfl, hspells⟩ hlinks, ?_⟩
    rw [List.map_cons, hlengths, hvalue, hop]

theorem Measures.exists_spells {o : Operands} {lengths : Lengths}
    (h : o.Measures container screen lengths) :
    ∃ c : Chain, o.Spells c ∧
      c.lengths container (pixelScale container screen).value = lengths := by
  obtain ⟨t, hfirst, hvalue⟩ := h.first.exists_spells
  obtain ⟨links, hrest, hlengths⟩ := exists_links_of_measures h.rest
  refine ⟨⟨t, links⟩, ⟨hfirst, hrest⟩, ?_⟩
  rw [Chain.lengths, hvalue, hlengths]

end Operands

namespace Expr

theorem evaluate_eq_iff {c : Chain} {reply : Reported Int64} :
    c.toExpr.evaluate container screen = reply ↔
      RoundsTo (c.lengths container (pixelScale container screen).value).total reply.value ∧
        Warns screen reply.warnings := by
  have hwarnings : (c.toExpr.evaluate container screen).warnings =
      (pixelScale container screen).warnings := by
    simp [evaluate, measure]
  have hvalue : (c.toExpr.evaluate container screen).value =
      (c.lengths container (pixelScale container screen).value).total.round.toInt64 := by
    rw [value_evaluate, Chain.value_toExpr]
  rw [Binary64.roundsTo_iff, warns_iff container, ← hvalue, ← hwarnings]
  constructor
  · rintro rfl
    exact ⟨rfl, rfl⟩
  · rintro ⟨hv, hw⟩
    cases reply
    cases hv
    cases hw
    rfl

/-- Resolving a text fails as reading it does. Otherwise the reply is found in one pass: the lengths
of the operands are added and subtracted from left to right, the sum is rounded, and a screen that is
not usable is reported once. -/
theorem resolve_is_one_pass (s : String) (container : Binary64) (screen : Option Binary64) :
    (∀ e, resolve s container screen = .error e ↔ parse s = .error e) ∧
      ∀ reply, resolve s container screen = .ok reply ↔
        ∃ (o : Operands) (lengths : Lengths),
          o.toChars = Text.withoutBlanks s.toList ∧ o.Measures container screen lengths ∧
            RoundsTo lengths.total reply.value ∧ Warns screen reply.warnings := by
  have hresolve : resolve s container screen =
      (parse s).map fun e => e.evaluate container screen := by
    rw [resolve]
    cases parse s <;> rfl
  constructor
  · intro e
    rw [hresolve]
    cases parse s <;> simp [Except.map]
  · intro reply
    have hok : resolve s container screen = .ok reply ↔
        ∃ e, parse s = .ok e ∧ e.evaluate container screen = reply := by
      rw [hresolve]
      cases parse s <;> simp [Except.map]
    rw [hok]
    constructor
    · rintro ⟨e, he, hreply⟩
      obtain ⟨c, hc, rfl⟩ := parse_eq_ok_iff.1 he
      obtain ⟨o, ho, hspells⟩ := Chain.ofTokens_scan_eq_ok_iff.1 hc
      exact ⟨o, _, ho, hspells.measures, evaluate_eq_iff.1 hreply⟩
    · rintro ⟨o, lengths, ho, hmeasures, hreply⟩
      obtain ⟨c, hspells, rfl⟩ := hmeasures.exists_spells
      have hc := Chain.ofTokens_scan_eq_ok_iff.2 ⟨o, ho, hspells⟩
      exact ⟨c.toExpr, parse_eq_ok_iff.2 ⟨c, hc, rfl⟩, evaluate_eq_iff.2 hreply⟩

theorem resolve_is_one_pass_unusable_screen :
    resolve "100px - 30px + 50%" 200 (some 0) = .ok ⟨170, [.unusableScreen 0]⟩ := by
  have hscreen : ¬Usable 0 := by
    rw [← usableScreen_iff]
    decide +kernel
  have hpixels {size : Binary64} (hsize : some 0 = some size) : ¬Usable size :=
    Option.some.inj hsize ▸ hscreen
  obtain ⟨x, hx, hxp⟩ := Term.number?_eq_some_iff.1 (by decide +kernel :
    Term.number? ['1', '0', '0'] = some 100)
  obtain ⟨y, hy, hyp⟩ := Term.number?_eq_some_iff.1 (by decide +kernel :
    Term.number? ['3', '0'] = some 30)
  obtain ⟨z, hz, hzp⟩ := Term.number?_eq_some_iff.1 (by decide +kernel :
    Term.number? ['5', '0'] = some 50)
  rw [(resolve_is_one_pass _ _ _).2]
  refine ⟨⟨['1', '0', '0', 'p', 'x'], [(.subtract, ['3', '0', 'p', 'x']), (.add, ['5', '0', '%'])]⟩,
    ⟨100, [(.subtract, 30), (.add, 200 * (50 / 100))]⟩, by decide +kernel, ⟨?_, ?_⟩, ?_, ?_⟩
  · exact .pixels hx hxp fun _ => hpixels
  · exact .cons ⟨rfl, .pixels hy hyp fun _ => hpixels⟩ (.cons ⟨rfl, .percentage hz hzp⟩ .nil)
  · rw [Binary64.roundsTo_iff]
    decide +kernel
  · exact .unusable hscreen

end Expr

end WindowLayout
