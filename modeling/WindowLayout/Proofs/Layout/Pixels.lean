import Mathlib
import WindowLayout.Proofs.Layout.FullSize

namespace WindowLayout

open Decimal (Numeral)

namespace Text

/-- The unit of pixels is in the text, or else not even its first letter. -/
inductive Marks : Bool → List Char → Prop
  | unit {text : List Char} : ['p', 'x'] <:+: text → Marks true text
  | plain {text : List Char} : 'p' ∉ text → Marks false text

namespace Marks

variable {a b : Bool} {text more : List Char}

theorem append (h : Marks a text) (hmore : Marks b more) : Marks (a || b) (text ++ more) := by
  cases h with
  | unit h => exact .unit (h.trans (List.prefix_append text more).isInfix)
  | plain h =>
    cases hmore with
    | unit hmore => exact .unit (hmore.trans (List.suffix_append text more).isInfix)
    | plain hmore =>
      apply plain
      rw [List.mem_append, not_or]
      exact ⟨h, hmore⟩

theorem iff_isInfix (h : Marks a text) : a = true ↔ ['p', 'x'] <:+: text := by
  cases h with
  | unit h => exact iff_of_true rfl h
  | plain h =>
    refine iff_of_false Bool.false_ne_true ?_
    intro hunit
    exact h (hunit.subset List.mem_cons_self)

theorem percent : Marks false ['%'] := plain (by simp)

theorem slash : Marks false ['/'] := plain (by simp)

theorem pixels : Marks true ['p', 'x'] := unit (List.infix_refl _)

theorem operator (op : Operator) : Marks false [op.toChar] := by
  cases op <;> exact plain (by decide)

theorem numeral {x : Decimal} (h : Numeral text x) : Marks false text := by
  apply plain
  intro hmem
  rcases h.isDigit_or_point _ hmem with h | h <;> simp at h

theorem natural {n : Nat} (h : Term.IsNatural text n) : Marks false text := by
  apply plain
  intro hmem
  simpa using h.isDigit _ hmem

theorem number (x : Binary64) : Marks false x.toChars := by
  apply plain
  intro hmem
  simpa using x.isDigit_or_mem_toChars _ hmem

theorem integer (i : Int64) : Marks false (integerChars i) := by
  apply plain
  intro hmem
  simpa using isDigit_or_minus_integerChars i _ hmem

end Marks

end Text

open Text (Marks)

namespace Term

theorem marks_toChars (t : Term) : Marks t.isPixels t.toChars := by
  cases t with
  | zero => exact .plain (by simp [toChars])
  | fraction n d => exact (Marks.integer n).append (Marks.slash.append (.integer d))
  | percentage r => exact (Marks.number _).append .percent
  | pixels p => exact (Marks.number p).append .pixels

theorem Spells.marks {text : List Char} {t : Term} (h : Spells text t) :
    Marks t.isPixels text := by
  cases h with
  | zero => exact .plain (by simp)
  | fraction hn hd => exact (Marks.natural hn).append (Marks.slash.append (.natural hd))
  | percentage hx => exact (Marks.numeral hx).append .percent
  | pixels hx => exact (Marks.numeral hx).append .pixels

theorem value_of_not_isPixels {t : Term} (h : t.isPixels = false) (container : Binary64)
    (scale scale' : Option Binary64) : t.value container scale = t.value container scale' := by
  cases t with
  | pixels => cases h
  | _ => rfl

end Term

namespace Operands

theorem marks_linkChars {rest : List (Operator × List Char)} {links : List Link}
    (h : List.Forall₂ SpellsLink rest links) :
    Marks (links.any (·.2.isPixels)) (linkChars rest) := by
  induction h with
  | nil => exact .plain List.not_mem_nil
  | @cons part _ _ _ hlink _ ih =>
    rw [List.any_cons]
    exact ((Marks.operator part.1).append hlink.2.marks).append ih

theorem Spells.marks {o : Operands} {c : Chain} (h : o.Spells c) :
    Marks c.toExpr.hasPixels o.toChars := by
  rw [← Expr.hasPixels_toChain, Chain.toChain_toExpr]
  exact h.first.marks.append (marks_linkChars h.rest)

end Operands

theorem Region.map_congr {f g : Field → α → β} {r : Region α}
    (h : ∀ field, f field (r.get field) = g field (r.get field)) : r.map f = r.map g := by
  have hx : f .x r.x = g .x r.x := h .x
  have hy : f .y r.y = g .y r.y := h .y
  have hwidth : f .width r.width = g .width r.width := h .width
  have hheight : f .height r.height = g .height r.height := h .height
  rw [map, map, hx, hy, hwidth, hheight]

namespace Expr

theorem marks_toChars (e : Expr) : Marks e.hasPixels e.toChars := by
  induction e with
  | term t => exact t.marks_toChars
  | binary left op right ihl ihr =>
    have hjoint : Marks false [' ', op.toChar, ' '] := by
      cases op <;> exact .plain (by decide)
    exact ihl.append (hjoint.append ihr)

theorem value_of_not_hasPixels {e : Expr} (h : e.hasPixels = false) (container : Binary64)
    (scale scale' : Option Binary64) : e.value container scale = e.value container scale' := by
  apply value_congr
  apply (hasPixels_eq_false_iff.1 h).imp
  intro t ht
  exact Term.value_of_not_isPixels ht container scale scale'

/-- Without pixels an expression has the same length and resolves to the same pixel on all screens
and without one, and a layout of such expressions has the same preview. An expression has pixels
exactly if their unit is in the text it is written as, and exactly if it is in a text, without its
blanks, that the expression is read from. -/
theorem screen_irrelevant_without_pixels :
    (∀ e : Expr, e.hasPixels = false → ∀ container screen screen',
      (e.measure container screen).value = (e.measure container screen').value ∧
        (e.evaluate container screen).value = (e.evaluate container screen').value) ∧
      (∀ layout : Layout, (∀ field, (layout.get field).hasPixels = false) →
        ∀ picture screen screen',
          (layout.preview picture screen).value = (layout.preview picture screen').value) ∧
      (∀ s e, parse s = .ok e →
        (e.hasPixels = true ↔ ['p', 'x'] <:+: Text.withoutBlanks s.toList)) ∧
      ∀ e : Expr, e.hasPixels = true ↔ ['p', 'x'] <:+: e.toString.toList := by
  have hmeasure (e : Expr) (h : e.hasPixels = false) (container : Binary64)
      (screen screen' : Option Binary64) :
      (e.measure container screen).value = (e.measure container screen').value :=
    value_of_not_hasPixels h container _ _
  have hevaluate (e : Expr) (h : e.hasPixels = false) (container : Binary64)
      (screen screen' : Option Binary64) :
      (e.evaluate container screen).value = (e.evaluate container screen').value :=
    congrArg (·.round.toInt64) (hmeasure e h container screen screen')
  refine ⟨?_, ?_, ?_, ?_⟩
  · intro e h container screen screen'
    exact ⟨hmeasure e h container screen screen', hevaluate e h container screen screen'⟩
  · intro layout h picture screen screen'
    rw [Layout.preview, Layout.preview, Region.value_traverse, Region.value_traverse]
    apply Region.map_congr
    intro field
    exact hevaluate _ (h field) _ _ _
  · intro s e h
    obtain ⟨o, c, ho, hspells, rfl⟩ := parse_eq_ok_iff_spells.1 h
    rw [← ho]
    exact hspells.marks.iff_isInfix
  · intro e
    rw [toString, String.toList_ofList]
    exact e.marks_toChars.iff_isInfix

end Expr

namespace Layout

def thirds : Layout :=
  ⟨.term (.fraction 1 3), .term .zero,
    .binary (.term (.percentage 1)) .subtract
      (.binary (.term (.fraction 1 3)) .add (.term (.percentage .nan))), .term (.fraction 2 0)⟩

theorem screen_irrelevant_thirds :
    (∀ field, (thirds.get field).hasPixels = false) ∧
      (thirds.preview ⟨300, 200⟩ ⟨1920, 1080⟩).value =
        (thirds.preview ⟨300, 200⟩ ⟨0, -5⟩).value ∧
      (thirds.preview ⟨300, 200⟩ ⟨0, -5⟩).value = ⟨100, 0, 0, Int64.maxValue⟩ ∧
      ¬['p', 'x'] <:+: thirds.width.toString.toList ∧
      ∃ e, Expr.parse "1/3 - 10p x" = .ok e ∧ e.hasPixels = true := by
  obtain ⟨-, hpreview, hread, hwritten⟩ := Expr.screen_irrelevant_without_pixels
  have hfields : ∀ field, (thirds.get field).hasPixels = false := by
    intro field
    cases field <;> decide
  have hwidth : thirds.width.hasPixels = false := hfields .width
  refine ⟨hfields, hpreview thirds hfields _ _ _, by decide +kernel, ?_, ?_⟩
  · rw [← hwritten, hwidth]
    exact Bool.false_ne_true
  · have hparse : Expr.parse "1/3 - 10p x" =
        .ok (.binary (.term (.fraction 1 3)) .subtract (.term (.pixels 10))) := by decide +kernel
    exact ⟨_, hparse, (hread _ _ hparse).2 (by decide +kernel)⟩

end Layout

end WindowLayout
