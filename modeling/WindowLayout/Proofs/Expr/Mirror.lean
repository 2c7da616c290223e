import Mathlib
import WindowLayout.Proofs.Binary64.Opposite
import WindowLayout.Proofs.Expr.OnePass

namespace WindowLayout

open Binary64 (Opposite)

namespace Operator

def flipSign (c : Char) : Char := (ofChar? c).elim c fun op => op.flip.toChar

theorem flipSign_toChar (op : Operator) : flipSign op.toChar = op.flip.toChar := by
  rw [flipSign, ofChar?_eq_some_iff.2 rfl]
  rfl

theorem map_flipSign_of_not_sign {text : List Char} (h : ∀ c ∈ text, ofChar? c = none) :
    text.map flipSign = text := by
  have hid : text.map flipSign = text.map id := by
    apply List.map_congr_left
    intro c hc
    rw [flipSign, h c hc]
    rfl
  rwa [List.map_id] at hid

theorem isBlank_flipSign (c : Char) : Text.isBlank (flipSign c) = Text.isBlank c := by
  rw [flipSign]
  cases h : ofChar? c with
  | none => rfl
  | some op =>
    rw [ofChar?_eq_some_iff.1 h]
    cases op <;> decide

theorem withoutBlanks_map_flipSign (text : List Char) :
    Text.withoutBlanks (text.map flipSign) = (Text.withoutBlanks text).map flipSign := by
  simp only [Text.withoutBlanks, List.filter_map, Function.comp_def, isBlank_flipSign]

theorem opposite_apply (op : Operator) {x y : Binary64} (h : Opposite x y) (length : Binary64) :
    Opposite (op.apply x length) (op.flip.apply y length) := by
  cases op with
  | add => exact h.add (Binary64.opposite_neg length)
  | subtract => exact h.add (Binary64.opposite_neg length).symm

end Operator

def Chain.mirror (c : Chain) : Chain :=
  ⟨.zero, (.subtract, c.first) :: c.rest.map fun link => (link.1.flip, link.2)⟩

theorem Chain.opposite_value (c : Chain) (container : Binary64) (scale : Option Binary64) :
    Opposite (c.toExpr.value container scale) (c.mirror.toExpr.value container scale) := by
  rw [toExpr, toExpr, value_extend, value_extend, mirror, List.foldl_cons, List.foldl_map]
  apply List.foldl_rel
  · exact Binary64.opposite_zero_sub _
  · intro link _ x y h
    exact link.1.opposite_apply h _

namespace Operands

def mirror (o : Operands) : Operands :=
  ⟨['0'], (.subtract, o.first) :: o.rest.map fun part => (part.1.flip, part.2)⟩

theorem Spells.mirror {o : Operands} {c : Chain} (h : o.Spells c) : o.mirror.Spells c.mirror := by
  refine ⟨.zero, .cons ⟨rfl, h.first⟩ ?_⟩
  rw [List.forall₂_map_left_iff, List.forall₂_map_right_iff]
  apply h.rest.imp
  rintro part link ⟨hop, hspells⟩
  exact ⟨congrArg Operator.flip hop, hspells⟩

theorem linkChars_flip {rest : List (Operator × List Char)}
    (h : ∀ part ∈ rest, ∀ c ∈ part.2, Operator.ofChar? c = none) :
    linkChars (rest.map fun part => (part.1.flip, part.2)) =
      (linkChars rest).map Operator.flipSign := by
  induction rest with
  | nil => rfl
  | cons part rest ih =>
    obtain ⟨hpart, hrest⟩ := List.forall_mem_cons.1 h
    calc
      linkChars ((part :: rest).map fun part => (part.1.flip, part.2)) =
          part.1.flip.toChar :: part.2 ++
            linkChars (rest.map fun part => (part.1.flip, part.2)) := rfl
      _ = (part.1.toChar :: part.2).map Operator.flipSign ++
            (linkChars rest).map Operator.flipSign := by
        rw [List.map_cons, Operator.flipSign_toChar, Operator.map_flipSign_of_not_sign hpart,
          ih hrest]
      _ = (linkChars (part :: rest)).map Operator.flipSign := List.map_append.symm

theorem Spells.toChars_mirror {o : Operands} {c : Chain} (h : o.Spells c) :
    o.mirror.toChars = '0' :: '-' :: o.toChars.map Operator.flipSign := by
  have hrest : ∀ part ∈ o.rest, ∀ c ∈ part.2, Operator.ofChar? c = none := by
    refine h.rest.forall_left ?_
    intro part link hlink
    exact hlink.2.not_sign
  have htext : o.toChars = o.first ++ linkChars o.rest := by rfl
  rw [htext, List.map_append, Operator.map_flipSign_of_not_sign h.first.not_sign,
    ← linkChars_flip hrest]
  rfl

end Operands

namespace Expr

/-- The text of the mirrored expression: the signs are where the operators are. -/
def mirror (s : String) : String := "0 - " ++ .ofList (s.toList.map Operator.flipSign)

theorem withoutBlanks_mirror (s : String) :
    Text.withoutBlanks (mirror s).toList =
      '0' :: '-' :: (Text.withoutBlanks s.toList).map Operator.flipSign := by
  have hzero : Text.withoutBlanks "0 - ".toList = ['0', '-'] := by decide +kernel
  have happend : Text.withoutBlanks (mirror s).toList =
      Text.withoutBlanks "0 - ".toList ++ Text.withoutBlanks (s.toList.map Operator.flipSign) := by
    simp only [mirror, String.toList_append, String.toList_ofList, Text.withoutBlanks,
      List.filter_append]
  rw [happend, hzero, Operator.withoutBlanks_map_flipSign]
  rfl

variable {s : String} {e : Expr}

theorem parse_mirror (h : parse s = .ok e) : parse (mirror s) = .ok e.toChain.mirror.toExpr := by
  obtain ⟨o, c, ho, hspells, rfl⟩ := parse_eq_ok_iff_spells.1 h
  refine parse_eq_ok_iff_spells.2 ⟨o.mirror, c.mirror, ?_, hspells.mirror, ?_⟩
  · rw [hspells.toChars_mirror, ho, withoutBlanks_mirror]
  · rw [Chain.toChain_toExpr]

/-- The mirrored text is read as the mirrored expression. In every container and on every screen that
is resolved to the opposite pixel, and to zero where the length is not a number. -/
theorem evaluate_mirror (h : parse s = .ok e) :
    let mirrored := e.toChain.mirror.toExpr
    parse (mirror s) = .ok mirrored ∧ ∀ container screen,
      (mirrored.evaluate container screen).value = (e.evaluate container screen).value.opposite ∧
        ((e.measure container screen).value = .nan →
          (e.evaluate container screen).value = 0 ∧
            (mirrored.evaluate container screen).value = 0) := by
  intro mirrored
  refine ⟨parse_mirror h, ?_⟩
  intro container screen
  have hopposite : (mirrored.evaluate container screen).value =
      (e.evaluate container screen).value.opposite := by
    obtain ⟨c, -, rfl⟩ := parse_eq_ok_iff.1 h
    have hvalue := c.opposite_value container (pixelScale container screen).value
    rw [value_evaluate, value_evaluate]
    simp only [mirrored, Chain.toChain_toExpr]
    exact Binary64.roundsTo_iff.1 (hvalue.roundsTo (Binary64.roundsTo_iff.2 rfl))
  refine ⟨hopposite, ?_⟩
  intro hnan
  have hzero : (e.evaluate container screen).value = 0 := by
    change (e.measure container screen).value.round.toInt64 = 0
    rw [hnan]
    rfl
  rw [hopposite, hzero]
  exact ⟨rfl, rfl⟩

theorem evaluate_mirror_part :
    let e : Expr := .binary (.term (.fraction 1 2)) .subtract (.term (.percentage 1))
    let mirrored := e.toChain.mirror.toExpr
    parse "1/2 - 100%" = .ok e ∧ mirror "1/2 - 100%" = "0 - 1/2 + 100%" ∧
      parse "0 - 1/2 + 100%" = .ok mirrored ∧
      (mirrored.evaluate 5 none).value = (e.evaluate 5 none).value.opposite ∧
      (e.evaluate 5 none).value = -3 ∧
      (mirrored.evaluate (.largest false) none).value =
        (e.evaluate (.largest false) none).value.opposite ∧
      (e.evaluate (.largest false) none).value = Int64.minValue ∧
      (e.measure (.infinite false) none).value = .nan ∧
      (mirrored.evaluate (.infinite false) none).value = 0 := by
  intro e mirrored
  have hparse : parse "1/2 - 100%" = .ok e := by decide +kernel
  have hmirror : mirror "1/2 - 100%" = "0 - 1/2 + 100%" := by decide +kernel
  have hnan : (e.measure (.infinite false) none).value = .nan := by decide +kernel
  obtain ⟨hread, hvalues⟩ := evaluate_mirror hparse
  rw [hmirror] at hread
  refine ⟨hparse, hmirror, hread, (hvalues 5 none).1, ?_, (hvalues (.largest false) none).1, ?_,
    hnan, ((hvalues (.infinite false) none).2 hnan).2⟩
  · decide +kernel
  · decide +kernel

end Expr

end WindowLayout
