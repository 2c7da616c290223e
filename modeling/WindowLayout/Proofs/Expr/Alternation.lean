import Mathlib
import WindowLayout.Expr.Token

namespace WindowLayout.Token

structure IsOperand (text : List Char) : Prop where
  ne_nil : text ≠ []
  not_sign : ∀ c ∈ text.tail, Operator.ofChar? c = none

/-- Operators each with the operand after it, which only the last operator may lack. -/
inductive Linked : List Token → Prop
  | nil : Linked []
  | last (op : Operator) : Linked [.operator op]
  | cons (op : Operator) {text : List Char} {tokens : List Token} :
    IsOperand text → Linked tokens → Linked (.operator op :: .operand text :: tokens)

inductive Alternating : List Token → Prop
  | operand {text : List Char} {tokens : List Token} :
    IsOperand text → Linked tokens → Alternating (.operand text :: tokens)

theorem scan_cons (c : Char) (text : List Char) : scan (c :: text) = scanFrom [c] text := by
  rw [scan, scanFrom]
  cases Operator.ofChar? c <;> rfl

theorem scanFrom_append {text : List Char} (h : ∀ c ∈ text, Operator.ofChar? c = none)
    (pending rest : List Char) :
    scanFrom pending (text ++ rest) = scanFrom (text.reverse ++ pending) rest := by
  induction text generalizing pending with
  | nil => rfl
  | cons c text ih =>
    rw [List.cons_append, scanFrom, h c List.mem_cons_self]
    simp only
    rw [ih fun d hd => h d (List.mem_cons_of_mem c hd)]
    simp

theorem scan_append {text : List Char} (h : IsOperand text) (rest : List Char) :
    scan (text ++ rest) = scanFrom text.reverse rest := by
  cases text with
  | nil => exact absurd rfl h.ne_nil
  | cons c text =>
    have hrest : ∀ d ∈ text, Operator.ofChar? d = none := h.not_sign
    rw [List.cons_append, scan_cons, scanFrom_append hrest, List.reverse_cons]

theorem scanFrom_operator {pending : List Char} (h : pending ≠ []) (op : Operator)
    (text : List Char) :
    scanFrom pending (op.toChar :: text) =
      .operand pending.reverse :: .operator op :: scan text := by
  rw [scanFrom, Operator.ofChar?_eq_some_iff.2 rfl]
  simp only [if_neg h]
  rfl

theorem Alternating.linked {tokens : List Token} (h : Alternating tokens) (op : Operator) :
    Linked (.operator op :: tokens) := by
  cases h with
  | operand htext htokens => exact .cons op htext htokens

theorem isOperand_singleton (c : Char) : IsOperand [c] := ⟨List.cons_ne_nil _ _, by simp⟩

theorem IsOperand.concat {text : List Char} (h : IsOperand text) {c : Char}
    (hc : Operator.ofChar? c = none) : IsOperand (text ++ [c]) := by
  constructor
  · simp
  · intro d hd
    rw [List.tail_append_of_ne_nil h.ne_nil, List.mem_append, List.mem_singleton] at hd
    rcases hd with hd | rfl
    · exact h.not_sign d hd
    · exact hc

theorem alternating_scanFrom (text : List Char) :
    (∀ pending, IsOperand pending.reverse → Alternating (scanFrom pending text)) ∧
      ∀ op, Linked (.operator op :: scan text) := by
  -- A sign leads from the first statement to the second, the character after it back to the first.
  induction text with
  | nil =>
    constructor
    · intro pending h
      have hne : pending ≠ [] := by simpa using h.ne_nil
      rw [scanFrom, if_neg hne]
      exact .operand h .nil
    · exact .last
  | cons c text ih =>
    obtain ⟨ihpending, ihlinked⟩ := ih
    constructor
    · intro pending h
      cases hc : Operator.ofChar? c with
      | none =>
        have hnext : IsOperand (c :: pending).reverse := by
          rw [List.reverse_cons]
          exact h.concat hc
        rw [scanFrom, hc]
        exact ihpending _ hnext
      | some op =>
        have hne : pending ≠ [] := by simpa using h.ne_nil
        rw [Operator.ofChar?_eq_some_iff.1 hc, scanFrom_operator hne]
        exact .operand h (ihlinked op)
    · intro op
      rw [scan_cons]
      exact (ihpending [c] (isOperand_singleton c)).linked op

theorem alternating_scan {text : List Char} (h : text ≠ []) : Alternating (scan text) := by
  cases text with
  | nil => exact absurd rfl h
  | cons c text =>
    rw [scan_cons]
    exact (alternating_scanFrom text).1 [c] (isOperand_singleton c)

theorem Linked.scanFrom_flatMap_toChars {tokens : List Token} (h : Linked tokens)
    {pending : List Char} (hne : pending ≠ []) :
    scanFrom pending (tokens.flatMap toChars) = .operand pending.reverse :: tokens := by
  induction h generalizing pending with
  | nil => rw [List.flatMap_nil, scanFrom, if_neg hne]
  | last op =>
    rw [List.flatMap_cons, toChars, List.singleton_append, scanFrom_operator hne]
    rfl
  | @cons op text tokens htext _ ih =>
    have hreverse : text.reverse ≠ [] := by simpa using htext.ne_nil
    rw [List.flatMap_cons, toChars, List.singleton_append, scanFrom_operator hne,
      List.flatMap_cons, toChars, scan_append htext, ih hreverse, List.reverse_reverse]

theorem Alternating.scan_flatMap_toChars {tokens : List Token} (h : Alternating tokens) :
    scan (tokens.flatMap toChars) = tokens := by
  cases h with
  | @operand text tokens htext htokens =>
    have hreverse : text.reverse ≠ [] := by simpa using htext.ne_nil
    rw [List.flatMap_cons, toChars, scan_append htext, htokens.scanFrom_flatMap_toChars hreverse,
      List.reverse_reverse]

end WindowLayout.Token
