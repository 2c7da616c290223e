import Mathlib
import WindowLayout.Proofs.Expr.Alternation
import WindowLayout.Proofs.Expr.Spelling

/-! An expression is read from the texts of its terms joined by operators, in one way only. -/

namespace List

theorem Forall₂.forall_left {R : α → β → Prop} {P : α → Prop} {l : List α} {u : List β}
    (h : Forall₂ R l u) (himp : ∀ a b, R a b → P a) : ∀ a ∈ l, P a := by
  induction h with
  | nil => simp
  | cons hab _ ih => exact forall_mem_cons.2 ⟨himp _ _ hab, ih⟩

end List

namespace Except

theorem bind_eq_ok_iff {x : Except ε α} {next : α → Except ε β} {b : β} :
    x >>= next = .ok b ↔ ∃ a, x = .ok a ∧ next a = .ok b := by
  cases x with
  | error e => simp [bind, Except.bind]
  | ok a => simp [bind, Except.bind]

end Except

namespace WindowLayout

structure Operands : Type where
  first : List Char
  rest : List (Operator × List Char)
  deriving DecidableEq

namespace Operands

def linkTokens (rest : List (Operator × List Char)) : List Token :=
  rest.flatMap fun part => [.operator part.1, .operand part.2]

def linkChars (rest : List (Operator × List Char)) : List Char :=
  rest.flatMap fun part => part.1.toChar :: part.2

def linkTexts (rest : List (Operator × List Char)) : List (List Char) :=
  rest.flatMap fun part => [[part.1.toChar], part.2]

def toTokens (o : Operands) : List Token := .operand o.first :: linkTokens o.rest

def toTexts (o : Operands) : List (List Char) := o.first :: linkTexts o.rest

def toChars (o : Operands) : List Char := o.first ++ linkChars o.rest

theorem flatMap_toChars_toTokens (o : Operands) : o.toTokens.flatMap Token.toChars = o.toChars := by
  simp [toTokens, toChars, linkTokens, linkChars, List.flatMap_assoc, Token.toChars]

theorem map_toChars_toTokens (o : Operands) : o.toTokens.map Token.toChars = o.toTexts := by
  simp [toTokens, toTexts, linkTokens, linkTexts, List.map_flatMap, Token.toChars]

theorem flatten_toTexts (o : Operands) : o.toTexts.flatten = o.toChars := by
  rw [← map_toChars_toTokens, ← List.flatMap_def, flatMap_toChars_toTokens]

theorem linkTokens_injective : Function.Injective linkTokens := by
  intro rest rest' h
  induction rest generalizing rest' with
  | nil =>
    cases rest' with
    | nil => rfl
    | cons part rest' => simp [linkTokens] at h
  | cons part rest ih =>
    cases rest' with
    | nil => simp [linkTokens] at h
    | cons part' rest' =>
      simp only [linkTokens, List.flatMap_cons, List.cons_append, List.nil_append,
        List.cons.injEq, Token.operator.injEq, Token.operand.injEq] at h
      obtain ⟨hop, htext, hrest⟩ := h
      rw [Prod.ext hop htext, ih hrest]

theorem toTokens_injective : Function.Injective toTokens := by
  intro o o' h
  obtain ⟨hfirst, hrest⟩ := List.cons.inj h
  cases o
  cases o'
  congr
  · exact Token.operand.inj hfirst
  · exact linkTokens_injective hrest

theorem linked_linkTokens_append {rest : List (Operator × List Char)} {tokens : List Token}
    (h : ∀ part ∈ rest, Token.IsOperand part.2) (htokens : Token.Linked tokens) :
    Token.Linked (linkTokens rest ++ tokens) := by
  induction rest with
  | nil => exact htokens
  | cons part rest ih =>
    obtain ⟨hpart, hrest⟩ := List.forall_mem_cons.1 h
    exact .cons part.1 hpart (ih hrest)

theorem linked_linkTokens {rest : List (Operator × List Char)}
    (h : ∀ part ∈ rest, Token.IsOperand part.2) : Token.Linked (linkTokens rest) := by
  rw [← List.append_nil (linkTokens rest)]
  exact linked_linkTokens_append h .nil

theorem scan_toChars {o : Operands} (hfirst : Token.IsOperand o.first)
    (hrest : ∀ part ∈ o.rest, Token.IsOperand part.2) : Token.scan o.toChars = o.toTokens := by
  have h : Token.Alternating o.toTokens := .operand hfirst (linked_linkTokens hrest)
  rw [← o.flatMap_toChars_toTokens, h.scan_flatMap_toChars]

def SpellsLink (part : Operator × List Char) (link : Link) : Prop :=
  part.1 = link.1 ∧ Term.Spells part.2 link.2

structure Spells (o : Operands) (c : Chain) : Prop where
  first : Term.Spells o.first c.first
  rest : List.Forall₂ SpellsLink o.rest c.rest

end Operands

@[simp] theorem Operator.parse_singleton (op : Operator) :
    Operator.parse (.singleton op.toChar) = .ok op := by
  cases op <;> rfl

theorem Operator.eq_singleton_of_parse {text : List Char} {op : Operator}
    (h : Operator.parse (.ofList text) = .ok op) : text = [op.toChar] := by
  rw [Operator.parse, String.toList_ofList] at h
  split at h
  · rename_i c
    cases hc : Operator.ofChar? c with
    | none => simp [hc] at h
    | some op' =>
      rw [hc] at h
      cases h
      rw [Operator.ofChar?_eq_some_iff.1 hc]
  · cases h

namespace Chain

open Operands (SpellsLink linkTexts)

@[simp] theorem parseLinks_nil : parseLinks [] = .ok [] := rfl

theorem parseLinks_operator (op : Operator) :
    parseLinks [[op.toChar]] = .error (.incompleteExpression (.singleton op.toChar)) := by
  rw [parseLinks, ← String.singleton_eq_ofList, Operator.parse_singleton]
  rfl

theorem parseLinks_operator_cons (op : Operator) (text : List Char) (texts : List (List Char)) :
    parseLinks ([op.toChar] :: text :: texts) = do
      let t ← Term.parse text
      return (op, t) :: (← parseLinks texts) := by
  rw [parseLinks, ← String.singleton_eq_ofList, Operator.parse_singleton]
  rfl

theorem parseLinks_linkTexts {rest : List (Operator × List Char)} {links : List Link}
    (h : List.Forall₂ SpellsLink rest links) : parseLinks (linkTexts rest) = .ok links := by
  induction h with
  | nil => rfl
  | @cons part link rest links hlink _ ih =>
    obtain ⟨op, text⟩ := part
    obtain ⟨op', t⟩ := link
    obtain ⟨rfl, htext⟩ := hlink
    have hcons : linkTexts ((op, text) :: rest) = [op.toChar] :: text :: linkTexts rest := rfl
    rw [hcons, parseLinks_operator_cons, Term.parse_eq_ok_iff.2 htext, ih]
    rfl

theorem exists_of_parseLinks {texts : List (List Char)} {links : List Link}
    (h : parseLinks texts = .ok links) :
    ∃ rest, linkTexts rest = texts ∧ List.Forall₂ SpellsLink rest links := by
  fun_induction parseLinks texts generalizing links with
  | case1 =>
    cases h
    exact ⟨[], rfl, .nil⟩
  | case2 sign =>
    obtain ⟨_, _, h⟩ := Except.bind_eq_ok_iff.1 h
    cases h
  | case3 sign text texts ih =>
    obtain ⟨op, hsign, h⟩ := Except.bind_eq_ok_iff.1 h
    obtain ⟨t, htext, h⟩ := Except.bind_eq_ok_iff.1 h
    obtain ⟨links, htexts, h⟩ := Except.bind_eq_ok_iff.1 h
    cases h
    obtain rfl := Operator.eq_singleton_of_parse hsign
    obtain ⟨rest, rfl, hrest⟩ := ih htexts
    exact ⟨(op, text) :: rest, rfl, .cons ⟨rfl, Term.parse_eq_ok_iff.1 htext⟩ hrest⟩

theorem parse_eq_ok_iff {texts : List (List Char)} {c : Chain} :
    parse texts = .ok c ↔ ∃ o : Operands, o.toTexts = texts ∧ o.Spells c := by
  constructor
  · intro h
    cases texts with
    | nil => cases h
    | cons text texts =>
      obtain ⟨t, htext, h⟩ := Except.bind_eq_ok_iff.1 h
      obtain ⟨links, htexts, h⟩ := Except.bind_eq_ok_iff.1 h
      cases h
      obtain ⟨rest, rfl, hrest⟩ := exists_of_parseLinks htexts
      exact ⟨⟨text, rest⟩, rfl, Term.parse_eq_ok_iff.1 htext, hrest⟩
  · rintro ⟨o, rfl, h⟩
    rw [Operands.toTexts, parse, Term.parse_eq_ok_iff.2 h.first, parseLinks_linkTexts h.rest]
    rfl

end Chain

namespace Term

theorem ofChar?_of_isDigit {c : Char} (h : c.isDigit) : Operator.ofChar? c = none := by
  rw [Operator.ofChar?, if_neg, if_neg]
  · rintro rfl
    simp at h
  · rintro rfl
    simp at h

theorem not_sign_of_numeral {text : List Char} {x : Decimal} (h : Decimal.Numeral text x) :
    ∀ c ∈ text, Operator.ofChar? c = none := by
  intro c hc
  rcases h.isDigit_or_point c hc with hdigit | rfl
  · exact ofChar?_of_isDigit hdigit
  · rfl

namespace Spells

variable {text : List Char} {t : Term}

theorem not_sign (h : Spells text t) : ∀ c ∈ text, Operator.ofChar? c = none := by
  cases h with
  | zero => simp [Operator.ofChar?]
  | fraction hn hd =>
    rw [List.forall_mem_append, List.forall_mem_cons]
    refine ⟨?_, rfl, ?_⟩
    · intro c hc
      exact ofChar?_of_isDigit (hn.isDigit c hc)
    · intro c hc
      exact ofChar?_of_isDigit (hd.isDigit c hc)
  | percentage hx _ =>
    rw [List.forall_mem_append]
    exact ⟨not_sign_of_numeral hx, by simp [Operator.ofChar?]⟩
  | pixels hx _ =>
    rw [List.forall_mem_append]
    exact ⟨not_sign_of_numeral hx, by simp [Operator.ofChar?]⟩

theorem ne_nil (h : Spells text t) : text ≠ [] := by
  cases h <;> simp

theorem isOperand (h : Spells text t) : Token.IsOperand text :=
  ⟨h.ne_nil, fun c hc => h.not_sign c (List.mem_of_mem_tail hc)⟩

end Spells

end Term

theorem Operands.Spells.scan_toChars {o : Operands} {c : Chain} (h : o.Spells c) :
    Token.scan o.toChars = o.toTokens := by
  apply Operands.scan_toChars h.first.isOperand
  refine h.rest.forall_left ?_
  intro part link hlink
  exact hlink.2.isOperand

namespace Chain

theorem ofTokens_scan_eq_ok_iff {text : List Char} {c : Chain} :
    ofTokens (Token.scan text) = .ok c ↔ ∃ o : Operands, o.toChars = text ∧ o.Spells c := by
  rw [ofTokens, parse_eq_ok_iff]
  constructor
  · rintro ⟨o, htexts, ho⟩
    refine ⟨o, ?_, ho⟩
    rw [← o.flatten_toTexts, htexts, ← List.flatMap_def, Token.flatMap_toChars_scan]
  · rintro ⟨o, rfl, ho⟩
    refine ⟨o, ?_, ho⟩
    rw [ho.scan_toChars, o.map_toChars_toTokens]

/-- Every new term is joined on the right with all that stands before it. -/
inductive Joins : Chain → Expr → Prop
  | term (t : Term) : Joins ⟨t, []⟩ (.term t)
  | binary {t u : Term} {links : List Link} {left : Expr} (op : Operator) :
    Joins ⟨t, links⟩ left → Joins ⟨t, links ++ [(op, u)]⟩ (.binary left op (.term u))

theorem joins_toExpr (c : Chain) : c.Joins c.toExpr := by
  obtain ⟨t, links⟩ := c
  induction links using List.reverseRecOn with
  | nil => exact .term t
  | append_singleton links link ih =>
    rw [toExpr, Expr.extend_append]
    exact .binary link.1 ih

theorem joins_iff {c : Chain} {e : Expr} : c.Joins e ↔ c.toExpr = e := by
  constructor
  · intro h
    induction h with
    | term t => rfl
    | @binary t u links left op _ ih =>
      rw [toExpr, Expr.extend_append, ← ih]
      rfl
  · rintro rfl
    exact c.joins_toExpr

end Chain

namespace Expr

theorem parse_eq_ok_iff {s : String} {e : Expr} :
    parse s = .ok e ↔
      ∃ c, Chain.ofTokens (Token.scan (Text.withoutBlanks s.toList)) = .ok c ∧ c.toExpr = e := by
  rw [parse, parseChars]
  cases Chain.ofTokens (Token.scan (Text.withoutBlanks s.toList)) <;> simp [Except.map]

theorem parse_eq_ok_iff_spells {s : String} {e : Expr} :
    parse s = .ok e ↔
      ∃ (o : Operands) (c : Chain),
        o.toChars = Text.withoutBlanks s.toList ∧ o.Spells c ∧ c.toExpr = e := by
  rw [parse_eq_ok_iff]
  constructor
  · rintro ⟨c, hc, he⟩
    obtain ⟨o, ho, hspells⟩ := Chain.ofTokens_scan_eq_ok_iff.1 hc
    exact ⟨o, c, ho, hspells, he⟩
  · rintro ⟨o, c, ho, hspells, he⟩
    exact ⟨c, Chain.ofTokens_scan_eq_ok_iff.2 ⟨o, ho, hspells⟩, he⟩

end Expr

end WindowLayout
