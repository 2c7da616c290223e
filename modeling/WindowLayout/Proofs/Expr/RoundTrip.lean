import Mathlib
import WindowLayout.Proofs.Expr.Canonical

namespace WindowLayout

namespace Chain

def All (P : Term → Prop) (c : Chain) : Prop := P c.first ∧ ∀ link ∈ c.rest, P link.2

def operands (c : Chain) : Operands :=
  ⟨c.first.toChars, c.rest.map fun link => (link.1, link.2.toChars)⟩

theorem All.imp {P Q : Term → Prop} {c : Chain} (h : c.All P) (himp : ∀ t, P t → Q t) :
    c.All Q := by
  constructor
  · exact himp _ h.1
  · intro link hlink
    exact himp _ (h.2 link hlink)

theorem spells_operands {c : Chain} (h : c.All Term.IsCanonical) : c.operands.Spells c := by
  constructor
  · exact h.1.spells
  · rw [operands, List.forall₂_map_left_iff, List.forall₂_same]
    intro link hlink
    exact ⟨rfl, (h.2 link hlink).spells⟩

theorem all_of_spells_operands {c c' : Chain} (h : c.operands.Spells c') :
    c.All fun t => ∃ u, Term.Spells t.toChars u := by
  constructor
  · exact ⟨_, h.first⟩
  · have hrest := h.rest
    rw [operands, List.forall₂_map_left_iff] at hrest
    refine hrest.forall_left ?_
    intro link link' hlink
    exact ⟨_, hlink.2⟩

theorem all_of_spells {o : Operands} {c : Chain} (h : o.Spells c) : c.All Term.IsCanonical := by
  constructor
  · exact h.first.isCanonical
  · refine h.rest.flip.forall_left ?_
    intro link part hlink
    exact hlink.2.isCanonical

theorem scan_operands {c : Chain} (h : c.All fun t => Token.IsOperand t.toChars) :
    Token.scan c.operands.toChars = c.operands.toTokens := by
  apply Operands.scan_toChars h.1
  intro part hpart
  obtain ⟨link, hlink, rfl⟩ := List.mem_map.1 hpart
  exact h.2 link hlink

end Chain

namespace Expr

theorem all_toChain_binary {P : Term → Prop} {left right : Expr} {op : Operator} :
    (binary left op right).toChain.All P ↔ left.toChain.All P ∧ right.toChain.All P := by
  simp only [Chain.All, toChain, List.forall_mem_append, List.forall_mem_cons]
  exact and_assoc.symm

/-- Every right operand is a term, and all terms have the property. -/
inductive Linear (P : Term → Prop) : Expr → Prop
  | term {t : Term} : P t → Linear P (.term t)
  | binary {left : Expr} {op : Operator} {t : Term} :
    Linear P left → P t → Linear P (.binary left op (.term t))

namespace Linear

variable {P Q : Term → Prop} {e e' : Expr}

theorem toExpr_toChain (h : Linear P e) : e.toChain.toExpr = e := by
  induction h with
  | term _ => rfl
  | @binary left op t _ _ ih =>
    calc
      (Expr.binary left op (.term t)).toChain.toExpr =
          left.toChain.toExpr.extend [(op, t)] := extend_append _ _ _
      _ = Expr.binary left op (.term t) := by rw [ih]; rfl

theorem all_toChain (h : Linear P e) : e.toChain.All P := by
  induction h with
  | term ht => exact ⟨ht, by simp [toChain]⟩
  | binary _ ht ih => exact all_toChain_binary.2 ⟨ih, ht, by simp [toChain]⟩

theorem extend {links : List Link} (h : Linear P e) (hlinks : ∀ link ∈ links, P link.2) :
    Linear P (e.extend links) := by
  induction links generalizing e with
  | nil => exact h
  | cons link links ih =>
    obtain ⟨op, t⟩ := link
    exact ih (h.binary (hlinks (op, t) List.mem_cons_self))
      fun link hlink => hlinks link (List.mem_cons_of_mem _ hlink)

theorem of_all {c : Chain} (h : c.All P) : Linear P c.toExpr :=
  (Linear.term h.1).extend h.2

theorem of_equal (h : Linear P e) (hequal : e.equal e')
    (hterm : ∀ t u, P t → t.equal u → Q u) : Linear Q e' := by
  induction h generalizing e' with
  | term ht =>
    cases e' with
    | term u => exact .term (hterm _ u ht hequal)
    | binary => cases hequal
  | binary _ ht ih =>
    cases e' with
    | term => cases hequal
    | binary left' op' right' =>
      simp only [equal, Bool.and_eq_true, decide_eq_true_eq] at hequal
      obtain ⟨⟨hleft, -⟩, hright⟩ := hequal
      cases right' with
      | term u => exact .binary (ih hleft) (hterm _ u ht hright)
      | binary => cases hright

theorem equal_self (h : Linear Term.IsCanonical e) : e.equal e := by
  induction h with
  | term ht => exact ht.equal_self
  | binary _ ht ih => simp [equal, ih, ht.equal_self]

end Linear

theorem withoutBlanks_toChars (e : Expr) :
    Text.withoutBlanks e.toChars = e.toChain.operands.toChars := by
  induction e with
  | term t =>
    rw [toChars, Text.withoutBlanks_of_printable t.isPrintable_toChars]
    exact (List.append_nil _).symm
  | binary left op right ihl ihr =>
    have hop : Text.isBlank op.toChar = false := by cases op <;> decide
    have hblank : Text.isBlank ' ' = true := by decide
    calc
      Text.withoutBlanks (binary left op right).toChars =
          Text.withoutBlanks left.toChars ++ op.toChar :: Text.withoutBlanks right.toChars := by
        simp [toChars, Text.withoutBlanks, hop, hblank]
      _ = left.toChain.operands.toChars ++ op.toChar :: right.toChain.operands.toChars := by
        rw [ihl, ihr]
      _ = (binary left op right).toChain.operands.toChars := by
        simp [toChain, Chain.operands, Operands.toChars, Operands.linkChars]

theorem parse_toString_eq_ok_iff {t e : Expr} :
    parse t.toString = .ok e ↔
      ∃ (o : Operands) (c : Chain),
        o.toChars = t.toChain.operands.toChars ∧ o.Spells c ∧ c.toExpr = e := by
  rw [parse_eq_ok_iff_spells, toString, String.toList_ofList, withoutBlanks_toChars]

theorem parse_toString_of_all {e : Expr} (h : e.toChain.All Term.IsCanonical) :
    parse e.toString = .ok e.toChain.toExpr :=
  parse_toString_eq_ok_iff.2
    ⟨e.toChain.operands, e.toChain, rfl, Chain.spells_operands h, rfl⟩

theorem parse_toString {e : Expr} (h : e.Linear Term.IsCanonical) :
    parse e.toString = .ok e := by
  rw [parse_toString_of_all h.all_toChain, h.toExpr_toChain]

theorem linear_of_parse {s : String} {e : Expr} (h : parse s = .ok e) :
    e.Linear Term.IsCanonical := by
  obtain ⟨o, c, -, hspells, rfl⟩ := parse_eq_ok_iff_spells.1 h
  exact .of_all (Chain.all_of_spells hspells)

theorem linear_of_parse_toString {t e : Expr} (h : parse t.toString = .ok e)
    (hequal : e.equal t) : t.Linear Term.IsCanonical := by
  have ht : t.Linear fun u => ∃ v : Term, v.IsCanonical ∧ v.equal u :=
    (linear_of_parse h).of_equal hequal fun v u hv hvu => ⟨v, hv, hvu⟩
  obtain ⟨o, c, htext, hspells, -⟩ := parse_toString_eq_ok_iff.1 h
  have hoperands : t.toChain.All fun u => Token.IsOperand u.toChars := by
    apply ht.all_toChain.imp
    rintro u ⟨v, hv, hvu⟩
    exact hv.isOperand_of_equal hvu
  have htokens : o.toTokens = t.toChain.operands.toTokens := by
    rw [← hspells.scan_toChars, htext, Chain.scan_operands hoperands]
  obtain rfl := Operands.toTokens_injective htokens
  have hall := Chain.all_of_spells_operands hspells
  rw [← ht.toExpr_toChain]
  apply Linear.of_all
  constructor
  · obtain ⟨v, hv, hvu⟩ := ht.all_toChain.1
    obtain ⟨w, hw⟩ := hall.1
    exact hv.of_equal_of_spells hvu hw
  · intro link hlink
    obtain ⟨v, hv, hvu⟩ := ht.all_toChain.2 link hlink
    obtain ⟨w, hw⟩ := hall.2 link hlink
    exact hv.of_equal_of_spells hvu hw

/-- An expression reads back equal to itself exactly if its terms are joined from left to right and
canonical; and what was read from any text reads back the same. -/
theorem reads_back_iff_linear :
    (∀ t : Expr, (∃ e, parse t.toString = .ok e ∧ e.equal t) ↔ t.Linear Term.IsCanonical) ∧
      ∀ (s : String) (e : Expr), parse s = .ok e → parse e.toString = .ok e := by
  constructor
  · intro t
    constructor
    · rintro ⟨e, h, hequal⟩
      exact linear_of_parse_toString h hequal
    · intro h
      exact ⟨t, parse_toString h, h.equal_self⟩
  · intro s e h
    exact parse_toString (linear_of_parse h)

end Expr

end WindowLayout
