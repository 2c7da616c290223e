import Mathlib
import WindowLayout.Proofs.Expr.Rejection

namespace WindowLayout

namespace Token

variable {tokens more : List Token} {e : ParseError}

theorem scanFrom_prefix_append (pending text : List Char) (op : Operator) (rest : List Char) :
    scanFrom pending text <+: scanFrom pending (text ++ op.toChar :: rest) := by
  induction text generalizing pending with
  | nil =>
    rcases eq_or_ne pending [] with rfl | hne
    · exact List.nil_prefix
    · rw [List.nil_append, scanFrom_operator hne, scanFrom, if_neg hne]
      exact ⟨_, List.singleton_append⟩
  | cons c text ih =>
    rw [List.cons_append, scanFrom, scanFrom]
    split
    · exact ih _
    · split
      · exact ih _
      · exact List.prefix_cons_inj _ |>.2 (List.prefix_cons_inj _ |>.2 (ih _))

theorem allSpelled_append : AllSpelled (tokens ++ more) ↔ AllSpelled tokens ∧ AllSpelled more := by
  simp [AllSpelled, or_imp, forall_and]

theorem Rejects.append_left (h : Rejects more e) (htokens : AllSpelled tokens) :
    Rejects (tokens ++ more) e := by
  cases h with
  | operand hbefore htext =>
    rw [← List.append_assoc]
    exact .operand (allSpelled_append.2 ⟨htokens, hbefore⟩) htext
  | operator hbefore =>
    rw [← List.append_assoc]
    exact .operator (allSpelled_append.2 ⟨htokens, hbefore⟩)

theorem Rejects.mono (h : Rejects tokens e) (hne : ∀ text, e ≠ .incompleteExpression text)
    (hstart : tokens <+: more) : Rejects more e := by
  obtain ⟨tail, rfl⟩ := hstart
  cases h with
  | operand hbefore htext =>
    rw [List.append_assoc, List.cons_append]
    exact .operand hbefore htext
  | operator => exact absurd rfl (hne _)

end Token

namespace Operands

variable {o o' : Operands} {c c' : Chain}

def join (o : Operands) (op : Operator) (o' : Operands) : Operands :=
  ⟨o.first, o.rest ++ (op, o'.first) :: o'.rest⟩

theorem toChars_join (o : Operands) (op : Operator) (o' : Operands) :
    (o.join op o').toChars = o.toChars ++ op.toChar :: o'.toChars := by
  simp [join, toChars, linkChars]

theorem Spells.join (h : o.Spells c) (op : Operator) (h' : o'.Spells c') :
    (o.join op o').Spells ⟨c.first, c.rest ++ (op, c'.first) :: c'.rest⟩ := by
  constructor
  · exact h.first
  · exact List.rel_append h.rest (.cons ⟨rfl, h'.first⟩ h'.rest)

theorem Spells.allSpelled (h : o.Spells c) : Token.AllSpelled o.toTokens := by
  intro text htext
  rw [toTokens, List.mem_cons, Token.operand.injEq, linkTokens, List.mem_flatMap] at htext
  rcases htext with rfl | ⟨part, hpart, hmem⟩
  · exact ⟨_, h.first⟩
  · have hspelled : ∀ part ∈ o.rest, Term.Spelled part.2 := by
      refine h.rest.forall_left ?_
      intro part link hlink
      exact ⟨link.2, hlink.2⟩
    simp only [List.mem_cons, reduceCtorEq, Token.operand.injEq, List.not_mem_nil, or_false,
      false_or] at hmem
    rw [hmem]
    exact hspelled part hpart

theorem Spells.scan_append (h : o.Spells c) (op : Operator) (rest : List Char) :
    Token.scan (o.toChars ++ op.toChar :: rest) =
      o.toTokens ++ .operator op :: Token.scan rest := by
  have hlinked : Token.Linked (linkTokens o.rest ++ .operator op :: Token.scan rest) := by
    apply linked_linkTokens_append
    · refine h.rest.forall_left ?_
      intro part link hlink
      exact hlink.2.isOperand
    · exact (Token.alternating_scanFrom rest).2 op
  have halternating : Token.Alternating (o.toTokens ++ .operator op :: Token.scan rest) :=
    .operand h.first.isOperand hlinked
  have hscan := halternating.scan_flatMap_toChars
  rwa [List.flatMap_append, flatMap_toChars_toTokens, List.flatMap_cons,
    Token.flatMap_toChars_scan] at hscan

end Operands

namespace Expr

theorem withoutBlanks_join (a b : String) (op : Operator) :
    Text.withoutBlanks (a ++ String.singleton op.toChar ++ b).toList =
      Text.withoutBlanks a.toList ++ op.toChar :: Text.withoutBlanks b.toList := by
  have hop : Text.isBlank op.toChar = false := by cases op <;> decide
  simp [Text.withoutBlanks, hop]

variable {a b : String} {e e' : Expr} {op : Operator} {fault : ParseError}

theorem parse_join_of_ok (ha : parse a = .ok e) (hb : parse b = .ok e') :
    ∃ c : Chain, c.toExpr = e' ∧
      parse (a ++ String.singleton op.toChar ++ b) =
        .ok (e.extend ((op, c.first) :: c.rest)) := by
  obtain ⟨o, c, ho, hspells, rfl⟩ := parse_eq_ok_iff_spells.1 ha
  obtain ⟨o', c', ho', hspells', rfl⟩ := parse_eq_ok_iff_spells.1 hb
  refine ⟨c', rfl, parse_eq_ok_iff_spells.2
    ⟨o.join op o', _, ?_, hspells.join op hspells', ?_⟩⟩
  · rw [Operands.toChars_join, ho, ho', withoutBlanks_join]
  · exact extend_append _ _ _

theorem exists_tokens_join (ha : parse a = .ok e) (b : String) (op : Operator) :
    ∃ before, Token.AllSpelled before ∧
      tokens (a ++ String.singleton op.toChar ++ b) = before ++ .operator op :: tokens b := by
  obtain ⟨o, c, ho, hspells, -⟩ := parse_eq_ok_iff_spells.1 ha
  refine ⟨o.toTokens, hspells.allSpelled, ?_⟩
  rw [tokens, withoutBlanks_join, ← ho, hspells.scan_append, tokens]

theorem parse_join_of_blank (ha : parse a = .ok e) (hb : parse b = .error .empty) :
    parse (a ++ String.singleton op.toChar ++ b) =
      .error (.incompleteExpression (.singleton op.toChar)) := by
  obtain ⟨before, hbefore, htokens⟩ := exists_tokens_join ha b op
  have hblank : tokens b = [] := by
    rcases parse_eq_error_iff_rejects.1 hb with ⟨hempty, -⟩ | h
    · rw [tokens, hempty]
      rfl
    · exact absurd rfl h.ne.1
  rw [parse_eq_error_iff_rejects, htokens, hblank]
  exact .inr (.operator hbefore)

theorem parse_join_of_error (ha : parse a = .ok e) (hb : parse b = .error fault)
    (hne : fault ≠ .empty) :
    parse (a ++ String.singleton op.toChar ++ b) = .error fault := by
  obtain ⟨before, hbefore, htokens⟩ := exists_tokens_join ha b op
  have hrejects := (parse_eq_error_iff_rejects.1 hb).resolve_left fun h => hne h.2
  have hoperator := (hrejects.cons (Token.allSpelled_operator op)).append_left hbefore
  rw [parse_eq_error_iff_rejects, htokens]
  exact .inr hoperator

theorem parse_join_of_left_error (b : String) (op : Operator) (ha : parse a = .error fault)
    (hne : fault ≠ .empty) (hoperator : ∀ text, fault ≠ .incompleteExpression text) :
    parse (a ++ String.singleton op.toChar ++ b) = .error fault := by
  have hrejects := (parse_eq_error_iff_rejects.1 ha).resolve_left fun h => hne h.2
  have hstart : tokens a <+: tokens (a ++ String.singleton op.toChar ++ b) := by
    rw [tokens, tokens, withoutBlanks_join]
    exact Token.scanFrom_prefix_append _ _ _ _
  exact parse_eq_error_iff_rejects.2 (.inr (hrejects.mono hoperator hstart))

/-- Two texts joined by an operator. If the left one is read, then the terms of the right one are
appended one by one, the first after the operator; a right one that is not read is at fault in the
same way, and if it is blank the operator lacks its operand. If an operand of the left one is at
fault, then the right one does not matter. -/
theorem parse_join (a b : String) (op : Operator) :
    let joined := a ++ String.singleton op.toChar ++ b
    (∀ e, parse a = .ok e →
      (parse b = .error .empty →
        parse joined = .error (.incompleteExpression (.singleton op.toChar))) ∧
      (∀ fault, parse b = .error fault → fault ≠ .empty → parse joined = .error fault) ∧
      ∀ e', parse b = .ok e' →
        ∃ c : Chain, c.toExpr = e' ∧ parse joined = .ok (e.extend ((op, c.first) :: c.rest))) ∧
    ∀ fault, parse a = .error fault → fault ≠ .empty →
      (∀ text, fault ≠ .incompleteExpression text) → parse joined = .error fault := by
  intro joined
  constructor
  · intro e ha
    refine ⟨parse_join_of_blank ha, ?_, ?_⟩
    · intro fault hb hne
      exact parse_join_of_error ha hb hne
    · intro e' hb
      exact parse_join_of_ok ha hb
  · intro fault ha hne hoperator
    exact parse_join_of_left_error b op ha hne hoperator

theorem parse_join_fractions :
    let half := Expr.term (.fraction 1 2)
    (parse "1/2" = .ok half ∧ parse " " = .error .empty ∧
      parse ("1/2" ++ String.singleton '-' ++ " ") = .error (.incompleteExpression "-")) ∧
      (parse "-1/3" = .error (.invalidFraction "-1/3") ∧
        parse ("1/2" ++ String.singleton '-' ++ "-1/3") = .error (.invalidFraction "-1/3")) ∧
      (parse "0 + 1/3" = .ok (.binary (.term .zero) .add (.term (.fraction 1 3))) ∧
        ∃ c : Chain, c.toExpr = .binary (.term .zero) .add (.term (.fraction 1 3)) ∧
          parse ("1/2" ++ String.singleton '-' ++ "0 + 1/3") =
            .ok (half.extend ((.subtract, c.first) :: c.rest))) ∧
      parse "1/0 +" = .error (.divisionByZero "1/0") ∧
      parse ("1/0 +" ++ String.singleton '-' ++ "+") = .error (.divisionByZero "1/0") := by
  have hhalf : parse "1/2" = .ok (.term (.fraction 1 2)) := by decide +kernel
  have hblank : parse " " = .error .empty := by decide +kernel
  have hsigned : parse "-1/3" = .error (.invalidFraction "-1/3") := by decide +kernel
  have hsum : parse "0 + 1/3" = .ok (.binary (.term .zero) .add (.term (.fraction 1 3))) := by
    decide +kernel
  have hzero : parse "1/0 +" = .error (.divisionByZero "1/0") := by decide +kernel
  refine ⟨⟨hhalf, hblank, ?_⟩, ⟨hsigned, ?_⟩, ⟨hsum, ?_⟩, hzero, ?_⟩
  · exact ((parse_join "1/2" " " .subtract).1 _ hhalf).1 hblank
  · exact ((parse_join "1/2" "-1/3" .subtract).1 _ hhalf).2.1 _ hsigned nofun
  · exact ((parse_join "1/2" "0 + 1/3" .subtract).1 _ hhalf).2.2 _ hsum
  · exact (parse_join "1/0 +" "+" .subtract).2 _ hzero nofun nofun

end Expr

end WindowLayout
