import Mathlib
import WindowLayout.Expr.Token
import WindowLayout.Proofs.Expr.Rejection

/-! The token grammar and the scan split every text in the same way. -/

namespace WindowLayout

namespace Text.Grammar

variable {Name : Type} {p : Grammar Name} {s : List Char} {m m' : Option (Match Name)}

theorem Matches.unique (h : Matches p s m) (h' : Matches p s m') : m = m' := by
  induction h generalizing m' with
  | empty =>
    cases h'
    rfl
  | char _ hc =>
    cases h' with
    | char => rfl
    | char_other _ hother => simp [hc] at hother
  | char_other _ hc =>
    cases h' with
    | char _ hother => simp [hc] at hother
    | char_other => rfl
  | char_end =>
    cases h'
    rfl
  | seq _ _ ihp ihq =>
    cases h' with
    | seq hp hq =>
      cases ihp hp
      cases ihq hq
      rfl
    | seq_first hp => cases ihp hp
    | seq_second hp hq =>
      cases ihp hp
      cases ihq hq
  | seq_first _ ihp =>
    cases h' with
    | seq hp _ => cases ihp hp
    | seq_first => rfl
    | seq_second => rfl
  | seq_second _ _ ihp ihq =>
    cases h' with
    | seq hp hq =>
      cases ihp hp
      cases ihq hq
    | seq_first => rfl
    | seq_second => rfl
  | choice_first _ ihp =>
    cases h' with
    | choice_first hp => exact ihp hp
    | choice_second hp _ => cases ihp hp
  | choice_second _ _ ihp ihq =>
    cases h' with
    | choice_first hp => cases ihp hp
    | choice_second _ hq => exact ihq hq
  | many_end _ ihp =>
    cases h' with
    | many_end => rfl
    | many hp _ => cases ihp hp
  | many _ _ ihp ihmany =>
    cases h' with
    | many_end hp => cases ihp hp
    | many hp hmany =>
      cases ihp hp
      cases ihmany hmany
      rfl
  | absent _ ihp =>
    cases h' with
    | absent => rfl
    | absent_fails hp => cases ihp hp
  | absent_fails _ ihp =>
    cases h' with
    | absent hp => cases ihp hp
    | absent_fails => rfl
  | @named name p text xs r _ ihp =>
    generalize htext : text ++ r = s at h' ihp
    cases h' with
    | named hp =>
      cases ihp hp
      rw [List.append_cancel_right htext]
    | named_fails hp => cases ihp hp
  | named_fails _ ihp =>
    generalize htext : s = t at h' ihp
    cases h' with
    | named hp => cases ihp hp
    | named_fails => rfl

end Text.Grammar

namespace Token

open Text.Grammar (Matches)

namespace Kind

theorem sign_toChar (op : Operator) (s : List Char) :
    Matches sign (op.toChar :: s) (some ([], s)) := by
  cases op with
  | add => exact .choice_first (.char s rfl)
  | subtract => exact .choice_second (.char_other s rfl) (.char s rfl)

theorem sign_fails {c : Char} (h : Operator.ofChar? c = none) (s : List Char) :
    Matches sign (c :: s) none := by
  have hne (op : Operator) : (c == op.toChar) = false := by
    rw [beq_eq_false_iff_ne]
    intro hc
    rw [Operator.ofChar?_eq_some_iff.2 hc] at h
    cases h
  exact .choice_second (.char_other s (hne .add)) (.char_other s (hne .subtract))

theorem sign_nil : Matches sign [] none := .choice_second (.char_end _) (.char_end _)

theorem unsigned_cons {c : Char} (h : Operator.ofChar? c = none) (s : List Char) :
    Matches unsigned (c :: s) (some ([], s)) :=
  .seq (.absent (sign_fails h s)) (.char s rfl)

theorem unsigned_toChar (op : Operator) (s : List Char) : Matches unsigned (op.toChar :: s) none :=
  .seq_first (.absent_fails (sign_toChar op s))

theorem unsigned_nil : Matches unsigned [] none := .seq_second (.absent sign_nil) (.char_end _)

theorem many_unsigned {text rest : List Char} (h : ∀ c ∈ text, Operator.ofChar? c = none)
    (hrest : Matches unsigned rest none) :
    Matches (.many unsigned) (text ++ rest) (some ([], rest)) := by
  induction text with
  | nil => exact .many_end hrest
  | cons c text ih =>
    obtain ⟨hc, htext⟩ := List.forall_mem_cons.1 h
    exact .many (unsigned_cons hc _) (ih htext)

theorem operandRule_append {text rest : List Char} (h : IsOperand text)
    (hrest : Matches unsigned rest none) :
    Matches operandRule (text ++ rest) (some ([(.operand, text)], rest)) := by
  cases text with
  | nil => exact absurd rfl h.ne_nil
  | cons c text =>
    have hmany := many_unsigned h.not_sign hrest
    cases hc : Operator.ofChar? c with
    | none =>
      exact .named (.choice_second (.seq_first (sign_fails hc _))
        (.seq (unsigned_cons hc _) hmany))
    | some op =>
      rw [Operator.ofChar?_eq_some_iff.1 hc]
      exact .named (.choice_first (.seq (sign_toChar op _) hmany))

theorem operandRule_nil : Matches operandRule [] none :=
  .named_fails (.choice_second (.seq_first sign_nil) (.seq_first unsigned_nil))

theorem operatorRule_toChar (op : Operator) (s : List Char) :
    Matches operatorRule (op.toChar :: s) (some ([(.operator, [op.toChar])], s)) := by
  rw [← List.singleton_append]
  exact .named (sign_toChar op s)

theorem operatorRule_nil : Matches operatorRule [] none := .named_fails sign_nil

end Kind

def labelled (tokens : List Token) : List (Kind × List Char) :=
  tokens.map fun token => (token.kind, token.toChars)

theorem Linked.unsigned_fails {tokens : List Token} (h : Linked tokens) :
    Matches Kind.unsigned (tokens.flatMap toChars) none := by
  cases h with
  | nil => exact Kind.unsigned_nil
  | last op => exact Kind.unsigned_toChar op _
  | cons op => exact Kind.unsigned_toChar op _

theorem Linked.matches_many {tokens : List Token} (h : Linked tokens) :
    Matches (.many (.seq Kind.operatorRule (.optional Kind.operandRule)))
      (tokens.flatMap toChars) (some (labelled tokens, [])) := by
  have hend : Matches (.many (.seq Kind.operatorRule (.optional Kind.operandRule)))
      [] (some ([], [])) := .many_end (.seq_first Kind.operatorRule_nil)
  induction h with
  | nil => exact hend
  | last op =>
    exact .many (.seq (Kind.operatorRule_toChar op _)
      (.choice_second Kind.operandRule_nil (.empty _))) hend
  -- A sign or the end is next, so the operand takes no more than its own text.
  | cons op htext htokens ih =>
    exact .many (.seq (Kind.operatorRule_toChar op _)
      (.choice_first (Kind.operandRule_append htext htokens.unsigned_fails))) ih

theorem Alternating.matches_expressionRule {tokens : List Token} (h : Alternating tokens) :
    Matches Kind.expressionRule (tokens.flatMap toChars) (some (labelled tokens, [])) := by
  cases h with
  | operand htext htokens =>
    have hfinish : Matches (.finish : Text.Grammar Kind) [] (some ([], [])) := .absent (.char_end _)
    have hmatch := Matches.seq (Kind.operandRule_append htext htokens.unsigned_fails)
      (.seq htokens.matches_many hfinish)
    rw [List.append_nil] at hmatch
    exact hmatch

theorem matches_scan {text : List Char} (h : text ≠ []) :
    Matches Kind.expressionRule text (some (labelled (scan text), [])) := by
  have hmatch := (alternating_scan h).matches_expressionRule
  rwa [flatMap_toChars_scan] at hmatch

theorem map_snd_labelled (tokens : List Token) :
    (labelled tokens).map Prod.snd = tokens.map toChars := by
  rw [labelled, List.map_map]
  rfl

end Token

namespace Expr

open Text.Grammar (Matches)

/-- What the grammar makes of a text: the texts it matches are read in turn, and where it does not
match, its complaint is the error. -/
inductive ReadByGrammar (complaint : List Char → String) :
    List Char → Except ParseError Expr → Prop
  | empty : ReadByGrammar complaint [] (.error .empty)
  | unmatched {text : List Char} : text ≠ [] →
    Matches Token.Kind.expressionRule text none →
    ReadByGrammar complaint text (.error (.unexpectedToken (complaint text)))
  | matched {text rest : List Char} {pieces : List (Token.Kind × List Char)} : text ≠ [] →
    Matches Token.Kind.expressionRule text (some (pieces, rest)) →
    ReadByGrammar complaint text ((Chain.parse (pieces.map Prod.snd)).map Chain.toExpr)

variable {complaint : List Char → String} {result : Except ParseError Expr}

theorem readByGrammar_iff_scan {text : List Char} :
    ReadByGrammar complaint text result ↔
      (Chain.ofTokens (Token.scan text)).map Chain.toExpr = result := by
  constructor
  · intro h
    cases h with
    | empty => rfl
    | unmatched hne hm => cases hm.unique (Token.matches_scan hne)
    | matched hne hm =>
      cases hm.unique (Token.matches_scan hne)
      rw [Token.map_snd_labelled]
      rfl
  · rintro rfl
    rcases eq_or_ne text [] with rfl | hne
    · exact .empty
    · rw [Chain.ofTokens, ← Token.map_snd_labelled]
      exact .matched hne (Token.matches_scan hne)

theorem readByGrammar_iff {s : String} :
    ReadByGrammar complaint (Text.withoutBlanks s.toList) result ↔ parse s = result :=
  readByGrammar_iff_scan

end Expr

namespace Token

open Text.Grammar (Matches)

/-- The grammar matches every text but the empty one, to its end and with one result: the tokens of
the scan. They are the only ones in turn that spell the text, so reading them never meets a token
out of turn, and the grammar never has a complaint. -/
theorem matches_expressionRule_iff {text : List Char} (h : text ≠ []) :
    (∀ m, Matches Kind.expressionRule text m ↔ m = some (labelled (scan text), [])) ∧
      (scan text).flatMap toChars = text ∧ Alternating (scan text) ∧
      (∀ tokens, Alternating tokens ∧ tokens.flatMap toChars = text → tokens = scan text) ∧
      (∀ t, Chain.ofTokens (scan text) ≠ .error (.unexpectedToken t)) ∧
      ∀ complaint result, Expr.ReadByGrammar complaint text result →
        ∀ t, result ≠ .error (.unexpectedToken t) ∧ result ≠ .error (.unknownOperator t) := by
  have halternating := alternating_scan h
  have hmatch := matches_scan h
  refine ⟨?_, flatMap_toChars_scan text, halternating, ?_, ?_, ?_⟩
  · intro m
    constructor
    · intro hm
      exact hm.unique hmatch
    · rintro rfl
      exact hmatch
  · rintro tokens ⟨htokens, rfl⟩
    exact htokens.scan_flatMap_toChars.symm
  · intro t ht
    obtain ⟨-, -, hunexpected⟩ := ((Chain.ofTokens_eq_error_iff halternating).1 ht).ne
    exact hunexpected t rfl
  · intro complaint result hresult t
    rw [Expr.readByGrammar_iff_scan] at hresult
    cases hchain : Chain.ofTokens (scan text) with
    | ok c => simp [← hresult, hchain, Except.map]
    | error e =>
      obtain ⟨-, hunknown, hunexpected⟩ := ((Chain.ofTokens_eq_error_iff halternating).1 hchain).ne
      have herror : result = .error e := by rw [← hresult, hchain, Except.map]
      exact ⟨by simpa [herror] using hunexpected t, by simpa [herror] using hunknown t⟩

theorem matches_expressionRule_three_signs :
    ['a', '-', '-', '-', 'b'] ≠ [] ∧
      ∀ m, Matches Kind.expressionRule ['a', '-', '-', '-', 'b'] m ↔
        m = some ([(.operand, ['a']), (.operator, ['-']), (.operand, ['-']), (.operator, ['-']),
          (.operand, ['b'])], []) := by
  have h : ['a', '-', '-', '-', 'b'] ≠ [] := by decide
  exact ⟨h, (matches_expressionRule_iff h).1⟩

end Token

end WindowLayout
