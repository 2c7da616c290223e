import Mathlib
import WindowLayout.Proofs.Expr.Acceptance

namespace WindowLayout

namespace Term

def Spelled (text : List Char) : Prop := ∃ t, Spells text t

def DividesByZero (text : List Char) : Prop :=
  (∃ n, IsNatural (text.takeWhile (· ≠ '/')) n ∧ n < 2 ^ 63) ∧
    IsNatural ((text.dropWhile (· ≠ '/')).drop 1) 0

theorem integer?_eq_zero_iff {text : List Char} : integer? text = some 0 ↔ IsNatural text 0 := by
  rw [integer?_eq_some_iff]
  constructor
  · rintro ⟨n, hn, hlt, hzero⟩
    have hvalue := congrArg Int64.toInt hzero
    rw [Int64.toInt_ofNat_of_lt hlt] at hvalue
    obtain rfl : n = 0 := by simpa using hvalue.symm
    exact hn
  · intro h
    exact ⟨0, h, Nat.two_pow_pos 63, rfl⟩

theorem isSome_integer?_iff {text : List Char} :
    (integer? text).isSome ↔ ∃ n, IsNatural text n ∧ n < 2 ^ 63 := by
  simp only [Option.isSome_iff_exists, integer?_eq_some_iff]
  constructor
  · rintro ⟨_, n, hn, hlt, _⟩
    exact ⟨n, hn, hlt⟩
  · rintro ⟨n, hn, hlt⟩
    exact ⟨_, n, hn, hlt, rfl⟩

theorem dividesByZero_iff {text : List Char} :
    DividesByZero text ↔ (integer? (text.takeWhile (· ≠ '/'))).isSome ∧
      integer? ((text.dropWhile (· ≠ '/')).drop 1) = some 0 :=
  (and_congr isSome_integer?_iff integer?_eq_zero_iff).symm

instance : DecidablePred DividesByZero := fun _ => decidable_of_iff _ dividesByZero_iff.symm

def fault (text : List Char) : ParseError :=
  if '/' ∈ text then
    if DividesByZero text then .divisionByZero (.ofList text) else .invalidFraction (.ofList text)
  else if ['%'] <:+ text then .invalidPercentage (.ofList text)
  else if ['p', 'x'] <:+ text then .invalidPixels (.ofList text)
  else .unrecognizedTerm (.ofList text)

theorem fault_ne (text : List Char) :
    (fault text).text? = some (.ofList text) ∧
      (∀ op, fault text ≠ .incompleteExpression op) ∧
      (∀ t, fault text ≠ .unknownOperator t) ∧ ∀ t, fault text ≠ .unexpectedToken t := by
  rw [fault]
  split_ifs <;> simp [ParseError.text?]

theorem parseFraction_eq_error {text : List Char} {e : ParseError}
    (h : parseFraction text = .error e) :
    e = if DividesByZero text then .divisionByZero (.ofList text)
      else .invalidFraction (.ofList text) := by
  rw [parseFraction] at h
  simp only at h
  split at h
  · rename_i n d hn hd
    split at h
    · rename_i hzero
      cases h
      rw [hzero] at hd
      rw [if_pos (dividesByZero_iff.2 ⟨Option.isSome_of_eq_some hn, hd⟩)]
    · cases h
  · rename_i hnone
    cases h
    rw [if_neg]
    intro hzero
    obtain ⟨hn, hd⟩ := dividesByZero_iff.1 hzero
    obtain ⟨n, hn⟩ := Option.isSome_iff_exists.1 hn
    exact hnone n 0 hn hd

theorem isSuffix_of_beforeUnit? {unit text : List Char} {p : Option Binary64}
    (h : beforeUnit? unit text = some p) : unit <:+ text := by
  obtain ⟨number, hnumber, -⟩ := beforeUnit?_eq_some_iff.1 h
  exact ⟨number, hnumber⟩

theorem not_isSuffix_of_beforeUnit? {unit text : List Char} (h : beforeUnit? unit text = none) :
    ¬unit <:+ text := by
  rintro ⟨number, rfl⟩
  rw [beforeUnit?_append] at h
  cases h

theorem eq_fault_of_parse {text : List Char} {e : ParseError} (h : parse text = .error e) :
    e = fault text := by
  rw [parse] at h
  rw [fault]
  split at h
  · cases h
  · split at h
    · rename_i hslash
      rw [if_pos hslash]
      exact parseFraction_eq_error h
    · rename_i hslash
      rw [if_neg hslash]
      split at h
      · cases h
      · rename_i hpercent
        cases h
        rw [if_pos (isSuffix_of_beforeUnit? hpercent)]
      · cases h
      · rename_i hpercent hpixels
        cases h
        rw [if_neg (not_isSuffix_of_beforeUnit? hpercent), if_pos (isSuffix_of_beforeUnit? hpixels)]
      · rename_i hpercent hpixels
        cases h
        rw [if_neg (not_isSuffix_of_beforeUnit? hpercent),
          if_neg (not_isSuffix_of_beforeUnit? hpixels)]

theorem parse_eq_error_iff {text : List Char} {e : ParseError} :
    parse text = .error e ↔ ¬Spelled text ∧ e = fault text := by
  constructor
  · intro h
    refine ⟨?_, eq_fault_of_parse h⟩
    rintro ⟨t, ht⟩
    rw [parse_eq_ok_iff.2 ht] at h
    cases h
  · rintro ⟨hspelled, rfl⟩
    cases h : parse text with
    | ok t => exact absurd ⟨t, parse_eq_ok_iff.1 h⟩ hspelled
    | error e => rw [eq_fault_of_parse h]

end Term

namespace Token

def AllSpelled (tokens : List Token) : Prop := ∀ text, .operand text ∈ tokens → Term.Spelled text

/-- What is wrong with the tokens of a text: the leftmost operand that spells no term, or else an
operator at the end. -/
inductive Rejects : List Token → ParseError → Prop
  | operand {before after : List Token} {text : List Char} :
    AllSpelled before → ¬Term.Spelled text →
    Rejects (before ++ .operand text :: after) (Term.fault text)
  | operator {before : List Token} {op : Operator} :
    AllSpelled before →
    Rejects (before ++ [.operator op]) (.incompleteExpression (.singleton op.toChar))

variable {tokens : List Token} {e : ParseError}

theorem allSpelled_nil : AllSpelled [] := by
  intro text h
  cases h

theorem allSpelled_cons {token : Token} :
    AllSpelled (token :: tokens) ↔ AllSpelled [token] ∧ AllSpelled tokens := by
  simp [AllSpelled, or_imp, forall_and]

theorem allSpelled_operator (op : Operator) : AllSpelled [.operator op] := by
  simp [AllSpelled]

theorem allSpelled_operand {text : List Char} : AllSpelled [.operand text] ↔ Term.Spelled text := by
  simp [AllSpelled]

theorem Rejects.cons {token : Token} (h : Rejects tokens e) (htoken : AllSpelled [token]) :
    Rejects (token :: tokens) e := by
  cases h with
  | operand hbefore htext =>
    rw [← List.cons_append]
    exact .operand (allSpelled_cons.2 ⟨htoken, hbefore⟩) htext
  | operator hbefore =>
    rw [← List.cons_append]
    exact .operator (allSpelled_cons.2 ⟨htoken, hbefore⟩)

theorem rejects_cons_iff {token : Token} :
    Rejects (token :: tokens) e ↔
      (∃ text, token = .operand text ∧ ¬Term.Spelled text ∧ e = Term.fault text) ∨
        (∃ op : Operator, token = .operator op ∧ tokens = [] ∧
          e = .incompleteExpression (.singleton op.toChar)) ∨
        AllSpelled [token] ∧ Rejects tokens e := by
  constructor
  · intro h
    generalize htokens : token :: tokens = all at h
    cases h with
    | @operand before after text hbefore htext =>
      cases before with
      | nil =>
        cases htokens
        exact .inl ⟨text, rfl, htext, rfl⟩
      | cons token before =>
        cases htokens
        obtain ⟨htoken, hbefore⟩ := allSpelled_cons.1 hbefore
        exact .inr (.inr ⟨htoken, .operand hbefore htext⟩)
    | @operator before op hbefore =>
      cases before with
      | nil =>
        cases htokens
        exact .inr (.inl ⟨op, rfl, rfl, rfl⟩)
      | cons token before =>
        cases htokens
        obtain ⟨htoken, hbefore⟩ := allSpelled_cons.1 hbefore
        exact .inr (.inr ⟨htoken, .operator hbefore⟩)
  · rintro (⟨text, rfl, htext, rfl⟩ | ⟨op, rfl, rfl, rfl⟩ | ⟨htoken, h⟩)
    · rw [← List.nil_append (.operand text :: tokens)]
      exact .operand allSpelled_nil htext
    · rw [← List.nil_append [Token.operator op]]
      exact .operator allSpelled_nil
    · exact h.cons htoken

theorem rejects_operand_cons {text : List Char} :
    Rejects (.operand text :: tokens) e ↔
      ¬Term.Spelled text ∧ e = Term.fault text ∨ Term.Spelled text ∧ Rejects tokens e := by
  simp [rejects_cons_iff, allSpelled_operand]

theorem rejects_operator_cons {op : Operator} :
    Rejects (.operator op :: tokens) e ↔
      tokens = [] ∧ e = .incompleteExpression (.singleton op.toChar) ∨ Rejects tokens e := by
  simp [rejects_cons_iff, allSpelled_operator]

theorem not_rejects_nil : ¬Rejects [] e := by
  intro h
  generalize htokens : ([] : List Token) = all at h
  cases h <;> simp at htokens

theorem Rejects.ne (h : Rejects tokens e) :
    e ≠ .empty ∧ (∀ t, e ≠ .unknownOperator t) ∧ ∀ t, e ≠ .unexpectedToken t := by
  cases h with
  | @operand before after text _ _ =>
    obtain ⟨htext, -, hunknown, hunexpected⟩ := Term.fault_ne text
    refine ⟨?_, hunknown, hunexpected⟩
    intro hempty
    rw [hempty] at htext
    cases htext
  | operator => simp

theorem rejects_incompleteExpression_iff {op : String} :
    Rejects tokens (.incompleteExpression op) ↔
      AllSpelled tokens ∧ ∃ sign : Operator,
        tokens.getLast? = some (.operator sign) ∧ op = .singleton sign.toChar := by
  constructor
  · intro h
    generalize he : ParseError.incompleteExpression op = e at h
    cases h with
    | @operand before after text _ _ =>
      obtain ⟨-, hincomplete, -⟩ := Term.fault_ne text
      exact absurd he.symm (hincomplete op)
    | @operator before sign hbefore =>
      cases he
      refine ⟨?_, sign, by simp, rfl⟩
      intro text htext
      exact hbefore text (by simpa using htext)
  · rintro ⟨h, sign, hlast, rfl⟩
    obtain ⟨before, rfl⟩ := List.getLast?_eq_some_iff.1 hlast
    refine .operator ?_
    intro text htext
    exact h text (List.mem_append_left _ htext)

end Token

namespace Chain

open Token (Linked Alternating Rejects)

theorem parse_then_eq_error_iff {text : List Char} {x : Except ParseError α} {f : Term → α → β}
    {e : ParseError} :
    (do let t ← Term.parse text; return f t (← x)) = .error e ↔
      ¬Term.Spelled text ∧ e = Term.fault text ∨ Term.Spelled text ∧ x = .error e := by
  cases h : Term.parse text with
  | error e' =>
    obtain ⟨hspelled, rfl⟩ := Term.parse_eq_error_iff.1 h
    simp [bind, Except.bind, hspelled, eq_comm]
  | ok t =>
    have hspelled : Term.Spelled text := ⟨t, Term.parse_eq_ok_iff.1 h⟩
    cases x <;> simp [bind, Except.bind, pure, Except.pure, hspelled]

theorem parseLinks_eq_error_iff {tokens : List Token} (h : Linked tokens) {e : ParseError} :
    parseLinks (tokens.map Token.toChars) = .error e ↔ Rejects tokens e := by
  induction h with
  | nil => simp [Token.not_rejects_nil]
  | last op =>
    simp [Token.toChars, parseLinks_operator, Token.rejects_operator_cons, Token.not_rejects_nil,
      eq_comm]
  | @cons op text tokens _ _ ih =>
    rw [Token.rejects_operator_cons, Token.rejects_operand_cons, ← ih, List.map_cons, List.map_cons,
      Token.toChars, Token.toChars, parseLinks_operator_cons, parse_then_eq_error_iff]
    simp

theorem ofTokens_eq_error_iff {tokens : List Token} (h : Alternating tokens) {e : ParseError} :
    ofTokens tokens = .error e ↔ Rejects tokens e := by
  cases h with
  | operand _ htokens =>
    rw [ofTokens, List.map_cons, parse, parse_then_eq_error_iff, parseLinks_eq_error_iff htokens,
      Token.rejects_operand_cons]
    rfl

end Chain

namespace Expr

def tokens (s : String) : List Token := Token.scan (Text.withoutBlanks s.toList)

theorem parse_eq_error_iff {s : String} {e : ParseError} :
    parse s = .error e ↔ Chain.ofTokens (tokens s) = .error e := by
  rw [parse, parseChars, tokens]
  cases Chain.ofTokens (Token.scan (Text.withoutBlanks s.toList)) <;> simp [Except.map]

theorem parse_eq_error_iff_rejects {s : String} {e : ParseError} :
    parse s = .error e ↔
      Text.withoutBlanks s.toList = [] ∧ e = .empty ∨ Token.Rejects (tokens s) e := by
  rw [parse_eq_error_iff, tokens]
  rcases eq_or_ne (Text.withoutBlanks s.toList) [] with hempty | hne
  · have hscan : Token.scan [] = [] := rfl
    simp [hempty, hscan, Chain.ofTokens, Chain.parse, Token.not_rejects_nil, eq_comm]
  · rw [Chain.ofTokens_eq_error_iff (Token.alternating_scan hne)]
    simp [hne]

end Expr

end WindowLayout
