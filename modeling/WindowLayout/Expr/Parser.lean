import WindowLayout.Decimal
import WindowLayout.Expr.Token

namespace WindowLayout

inductive ParseError : Type
  | empty
  | incompleteExpression (op : String)
  | unknownOperator (text : String)
  | divisionByZero (text : String)
  | invalidFraction (text : String)
  | invalidPercentage (text : String)
  | invalidPixels (text : String)
  | unrecognizedTerm (text : String)
  | unexpectedToken (text : String)
  deriving DecidableEq

namespace ParseError

def text? : ParseError → Option String
  | .empty => none
  | .incompleteExpression text | .unknownOperator text | .divisionByZero text
  | .invalidFraction text | .invalidPercentage text | .invalidPixels text
  | .unrecognizedTerm text | .unexpectedToken text => some text

def message : ParseError → String
  | .empty => "Empty expression"
  | .incompleteExpression op =>
    "Incomplete expression: operator '" ++ op ++ "' is not followed by a term"
  | .unknownOperator text => "Unknown operator: " ++ text
  | .divisionByZero text => "Division by zero in fraction '" ++ text ++ "'"
  | .invalidFraction text =>
    "Invalid fraction '" ++ text ++ "': numerator and denominator must be integers"
  | .invalidPercentage text => "Invalid percentage: " ++ text
  | .invalidPixels text => "Invalid pixel value: " ++ text
  | .unrecognizedTerm text => "Unrecognized term: " ++ text
  | .unexpectedToken text => "Syntax error: " ++ text

end ParseError

namespace Operator

def parse (text : String) : Except ParseError Operator :=
  match text.toList with
  | [c] => (ofChar? c).elim (.error (.unknownOperator text)) .ok
  | _ => .error (.unknownOperator text)

end Operator

namespace Term

def integer? (text : List Char) : Option Int64 :=
  let value := Nat.ofDigitChars 10 text 0
  if text ≠ [] ∧ text.all Char.isDigit ∧ value < 1 <<< 63 then some (.ofNat value) else none

def number? (text : List Char) : Option Binary64 :=
  ((Decimal.ofChars? text).map Binary64.ofDecimal).filter Binary64.isFinite

def beforeUnit? (unit text : List Char) : Option (Option Binary64) :=
  (unit.isSuffixOf? text).map number?

def parseFraction (text : List Char) : Except ParseError Term :=
  let numerator := text.takeWhile (· ≠ '/')
  let denominator := (text.dropWhile (· ≠ '/')).drop 1
  match integer? numerator, integer? denominator with
  | some n, some d =>
    if d = 0 then .error (.divisionByZero (.ofList text)) else .ok (.fraction n d)
  | _, _ => .error (.invalidFraction (.ofList text))

/-- The kind of a term is settled first, by a `/` anywhere and then by the unit at its end. -/
def parse (text : List Char) : Except ParseError Term :=
  if text = ['0'] then .ok .zero
  else if '/' ∈ text then parseFraction text
  else match beforeUnit? ['%'] text, beforeUnit? ['p', 'x'] text with
    | some (some p), _ => .ok (.percentage (p / 100))
    | some none, _ => .error (.invalidPercentage (.ofList text))
    | none, some (some p) => .ok (.pixels p)
    | none, some none => .error (.invalidPixels (.ofList text))
    | none, none => .error (.unrecognizedTerm (.ofList text))

end Term

namespace Chain

def parseLinks : List (List Char) → Except ParseError (List Link)
  | [] => .ok []
  | [sign] => do
    let _ ← Operator.parse (.ofList sign)
    .error (.incompleteExpression (.ofList sign))
  | sign :: operand :: texts => do
    let op ← Operator.parse (.ofList sign)
    let t ← Term.parse operand
    return (op, t) :: (← parseLinks texts)

def parse : List (List Char) → Except ParseError Chain
  | [] => .error .empty
  | operand :: texts => do
    let t ← Term.parse operand
    return ⟨t, ← parseLinks texts⟩

def ofTokens (tokens : List Token) : Except ParseError Chain := parse (tokens.map Token.toChars)

end Chain

namespace Expr

def parseChars (text : List Char) : Except ParseError Expr :=
  (Chain.ofTokens (Token.scan (Text.withoutBlanks text))).map Chain.toExpr

def parse (text : String) : Except ParseError Expr := parseChars text.toList

end Expr

end WindowLayout
