import WindowLayout.Expr.Basic
import WindowLayout.Text

namespace WindowLayout

inductive Token : Type
  | operand (text : List Char)
  | operator (op : Operator)
  deriving DecidableEq

namespace Token

def toChars : Token → List Char
  | .operand text => text
  | .operator op => [op.toChar]

/-- Splits the text, `pending` being the operand under way with its last character first. A sign is
an operator if it ends an operand; with none under way it is the first character of one. -/
def scanFrom (pending : List Char) : List Char → List Token
  | [] => if pending = [] then [] else [.operand pending.reverse]
  | c :: text =>
    match Operator.ofChar? c with
    | none => scanFrom (c :: pending) text
    | some op =>
      if pending = [] then scanFrom [c] text
      else .operand pending.reverse :: .operator op :: scanFrom [] text

def scan (text : List Char) : List Token := scanFrom [] text

theorem flatMap_toChars_scanFrom (pending text : List Char) :
    (scanFrom pending text).flatMap toChars = pending.reverse ++ text := by
  induction text generalizing pending with
  | nil => by_cases h : pending = [] <;> simp [scanFrom, h, toChars]
  | cons c text ih =>
    rw [scanFrom]
    split
    · simp [ih]
    · rename_i op hc
      rw [Operator.ofChar?_eq_some_iff.1 hc]
      by_cases h : pending = [] <;> simp [h, ih, toChars]

theorem flatMap_toChars_scan (text : List Char) : (scan text).flatMap toChars = text :=
  flatMap_toChars_scanFrom [] text

open Text (Grammar)

inductive Kind : Type
  | operand
  | operator
  deriving DecidableEq

def kind : Token → Kind
  | .operand _ => .operand
  | .operator _ => .operator

namespace Kind

def sign : Grammar Kind := .choice (.literal '+') (.literal '-')

def unsigned : Grammar Kind := .seq (.absent sign) .any

def operatorRule : Grammar Kind := .named .operator sign

def operandRule : Grammar Kind :=
  .named .operand (.choice (.seq sign (.many unsigned)) (.oneOrMore unsigned))

def expressionRule : Grammar Kind :=
  .seq operandRule (.seq (.many (.seq operatorRule (.optional operandRule))) .finish)

end Kind

end Token

end WindowLayout
