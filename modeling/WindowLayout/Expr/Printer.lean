import WindowLayout.Binary64.Bits
import WindowLayout.Decimal
import WindowLayout.Expr.Basic

namespace WindowLayout

namespace Percentage

def reparses (ratio : Binary64) (text : List Char) : Bool :=
  (Binary64.ofChars? text).any fun p => (p / 100).equal ratio

def gives (ratio p : Binary64) : Bool := p.isFinite && reparses ratio p.toChars

def product (ratio : Binary64) : Binary64 :=
  match ratio * 100 with
  | .infinite negative => .largest negative
  | p => p

def cleaned (ratio : Binary64) : Binary64 := (product ratio * 1000000000).round / 1000000000

def steps : List Int64 := [0, -1, 1, -2, 2, -3, 3]

def candidates (ratio : Binary64) : List Binary64 := steps.map (product ratio).neighbour

/-- The percentage to write for a ratio: the cleaned product, or else the first candidate, that
gives the ratio. -/
def ofRatio (ratio : Binary64) : Binary64 :=
  if !ratio.isFinite then ratio * 100
  else if gives ratio (cleaned ratio) then cleaned ratio
  else ((candidates ratio).find? (gives ratio)).getD (product ratio)

end Percentage

def integerChars (i : Int64) : List Char :=
  (if i < 0 then ['-'] else []) ++ Nat.toDigits 10 i.toInt.natAbs

theorem integerChars_of_nonneg {i : Int64} (h : 0 ≤ i) :
    integerChars i = Nat.toDigits 10 i.toInt.natAbs := by
  have hnot : ¬i < 0 := by
    rw [Int64.not_lt]
    exact h
  rw [integerChars, if_neg hnot, List.nil_append]

def Operator.toString (op : Operator) : String := .singleton op.toChar

def Term.toChars : Term → List Char
  | .zero => ['0']
  | .fraction n d => integerChars n ++ '/' :: integerChars d
  | .percentage r => (Percentage.ofRatio r).toChars ++ ['%']
  | .pixels p => p.toChars ++ ['p', 'x']

def Expr.toChars : Expr → List Char
  | .term t => t.toChars
  | .binary left op right => left.toChars ++ ' ' :: op.toChar :: ' ' :: right.toChars

def Expr.toString (e : Expr) : String := .ofList e.toChars

instance : ToString Operator := ⟨Operator.toString⟩
instance : ToString Expr := ⟨Expr.toString⟩

end WindowLayout
