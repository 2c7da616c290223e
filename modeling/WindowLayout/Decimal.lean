import WindowLayout.Binary64.Basic

namespace WindowLayout

structure Decimal : Type where
  digits : Nat
  places : Nat
  deriving DecidableEq

namespace Decimal

def ofChars? (text : List Char) : Option Decimal :=
  let whole := text.takeWhile Char.isDigit
  match text.dropWhile Char.isDigit with
  | [] => if whole = [] then none else some ⟨Nat.ofDigitChars 10 whole 0, 0⟩
  | c :: fraction =>
    if c = '.' ∧ fraction.all Char.isDigit ∧ whole ++ fraction ≠ [] then
      some ⟨Nat.ofDigitChars 10 (whole ++ fraction) 0, fraction.length⟩
    else none

def reduceFrom : Nat → Nat → Decimal
  | digits, 0 => ⟨digits, 0⟩
  | digits, places + 1 =>
    if digits % 10 = 0 then reduceFrom (digits / 10) places else ⟨digits, places + 1⟩

def reduce (x : Decimal) : Decimal := reduceFrom x.digits x.places

def toChars (x : Decimal) : List Char :=
  let whole := Nat.toDigits 10 (x.digits / Nat.pow 10 x.places)
  if x.places = 0 then whole
  else whole ++ '.' :: (Nat.toDigits 10 (x.digits % Nat.pow 10 x.places)).leftpad x.places '0'

end Decimal

namespace Binary64

def ofSigned (negative : Bool) (x : Decimal) : Binary64 :=
  ofQuotient negative (x.digits * unitsInOne) (Nat.pow 10 x.places)

def ofDecimal (x : Decimal) : Binary64 := ofSigned false x

def ofChars? : List Char → Option Binary64
  | '-' :: text => (Decimal.ofChars? text).map (ofSigned true)
  | text => (Decimal.ofChars? text).map ofDecimal

def readsBack (rank candidate : Nat) : Bool := nearest candidate (Nat.pow 5 depth) == rank

def choose? (rank value step : Nat) : Option Nat :=
  let low := value / step * step
  let high := low + step
  if readsBack rank low && !(readsBack rank high && high - value ≤ value - low) then some low
  else if readsBack rank high then some high
  else none

def chooseFrom (rank value : Nat) : Nat → Nat
  | 0 => value
  | i + 1 => (choose? rank value (Nat.pow 10 (i + 1))).getD (chooseFrom rank value i)

/-- The decimal with the fewest digits that reads back to a rank. Every magnitude is a whole number
of steps of `10 ^ (-depth)`, and the coarsest grid tried has the place of its first digit. -/
def shortest (rank : Nat) : Decimal :=
  let value := units rank * Nat.pow 5 depth
  Decimal.reduce ⟨chooseFrom rank value ((Nat.toDigits 10 value).length - 1), depth⟩

def signChars (negative : Bool) : List Char := if negative then ['-'] else []

def toChars : Binary64 → List Char
  | .nan => ['N', 'a', 'N']
  | .infinite negative => signChars negative ++ ['i', 'n', 'f']
  | .finite negative rank => signChars negative ++ (shortest rank).toChars

end Binary64

end WindowLayout
