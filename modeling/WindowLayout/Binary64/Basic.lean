/-! IEEE 754 binary64 numbers as data: not a number, the two infinities, and the finite numbers by
sign and rank. A quotient is rounded to the nearest one, ties to even. -/

namespace WindowLayout

def Binary64.magnitudes : Nat := 2047 <<< 52

/-- A binary64 number. The rank of a finite number is how many magnitudes lie below its own. -/
inductive Binary64 : Type
  | nan
  | infinite (negative : Bool)
  | finite (negative : Bool) (rank : Fin Binary64.magnitudes)
  deriving DecidableEq

namespace Binary64

def depth : Nat := 1074

/-- The magnitude of a rank, in units of the least one. The first two binades of `2 ^ 52` ranks
share their spacing; from there on each next binade doubles it. -/
def units (rank : Nat) : Nat :=
  let binade := rank >>> 52 - 1
  (rank - binade <<< 52) <<< binade

def unitsInOne : Nat := 1 <<< depth

def isFinite : Binary64 → Bool
  | .finite _ _ => true
  | _ => false

def isNaN : Binary64 → Bool
  | .nan => true
  | _ => false

def largest (negative : Bool) : Binary64 := .finite negative ⟨magnitudes - 1, by decide⟩

def zero (negative : Bool) : Binary64 := .finite negative ⟨0, by decide⟩

def signed (negative : Bool) (n : Nat) : Int := if negative then -n else n

def position? : Binary64 → Option Int
  | .nan => none
  | .infinite negative => some (signed negative magnitudes)
  | .finite negative rank => some (signed negative rank)

def equal (x y : Binary64) : Bool :=
  match x.position?, y.position? with
  | some i, some j => i == j
  | _, _ => false

def less (x y : Binary64) : Bool :=
  match x.position?, y.position? with
  | some i, some j => i < j
  | _, _ => false

def divNearest (n d : Nat) : Nat :=
  let q := n / d
  let r := n % d
  if 2 * r < d then q else if d < 2 * r then q + 1 else q + q % 2

/-- The rank nearest to `n / d` units. Above `2 ^ 53` units the spacing is the power of two that
leaves 53 binary digits, and a quotient that rounds up to `2 ^ 53` is the first rank of the next
binade. -/
def nearest (n d : Nat) : Nat :=
  let binade := (n / d).log2 - 52
  binade <<< 52 + divNearest n (d <<< binade)

def ofQuotient (negative : Bool) (n d : Nat) : Binary64 :=
  if h : nearest n d < magnitudes then .finite negative ⟨nearest n d, h⟩ else .infinite negative

def ofUnits (zeroNegative : Bool) (sum : Int) : Binary64 :=
  ofQuotient (if sum = 0 then zeroNegative else sum < 0) sum.natAbs 1

protected def neg : Binary64 → Binary64
  | .nan => .nan
  | .infinite negative => .infinite !negative
  | .finite negative rank => .finite (!negative) rank

protected def add : Binary64 → Binary64 → Binary64
  | .nan, _ | _, .nan => .nan
  | .infinite s, .infinite t => if s = t then .infinite s else .nan
  | .infinite s, .finite _ _ | .finite _ _, .infinite s => .infinite s
  | .finite s a, .finite t b => ofUnits (s && t) (signed s (units a) + signed t (units b))

protected def sub (x y : Binary64) : Binary64 := x.add y.neg

protected def mul : Binary64 → Binary64 → Binary64
  | .nan, _ | _, .nan => .nan
  | .infinite s, .infinite t => .infinite (s ^^ t)
  | .infinite s, .finite t a | .finite s a, .infinite t =>
    if a.val = 0 then .nan else .infinite (s ^^ t)
  | .finite s a, .finite t b => ofQuotient (s ^^ t) (units a * units b) unitsInOne

protected def div : Binary64 → Binary64 → Binary64
  | .nan, _ | _, .nan => .nan
  | .infinite _, .infinite _ => .nan
  | .infinite s, .finite t _ => .infinite (s ^^ t)
  | .finite s _, .infinite t => zero (s ^^ t)
  | .finite s a, .finite t b =>
    if b.val = 0 then
      if a.val = 0 then .nan else .infinite (s ^^ t)
    else ofQuotient (s ^^ t) (units a * unitsInOne) (units b)

instance : Neg Binary64 := ⟨Binary64.neg⟩
instance : Add Binary64 := ⟨Binary64.add⟩
instance : Sub Binary64 := ⟨Binary64.sub⟩
instance : Mul Binary64 := ⟨Binary64.mul⟩
instance : Div Binary64 := ⟨Binary64.div⟩

def ofInt (i : Int) : Binary64 := ofUnits false (i * unitsInOne)

def ofInt64 (i : Int64) : Binary64 := ofInt i.toInt

instance : OfNat Binary64 n := ⟨ofInt n⟩

def round : Binary64 → Binary64
  | .finite negative rank =>
    ofQuotient negative ((2 * units rank + unitsInOne) / (2 * unitsInOne) * unitsInOne) 1
  | x => x

def toInt64 : Binary64 → Int64
  | .nan => 0
  | .infinite negative => if negative then Int64.minValue else Int64.maxValue
  | .finite negative rank => Int64.ofIntClamp (signed negative (units rank / unitsInOne))

end Binary64

end WindowLayout
