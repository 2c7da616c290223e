import WindowLayout.Binary64.Basic

/-! Sizes as a window layout writes them: terms joined by `+` and `-`. -/

namespace WindowLayout

inductive Operator : Type
  | add
  | subtract
  deriving DecidableEq

namespace Operator

def toChar : Operator → Char
  | .add => '+'
  | .subtract => '-'

def ofChar? (c : Char) : Option Operator :=
  if c = '+' then some .add else if c = '-' then some .subtract else none

def flip : Operator → Operator
  | .add => .subtract
  | .subtract => .add

def apply : Operator → Binary64 → Binary64 → Binary64
  | .add, x, y => x + y
  | .subtract, x, y => x - y

theorem ofChar?_eq_some_iff {c : Char} {op : Operator} : ofChar? c = some op ↔ c = op.toChar := by
  constructor
  · intro h
    rw [ofChar?] at h
    split at h
    · cases h
      assumption
    · split at h
      · cases h
        assumption
      · cases h
  · rintro rfl
    cases op <;> rfl

end Operator

/-- A fraction and a percentage are parts of the container, a percentage being kept as a ratio;
pixels are an absolute length. -/
inductive Term : Type
  | zero
  | fraction (numerator denominator : Int64)
  | percentage (ratio : Binary64)
  | pixels (length : Binary64)
  deriving DecidableEq

namespace Term

def isPixels : Term → Bool
  | .pixels _ => true
  | _ => false

def equal : Term → Term → Bool
  | .zero, .zero => true
  | .fraction n d, .fraction n' d' => n = n' && d = d'
  | .percentage r, .percentage r' => r.equal r'
  | .pixels p, .pixels p' => p.equal p'
  | _, _ => false

end Term

inductive Expr : Type
  | term (t : Term)
  | binary (left : Expr) (op : Operator) (right : Expr)
  deriving DecidableEq

namespace Expr

def hasPixels : Expr → Bool
  | .term t => t.isPixels
  | .binary left _ right => left.hasPixels || right.hasPixels

def equal : Expr → Expr → Bool
  | .term t, .term u => t.equal u
  | .binary l op r, .binary l' op' r' => l.equal l' && op = op' && r.equal r'
  | _, _ => false

end Expr

abbrev Link : Type := Operator × Term

structure Chain : Type where
  first : Term
  rest : List Link
  deriving DecidableEq

namespace Expr

def extend (e : Expr) (links : List Link) : Expr :=
  links.foldl (fun left link => .binary left link.1 (.term link.2)) e

def toChain : Expr → Chain
  | .term t => ⟨t, []⟩
  | .binary left op right =>
    ⟨left.toChain.first, left.toChain.rest ++ (op, right.toChain.first) :: right.toChain.rest⟩

@[simp] theorem extend_nil (e : Expr) : e.extend [] = e := rfl

@[simp] theorem extend_cons (e : Expr) (op : Operator) (t : Term) (links : List Link) :
    e.extend ((op, t) :: links) = (Expr.binary e op (.term t)).extend links := rfl

theorem extend_append (e : Expr) (links more : List Link) :
    e.extend (links ++ more) = (e.extend links).extend more :=
  List.foldl_append

theorem toChain_extend (e : Expr) (links : List Link) :
    (e.extend links).toChain = ⟨e.toChain.first, e.toChain.rest ++ links⟩ := by
  induction links generalizing e with
  | nil => simp
  | cons link links ih => obtain ⟨op, t⟩ := link; simp [ih, toChain]

end Expr

def Chain.toExpr (c : Chain) : Expr := (Expr.term c.first).extend c.rest

@[simp] theorem Chain.toChain_toExpr (c : Chain) : c.toExpr.toChain = c := by
  simp [toExpr, Expr.toChain_extend, Expr.toChain]

end WindowLayout
