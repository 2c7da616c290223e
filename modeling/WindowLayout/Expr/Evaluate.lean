import WindowLayout.Expr.Parser

namespace WindowLayout

inductive Warning : Type
  | unusableScreen (size : Binary64)
  deriving DecidableEq

def Warning.message : Warning → String
  | .unusableScreen size =>
    "Ignoring unusable screen size " ++ .ofList size.toChars ++ ", pixel values are not scaled"

structure Reported (α : Type) : Type where
  value : α
  warnings : List Warning
  deriving DecidableEq

namespace Reported

instance : Monad Reported where
  pure a := ⟨a, []⟩
  bind r f :=
    let next := f r.value
    ⟨next.value, r.warnings ++ next.warnings⟩

def warn (w : Warning) : Reported Unit := ⟨(), [w]⟩

def ofExcept : Except ε (Reported α) → Reported (Except ε α)
  | .ok r => .ok <$> r
  | .error e => pure (.error e)

@[simp] theorem value_pure (a : α) : (pure a : Reported α).value = a := rfl

@[simp] theorem warnings_pure (a : α) : (pure a : Reported α).warnings = [] := rfl

@[simp] theorem value_bind (r : Reported α) (f : α → Reported β) :
    (r >>= f).value = (f r.value).value := rfl

@[simp] theorem warnings_bind (r : Reported α) (f : α → Reported β) :
    (r >>= f).warnings = r.warnings ++ (f r.value).warnings := rfl

@[simp] theorem value_map (f : α → β) (r : Reported α) : (f <$> r).value = f r.value := rfl

@[simp] theorem warnings_map (f : α → β) (r : Reported α) : (f <$> r).warnings = r.warnings :=
  List.append_nil _

end Reported

def usableScreen (screen : Binary64) : Bool := screen.isFinite && Binary64.less 0 screen

/-- The factor from pixels of the screen to pixels of the container. Without a usable screen pixels
stay as they are, and a screen that cannot be used is reported. -/
def pixelScale (container : Binary64) : Option Binary64 → Reported (Option Binary64)
  | none => pure none
  | some screen =>
    if usableScreen screen then pure (some (container / screen))
    else do
      Reported.warn (.unusableScreen screen)
      return none

def Term.value (container : Binary64) (scale : Option Binary64) : Term → Binary64
  | .zero => 0
  | .fraction n d => container * .ofInt64 n / .ofInt64 d
  | .percentage r => container * r
  | .pixels p => scale.elim p (p * ·)

namespace Expr

def value (container : Binary64) (scale : Option Binary64) : Expr → Binary64
  | .term t => t.value container scale
  | .binary left op right => op.apply (left.value container scale) (right.value container scale)

def measure (e : Expr) (container : Binary64) (screen : Option Binary64) : Reported Binary64 :=
  return e.value container (← pixelScale container screen)

def evaluate (e : Expr) (container : Binary64) (screen : Option Binary64) : Reported Int64 :=
  return (← e.measure container screen).round.toInt64

theorem value_evaluate (e : Expr) (container : Binary64) (screen : Option Binary64) :
    (e.evaluate container screen).value =
      (e.value container (pixelScale container screen).value).round.toInt64 := rfl

def resolve (text : String) (container : Binary64) (screen : Option Binary64) :
    Except ParseError (Reported Int64) :=
  return (← parse text).evaluate container screen

end Expr

end WindowLayout
