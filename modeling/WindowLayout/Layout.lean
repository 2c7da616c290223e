import WindowLayout.Expr.Evaluate

namespace WindowLayout

inductive Field : Type
  | x
  | y
  | width
  | height
  deriving DecidableEq

def Field.name : Field → String
  | .x => "x"
  | .y => "y"
  | .width => "width"
  | .height => "height"

structure Size : Type where
  width : Int64
  height : Int64
  deriving DecidableEq

def Size.along (s : Size) : Field → Int64
  | .x | .width => s.width
  | .y | .height => s.height

structure Region (α : Type) : Type where
  x : α
  y : α
  width : α
  height : α
  deriving DecidableEq

namespace Region

def get (r : Region α) : Field → α
  | .x => r.x
  | .y => r.y
  | .width => r.width
  | .height => r.height

def map (f : Field → α → β) (r : Region α) : Region β :=
  ⟨f .x r.x, f .y r.y, f .width r.width, f .height r.height⟩

def traverse [Monad m] (f : Field → α → m β) (r : Region α) : m (Region β) :=
  return ⟨← f .x r.x, ← f .y r.y, ← f .width r.width, ← f .height r.height⟩

def toList (r : Region α) : List (Field × α) :=
  [(.x, r.x), (.y, r.y), (.width, r.width), (.height, r.height)]

@[simp] theorem get_map (f : Field → α → β) (r : Region α) (i : Field) :
    (r.map f).get i = f i (r.get i) := by
  cases i <;> rfl

end Region

abbrev Rect : Type := Region Int64

namespace Rect

def size (r : Rect) : Size := ⟨r.width, r.height⟩

def moveBy (r origin : Rect) : Rect :=
  { r with
    x := .ofIntClamp (r.x.toInt + origin.x.toInt)
    y := .ofIntClamp (r.y.toInt + origin.y.toInt) }

end Rect

structure LayoutError : Type where
  field : Field
  cause : ParseError
  deriving DecidableEq

def LayoutError.message (e : LayoutError) : String :=
  "Invalid layout field '" ++ e.field.name ++ "': " ++ e.cause.message

abbrev LayoutText : Type := Region String

abbrev Layout : Type := Region Expr

namespace LayoutText

def parseField (field : Field) (text : String) : Except LayoutError Expr :=
  (Expr.parse text).mapError (LayoutError.mk field)

def parse (layout : LayoutText) : Except LayoutError Layout := layout.traverse parseField

def validate (layout : LayoutText) : List LayoutError :=
  layout.toList.filterMap fun (field, text) =>
    match parseField field text with
    | .ok _ => none
    | .error e => some e

end LayoutText

class ParallelMap (α β : Type) : Type where
  parallelMap : (α → β) → List α → List β

/-- The results stand in the order of the items. -/
class LawfulParallelMap (α β : Type) [ParallelMap α β] : Prop where
  getElem?_parallelMap (f : α → β) (l : List α) (i : Nat) :
    (ParallelMap.parallelMap f l)[i]? = l[i]?.map f

instance : ParallelMap α β := ⟨List.map⟩

instance : LawfulParallelMap α β := ⟨fun _ _ _ => List.getElem?_map⟩

namespace Layout

def preview (layout : Layout) (picture screen : Size) : Reported Rect :=
  layout.traverse fun field e =>
    e.evaluate (.ofInt64 (picture.along field)) (some (.ofInt64 (screen.along field)))

def fit (layout : Layout) (size : Size) : Rect :=
  layout.map fun field e => (e.evaluate (.ofInt64 (size.along field)) none).value

def placement (layout : Layout) (area : Rect) : Rect := (layout.fit area.size).moveBy area

def onMonitors [ParallelMap Rect Rect] (layout : Layout) (areas : List Rect) : List Rect :=
  ParallelMap.parallelMap layout.placement areas

end Layout

end WindowLayout
