import WindowLayout.Layout
import WindowLayout.Memory

namespace WindowLayout

inductive Request : Type
  | parse (text : String)
  | resolve (text : String) (container : Binary64) (screen : Option Binary64)
  | layout (layout : LayoutText)
  | preview (layout : LayoutText) (picture screen : Size)
  | placement (layout : LayoutText) (area : Rect)
  | clear
  deriving DecidableEq

inductive Outcome : Type
  | expr (result : Except ParseError Expr)
  | length (result : Except ParseError Int64)
  | layout (result : Except LayoutError Layout)
  | rect (result : Except LayoutError Rect)
  | cleared

def Request.answer : Request → Reported Outcome
  | .parse text => pure (.expr (Expr.parse text))
  | .resolve text container screen =>
    .length <$> Reported.ofExcept (Expr.resolve text container screen)
  | .layout l => pure (.layout l.parse)
  | .preview l picture screen =>
    .rect <$> Reported.ofExcept (l.parse.map (·.preview picture screen))
  | .placement l area => pure (.rect (l.parse.map (·.placement area)))
  | .clear => pure .cleared

/-- A memory, unless its capacity is zero. -/
structure Cache (κ : Type) : Type where
  memory? : Option κ

namespace Cache

variable [Memory κ α]

def empty (capacity : Nat) : Cache κ := ⟨if capacity = 0 then none else some (Memory.new capacity)⟩

def get (cache : Cache κ) (key : String) : Option α × Cache κ :=
  match cache.memory? with
  | some memory =>
    let (found, memory) := Memory.get memory key
    (found, ⟨some memory⟩)
  | none => (none, cache)

def put (cache : Cache κ) (key : String) (a : α) : Cache κ :=
  ⟨cache.memory?.map fun memory => Memory.put memory key a⟩

def clear (cache : Cache κ) : Cache κ := ⟨cache.memory?.map Memory.clear⟩

def size (cache : Cache κ) : Nat := cache.memory?.elim 0 Memory.len

def entries (cache : Cache κ) : List (String × α) := cache.memory?.elim [] Memory.iter

end Cache

structure Session (κ : Type) : Type where
  cache : Cache κ
  hits : List String

namespace Session

def defaultCapacity : Nat := 128

variable [Memory κ Expr]

/-- Reads a text unless it is kept. A text that cannot be read is not kept. -/
def lookup (text : String) : ExceptT ParseError (StateM (Session κ)) Expr := do
  let session ← get
  let (found, cache) := session.cache.get text
  match found with
  | some e =>
    set (⟨cache, session.hits ++ [text]⟩ : Session κ)
    return e
  | none =>
    set { session with cache }
    let e ← ExceptT.mk (pure (Expr.parse text))
    modify fun session => { session with cache := session.cache.put text e }
    return e

def lookupLayout (layout : LayoutText) : ExceptT LayoutError (StateM (Session κ)) Layout :=
  layout.traverse fun field text => (lookup text).adapt (LayoutError.mk field)

def perform : Request → StateM (Session κ) (Reported Outcome)
  | .parse text => return pure (.expr (← (lookup text).run))
  | .resolve text container screen => do
    let e ← (lookup text).run
    return .length <$> Reported.ofExcept (e.map (·.evaluate container screen))
  | .layout l => return pure (.layout (← (lookupLayout l).run))
  | .preview l picture screen => do
    let layout ← (lookupLayout l).run
    return .rect <$> Reported.ofExcept (layout.map (·.preview picture screen))
  | .placement l area => do
    let layout ← (lookupLayout l).run
    return pure (.rect (layout.map (·.placement area)))
  | .clear => do
    modify fun session => { session with cache := session.cache.clear }
    return pure .cleared

end Session

structure Reply : Type where
  outcome : Reported Outcome
  hits : List String
  kept : Nat

namespace Session

variable [Memory κ Expr]

def step (cache : Cache κ) (request : Request) : Reply × Cache κ :=
  let (outcome, session) := (perform request).run ⟨cache, []⟩
  (⟨outcome, session.hits, session.cache.size⟩, session.cache)

def run (cache : Cache κ) : List Request → List Reply × Cache κ
  | [] => ([], cache)
  | request :: requests =>
    let (reply, next) := step cache request
    let (replies, last) := run next requests
    (reply :: replies, last)

end Session

end WindowLayout
