import Mathlib
import WindowLayout.Session.Basic

namespace WindowLayout

theorem parallelMap_eq_map [ParallelMap α β] [LawfulParallelMap α β] (f : α → β) (l : List α) :
    ParallelMap.parallelMap f l = l.map f := by
  apply List.ext_getElem?
  intro i
  rw [LawfulParallelMap.getElem?_parallelMap, List.getElem?_map]

namespace Request

def texts : Request → List String
  | .parse text | .resolve text _ _ => [text]
  | .layout l | .preview l _ _ | .placement l _ => [l.x, l.y, l.width, l.height]
  | .clear => []

end Request

namespace Cache

section

variable [Memory κ α] [LawfulMemory κ] {cache : Cache κ} {key : String} {a : α}
  {entry : String × α}

@[simp] theorem entries_empty (capacity : Nat) : (empty capacity : Cache κ).entries = [] := by
  rw [empty]
  split
  · rfl
  · exact LawfulMemory.iter_new (Nat.pos_of_ne_zero ‹_›)

@[simp] theorem entries_clear (cache : Cache κ) : cache.clear.entries = [] := by
  obtain ⟨_ | m⟩ := cache
  · rfl
  · exact LawfulMemory.iter_clear m

theorem mem_of_get (h : (cache.get key).1 = some a) : (key, a) ∈ cache.entries := by
  obtain ⟨_ | m⟩ := cache
  · cases h
  · exact LawfulMemory.mem_of_get h

theorem mem_of_mem_get (h : entry ∈ (cache.get key).2.entries) : entry ∈ cache.entries := by
  obtain ⟨_ | m⟩ := cache
  · cases h
  · exact LawfulMemory.mem_of_mem_get h

theorem mem_of_mem_put (h : entry ∈ (cache.put key a).entries) :
    entry = (key, a) ∨ entry.1 ≠ key ∧ entry ∈ cache.entries := by
  obtain ⟨_ | m⟩ := cache
  · cases h
  · exact LawfulMemory.mem_of_mem_put h

end

variable [Memory κ Expr] [LawfulMemory κ] {cache : Cache κ}

/-- Every entry is the expression its text spells. -/
def Faithful (cache : Cache κ) : Prop :=
  ∀ entry ∈ cache.entries, Expr.parse entry.1 = .ok entry.2

theorem faithful_empty (capacity : Nat) : (empty capacity : Cache κ).Faithful := by
  simp [Faithful]

theorem faithful_clear (cache : Cache κ) : cache.clear.Faithful := by
  simp [Faithful]

namespace Faithful

variable {text : String} {e : Expr}

theorem get (h : cache.Faithful) (text : String) : (cache.get text).2.Faithful :=
  fun entry hentry => h entry (mem_of_mem_get hentry)

theorem parse_eq (h : cache.Faithful) (hget : (cache.get text).1 = some e) :
    Expr.parse text = .ok e :=
  h (text, e) (mem_of_get hget)

theorem put (h : cache.Faithful) (he : Expr.parse text = .ok e) :
    (cache.put text e).Faithful := by
  intro entry hentry
  rcases mem_of_mem_put hentry with rfl | ⟨-, hold⟩
  · exact he
  · exact h entry hold

end Faithful

end Cache

namespace Session

variable [Memory κ Expr]

def visit (session : Session κ) (text : String) : Session κ :=
  let cache := (session.cache.get text).2
  match (session.cache.get text).1, Expr.parse text with
  | some _, _ => ⟨cache, session.hits ++ [text]⟩
  | none, .ok e => ⟨cache.put text e, session.hits⟩
  | none, .error _ => ⟨cache, session.hits⟩

def visitAll (session : Session κ) : List String → Session κ
  | [] => session
  | text :: texts =>
    match Expr.parse text with
    | .ok _ => (session.visit text).visitAll texts
    | .error _ => session.visit text

def serve (session : Session κ) : Request → Session κ
  | .clear => { session with cache := session.cache.clear }
  | request => session.visitAll request.texts

theorem visitAll_cons_of_ok {text : String} {e : Expr} (h : Expr.parse text = .ok e)
    (session : Session κ) (texts : List String) :
    session.visitAll (text :: texts) = (session.visit text).visitAll texts := by
  rw [visitAll, h]

theorem visitAll_cons_of_error {text : String} {e : ParseError} (h : Expr.parse text = .error e)
    (session : Session κ) (texts : List String) :
    session.visitAll (text :: texts) = session.visit text := by
  rw [visitAll, h]

theorem visitAll_singleton (session : Session κ) (text : String) :
    session.visitAll [text] = session.visit text := by
  cases h : Expr.parse text with
  | ok e => rw [visitAll_cons_of_ok h, visitAll]
  | error e => rw [visitAll_cons_of_error h]

@[simp] theorem run_cons (cache : Cache κ) (request : Request) (requests : List Request) :
    run cache (request :: requests) =
      ((step cache request).1 :: (run (step cache request).2 requests).1,
        (run (step cache request).2 requests).2) := rfl

theorem run_concat (cache : Cache κ) (requests : List Request) (request : Request) :
    run cache (requests ++ [request]) =
      ((run cache requests).1 ++ [(step (run cache requests).2 request).1],
        (step (run cache requests).2 request).2) := by
  induction requests generalizing cache with
  | nil => rfl
  | cons first requests ih => simp [ih]

variable [LawfulMemory κ] {session : Session κ}

theorem faithful_visit (h : session.cache.Faithful) (text : String) :
    (session.visit text).cache.Faithful := by
  have hget := h.get text
  rw [visit]
  split
  · exact hget
  · exact hget.put ‹_›
  · exact hget

theorem faithful_visitAll (h : session.cache.Faithful) (texts : List String) :
    (session.visitAll texts).cache.Faithful := by
  induction texts generalizing session with
  | nil => exact h
  | cons text texts ih =>
    have hvisit := faithful_visit h text
    rw [visitAll]
    split
    · exact ih hvisit
    · exact hvisit

theorem faithful_serve (h : session.cache.Faithful) (request : Request) :
    (session.serve request).cache.Faithful := by
  cases request with
  | clear => exact Cache.faithful_clear _
  | _ => exact faithful_visitAll h _

theorem run_lookup (h : session.cache.Faithful) (text : String) :
    (lookup text).run.run session = (Expr.parse text, session.visit text) := by
  have hget : StateT.run (get : ExceptT ParseError (StateM (Session κ)) (Session κ)).run session =
      pure (.ok session, session) := rfl
  rw [visit, lookup, ExceptT.run_bind, StateT.run_bind, hget, pure_bind]
  cases hfind : (session.cache.get text).1 with
  | some e =>
    rw [h.parse_eq hfind]
    simp only [hfind]
    rfl
  | none =>
    simp only [hfind]
    cases Expr.parse text with
    | ok e => simp; rfl
    | error e => simp; rfl

theorem run_field_bind (h : session.cache.Faithful) (field : Field)
    (text : String) (texts : List String) {next : Expr → ExceptT LayoutError (StateM (Session κ)) α}
    {read : Expr → Except LayoutError α}
    (hnext : ∀ e, (next e).run.run (session.visit text) =
      (read e, (session.visit text).visitAll texts)) :
    ((lookup text).adapt (LayoutError.mk field) >>= next).run.run session =
      (LayoutText.parseField field text >>= read, session.visitAll (text :: texts)) := by
  have hlookup : StateT.run (lookup text) session = (Expr.parse text, session.visit text) :=
    run_lookup h text
  simp only [ExceptT.run_bind, ExceptT.adapt, StateT.run_bind, ExceptT.run_mk, StateT.run_map,
    hlookup, LayoutText.parseField]
  cases hparse : Expr.parse text with
  | ok e =>
    rw [visitAll_cons_of_ok hparse]
    exact hnext e
  | error e =>
    rw [visitAll_cons_of_error hparse]
    rfl

theorem run_lookupLayout (h : session.cache.Faithful) (l : LayoutText) :
    (lookupLayout l).run.run session =
      (l.parse, session.visitAll [l.x, l.y, l.width, l.height]) := by
  have hx := faithful_visit h l.x
  have hy := faithful_visit hx l.y
  have hwidth := faithful_visit hy l.width
  apply run_field_bind h
  intro x
  apply run_field_bind hx
  intro y
  apply run_field_bind hy
  intro width
  apply run_field_bind hwidth
  intro height
  rfl

theorem run_perform (h : session.cache.Faithful) (request : Request) :
    (perform request).run session = (request.answer, session.serve request) := by
  cases request with
  | parse text =>
    simp only [perform, StateT.run_bind, run_lookup h, serve, Request.texts, visitAll_singleton]
    rfl
  | resolve text container screen =>
    simp only [perform, StateT.run_bind, run_lookup h, serve, Request.texts, visitAll_singleton,
      Request.answer, Expr.resolve]
    cases Expr.parse text <;> rfl
  | layout l =>
    simp only [perform, StateT.run_bind, run_lookupLayout h]
    rfl
  | preview l picture screen =>
    simp only [perform, StateT.run_bind, run_lookupLayout h]
    rfl
  | placement l area =>
    simp only [perform, StateT.run_bind, run_lookupLayout h]
    rfl
  | clear => rfl

variable {cache : Cache κ}

theorem step_eq (h : cache.Faithful) (request : Request) :
    step cache request =
      (⟨request.answer, (serve ⟨cache, []⟩ request).hits, (serve ⟨cache, []⟩ request).cache.size⟩,
        (serve ⟨cache, []⟩ request).cache) := by
  have hperform : (perform request).run ⟨cache, []⟩ = (request.answer, serve ⟨cache, []⟩ request) :=
    run_perform h request
  rw [step, hperform]

theorem faithful_step (h : cache.Faithful) (request : Request) :
    (step cache request).2.Faithful := by
  rw [step_eq h]
  exact faithful_serve h request

theorem faithful_run (h : cache.Faithful) (requests : List Request) :
    (run cache requests).2.Faithful := by
  induction requests generalizing cache with
  | nil => exact h
  | cons request requests ih => exact ih (faithful_step h request)

theorem outcomes_run (h : cache.Faithful) (requests : List Request) :
    (run cache requests).1.map Reply.outcome = requests.map Request.answer := by
  induction requests generalizing cache with
  | nil => rfl
  | cons request requests ih =>
    rw [run_cons, List.map_cons, List.map_cons, ih (faithful_step h request), step_eq h]

end Session

end WindowLayout
