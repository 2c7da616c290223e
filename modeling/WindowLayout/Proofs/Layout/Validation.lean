import Mathlib
import WindowLayout.Layout
import WindowLayout.Proofs.Expr.Acceptance
import WindowLayout.Proofs.Session.Answers

/-! Checking a layout reports every field that is no expression. Loading it, with or without a memory
of expressions, succeeds where nothing is reported and else fails with what is reported first. -/

namespace WindowLayout

open scoped List

namespace Region

def errors (f : Field → α → Except ε β) (fields : List (Field × α)) : List ε :=
  fields.filterMap fun (field, a) =>
    match f field a with
    | .ok _ => none
    | .error e => some e

theorem mem_toList {r : Region α} {field : Field} {a : α} :
    (field, a) ∈ r.toList ↔ a = r.get field := by
  cases field <;> simp [toList, get]

section

variable {f : Field → α → Except ε β} {r : Region α} {field : Field} {a : α}
  {fields : List (Field × α)}

theorem errors_cons_of_ok {b : β} (h : f field a = .ok b) :
    errors f ((field, a) :: fields) = errors f fields :=
  List.filterMap_cons_none (by simp only [h])

theorem errors_cons_of_error {e : ε} (h : f field a = .error e) :
    errors f ((field, a) :: fields) = e :: errors f fields :=
  List.filterMap_cons_some (by simp only [h])

theorem mem_errors {e : ε} :
    e ∈ errors f fields ↔ ∃ field a, (field, a) ∈ fields ∧ f field a = .error e := by
  rw [errors, List.mem_filterMap]
  constructor
  · rintro ⟨⟨field, a⟩, hmem, h⟩
    refine ⟨field, a, hmem, ?_⟩
    dsimp only at h
    split at h
    · cases h
    · cases h
      assumption
  · rintro ⟨field, a, hmem, h⟩
    exact ⟨(field, a), hmem, by simp only [h]⟩

theorem map_errors_sublist {key : ε → Field}
    (h : ∀ field a e, f field a = .error e → key e = field) :
    (errors f fields).map key <+ fields.map Prod.fst := by
  induction fields with
  | nil => exact .slnil
  | cons head fields ih =>
    obtain ⟨field, a⟩ := head
    cases hfield : f field a with
    | ok b =>
      rw [errors_cons_of_ok hfield]
      exact ih.cons field
    | error e =>
      rw [errors_cons_of_error hfield, List.map_cons, h field a e hfield]
      exact ih.cons_cons field

theorem bind_eq_error_iff {next : β → Except ε γ} {e : ε}
    (h : ∀ b, next b = .error e ↔ (errors f fields).head? = some e) :
    f field a >>= next = .error e ↔ (errors f ((field, a) :: fields)).head? = some e := by
  cases hfield : f field a with
  | ok b =>
    rw [errors_cons_of_ok hfield]
    exact h b
  | error e' =>
    rw [errors_cons_of_error hfield]
    simp [bind, Except.bind]

theorem traverse_eq_ok_iff {r' : Region β} :
    r.traverse f = .ok r' ↔ ∀ field, f field (r.get field) = .ok (r'.get field) := by
  simp only [traverse, Except.bind_eq_ok_iff]
  constructor
  · rintro ⟨x, hx, y, hy, width, hwidth, height, hheight, h⟩
    cases h
    intro field
    cases field with
    | x => exact hx
    | y => exact hy
    | width => exact hwidth
    | height => exact hheight
  · intro h
    exact ⟨_, h .x, _, h .y, _, h .width, _, h .height, rfl⟩

theorem traverse_eq_error_iff {e : ε} :
    r.traverse f = .error e ↔ (errors f r.toList).head? = some e := by
  apply bind_eq_error_iff
  intro x
  apply bind_eq_error_iff
  intro y
  apply bind_eq_error_iff
  intro width
  apply bind_eq_error_iff
  intro height
  simp [errors, pure, Except.pure]

theorem isOk_traverse_iff : (r.traverse f).isOk ↔ errors f r.toList = [] := by
  rw [← List.head?_eq_none_iff, Option.eq_none_iff_forall_ne_some]
  cases h : r.traverse f with
  | ok r' =>
    refine iff_of_true rfl ?_
    intro e he
    rw [← traverse_eq_error_iff, h] at he
    cases he
  | error e =>
    refine iff_of_false Bool.false_ne_true ?_
    intro hnone
    exact hnone e (traverse_eq_error_iff.1 h)

end

end Region

namespace LayoutText

theorem parseField_eq_ok_iff {field : Field} {text : String} {e : Expr} :
    parseField field text = .ok e ↔ Expr.parse text = .ok e := by
  rw [parseField]
  cases Expr.parse text <;> simp [Except.mapError]

theorem parseField_eq_error_iff {field : Field} {text : String} {e : LayoutError} :
    parseField field text = .error e ↔ e.field = field ∧ Expr.parse text = .error e.cause := by
  obtain ⟨field', cause⟩ := e
  rw [parseField]
  cases Expr.parse text <;> simp [Except.mapError, eq_comm]

variable {l : LayoutText}

theorem validate_eq_errors : l.validate = Region.errors parseField l.toList := by
  rw [validate, Region.errors]
  congr 1
  funext ⟨field, text⟩
  dsimp only
  cases parseField field text with
  | ok e => rfl
  | error e => rfl

theorem mem_validate {e : LayoutError} :
    e ∈ l.validate ↔ Expr.parse (l.get e.field) = .error e.cause := by
  rw [validate_eq_errors, Region.mem_errors]
  constructor
  · rintro ⟨field, text, hmem, h⟩
    obtain ⟨rfl, hparse⟩ := parseField_eq_error_iff.1 h
    rwa [← Region.mem_toList.1 hmem]
  · intro h
    exact ⟨e.field, l.get e.field, Region.mem_toList.2 rfl, parseField_eq_error_iff.2 ⟨rfl, h⟩⟩

theorem map_field_validate : l.validate.map LayoutError.field <+ [.x, .y, .width, .height] := by
  rw [validate_eq_errors]
  apply Region.map_errors_sublist
  intro field text e h
  exact (parseField_eq_error_iff.1 h).1

/-- Loading succeeds if nothing is reported, with the expression that each field spells, and fails
with what is reported first. -/
structure Loads (l : LayoutText) (result : Except LayoutError Layout) : Prop where
  isOk_iff : result.isOk ↔ l.validate = []
  get_eq : ∀ layout, result = .ok layout →
    ∀ field, Expr.parse (l.get field) = .ok (layout.get field)
  head_eq : ∀ e, result = .error e → l.validate.head? = some e

theorem loads_parse : l.Loads l.parse := by
  constructor
  · rw [validate_eq_errors]
    exact Region.isOk_traverse_iff
  · intro layout h field
    exact parseField_eq_ok_iff.1 (Region.traverse_eq_ok_iff.1 h field)
  · intro e h
    rw [validate_eq_errors]
    exact Region.traverse_eq_error_iff.1 h

/-- A check reports the fields that are no expressions, each once and in order, by their names and
with what is wrong with their texts. Loading the layout agrees with it, and so does loading it in a
session, whatever has been asked there before. -/
theorem validate_agrees_with_loading (κ : Type) [Memory κ Expr] [LawfulMemory κ]
    (l : LayoutText) :
    l.validate.map (·.field.name) <+ ["x", "y", "width", "height"] ∧
      (∀ e, e ∈ l.validate ↔ Expr.parse (l.get e.field) = .error e.cause) ∧
      l.Loads l.parse ∧
      ∀ (capacity : Nat) (requests : List Request) (hits : List String),
        let session : Session κ := ⟨(Session.run (.empty capacity) requests).2, hits⟩
        l.Loads ((Session.lookupLayout l).run.run session).1 := by
  refine ⟨?_, fun e => mem_validate, loads_parse, ?_⟩
  · have hnames := map_field_validate (l := l) |>.map Field.name
    rwa [List.map_map] at hnames
  · intro capacity requests hits session
    have hfaithful : session.cache.Faithful :=
      Session.faithful_run (Cache.faithful_empty capacity) requests
    rw [Session.run_lookupLayout hfaithful]
    exact loads_parse

theorem validate_agrees_with_loading_three_faults :
    let l : LayoutText := ⟨"0", "", "50% +", "10em"⟩
    let session : Session (LruList Expr) := ⟨(Session.run (.empty 2) [.parse "0"]).2, []⟩
    l.validate =
        [⟨.y, .empty⟩, ⟨.width, .incompleteExpression "+"⟩, ⟨.height, .unrecognizedTerm "10em"⟩] ∧
      ((Session.lookupLayout l).run.run session).1 = .error ⟨.y, .empty⟩ := by
  intro l session
  have hvalidate : l.validate =
      [⟨.y, .empty⟩, ⟨.width, .incompleteExpression "+"⟩,
        ⟨.height, .unrecognizedTerm "10em"⟩] := by
    decide +kernel
  obtain ⟨-, -, -, hsession⟩ := validate_agrees_with_loading (LruList Expr) l
  have hloads : l.Loads ((Session.lookupLayout l).run.run session).1 := hsession 2 [.parse "0"] []
  refine ⟨hvalidate, ?_⟩
  cases hresult : ((Session.lookupLayout l).run.run session).1 with
  | ok layout =>
    have hnone : l.validate = [] := hloads.isOk_iff.1 (by rw [hresult]; rfl)
    cases hvalidate.symm.trans hnone
  | error e =>
    have hhead := hloads.head_eq e hresult
    rw [hvalidate] at hhead
    cases hhead
    rfl

end LayoutText

end WindowLayout
