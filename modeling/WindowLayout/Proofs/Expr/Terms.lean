import Mathlib
import WindowLayout.Proofs.Expr.Normal
import WindowLayout.Proofs.Expr.OnePass
import WindowLayout.Proofs.Expr.RoundTrip

namespace WindowLayout

open Text (spaced)

theorem Chain.All.of_forall {P : Term → Prop} (h : ∀ t, P t) (c : Chain) : c.All P :=
  ⟨h _, fun _ _ => h _⟩

def Chain.hasPixels (c : Chain) : Bool := c.first.isPixels || c.rest.any (·.2.isPixels)

namespace Expr

def mapTerms (f : Term → Term) : Expr → Expr
  | .term t => .term (f t)
  | .binary left op right => .binary (left.mapTerms f) op (right.mapTerms f)

@[simp] theorem mapTerms_id (e : Expr) : e.mapTerms id = e := by
  induction e with
  | term t => rfl
  | binary left op right ihl ihr => rw [mapTerms, ihl, ihr]

section

variable {c c' : Binary64} {scale scale' : Option Binary64}

theorem value_mapTerms {f : Term → Term} {e : Expr}
    (h : e.toChain.All fun t => t.value c scale = (f t).value c' scale') :
    e.value c scale = (e.mapTerms f).value c' scale' := by
  induction e with
  | term t => exact h.1
  | binary left op right ihl ihr =>
    obtain ⟨hleft, hright⟩ := all_toChain_binary.1 h
    rw [mapTerms, value, value, ihl hleft, ihr hright]

theorem value_congr {e : Expr}
    (h : e.toChain.All fun t => t.value c scale = t.value c' scale') :
    e.value c scale = e.value c' scale' := by
  have hvalue := value_mapTerms (f := id) h
  rwa [mapTerms_id] at hvalue

end

theorem value_eq_zero {c : Binary64} {scale : Option Binary64} {e : Expr}
    (h : e.toChain.All fun t => t.value c scale = .zero false) :
    e.value c scale = .zero false := by
  induction e with
  | term t => exact h.1
  | binary left op right ihl ihr =>
    obtain ⟨hleft, hright⟩ := all_toChain_binary.1 h
    rw [value, ihl hleft, ihr hright]
    cases op <;> decide +kernel

theorem hasPixels_toChain (e : Expr) : e.toChain.hasPixels = e.hasPixels := by
  induction e with
  | term t => simp [toChain, Chain.hasPixels, hasPixels]
  | binary left op right ihl ihr =>
    simp [toChain, Chain.hasPixels, hasPixels, ← ihl, ← ihr, Bool.or_assoc]

theorem hasPixels_eq_false_iff {e : Expr} :
    e.hasPixels = false ↔ e.toChain.All fun t => t.isPixels = false := by
  rw [← hasPixels_toChain, Chain.hasPixels, Bool.or_eq_false_iff, List.any_eq_false]
  simp [Chain.All]

theorem toChars_toChain (e : Expr) : e.toChain.toExpr.toChars = e.toChars := by
  -- Joined from left to right, the text is that of the first term and then of each link.
  have htext (e : Expr) : e.toChain.toExpr.toChars = e.toChain.first.toChars ++
      e.toChain.rest.flatMap fun link => spaced link.1.toChar link.2.toChars :=
    toChars_extend _ _
  induction e with
  | term t => rfl
  | binary left op right ihl ihr =>
    rw [toChars, ← ihl, ← ihr, htext, htext, htext]
    simp [toChain, spaced]

end Expr

end WindowLayout
