import Mathlib
import WindowLayout.Expr.Printer
import WindowLayout.Proofs.Binary64.Agreement
import WindowLayout.Proofs.Expr.ZeroContainer

namespace WindowLayout

open Binary64 (Agree)

theorem Operator.agree_apply (op : Operator) {x y u v : Binary64} (h : Agree x y)
    (h' : Agree u v) : Agree (op.apply x u) (op.apply y v) := by
  cases op with
  | add => exact h.add h'
  | subtract => exact h.sub h'

namespace Term

inductive Equal : Term → Term → Prop
  | zero : Equal .zero .zero
  | fraction (n d : Int64) : Equal (.fraction n d) (.fraction n d)
  | percentage {r r' : Binary64} : r.equal r' → Equal (.percentage r) (.percentage r')
  | pixels {p p' : Binary64} : p.equal p' → Equal (.pixels p) (.pixels p')

theorem equal_iff {t u : Term} : t.equal u ↔ Equal t u := by
  constructor
  · intro h
    cases t with
    | zero =>
      cases u with
      | zero => exact .zero
      | _ => cases h
    | fraction n d =>
      cases u with
      | fraction n' d' =>
        simp only [equal, Bool.and_eq_true, decide_eq_true_eq] at h
        obtain ⟨rfl, rfl⟩ := h
        exact .fraction n d
      | _ => cases h
    | percentage r =>
      cases u with
      | percentage r' => exact .percentage h
      | _ => cases h
    | pixels p =>
      cases u with
      | pixels p' => exact .pixels h
      | _ => cases h
  · intro h
    cases h with
    | zero => rfl
    | fraction n d => simp [equal]
    | percentage h => exact h
    | pixels h => exact h

def hasNaN : Term → Bool
  | .zero | .fraction _ _ => false
  | .percentage r => r.isNaN
  | .pixels p => p.isNaN

theorem equal_self_iff {t : Term} : t.equal t ↔ t.hasNaN = false := by
  cases t with
  | zero => exact iff_of_true rfl rfl
  | fraction n d => exact iff_of_true (equal_iff.2 (.fraction n d)) rfl
  | percentage r => exact Binary64.equal_self_iff
  | pixels p => exact Binary64.equal_self_iff

namespace Equal

variable {t u v : Term}

theorem symm (h : Equal t u) : Equal u t := by
  cases h with
  | zero => exact .zero
  | fraction n d => exact .fraction n d
  | percentage h => exact .percentage (Binary64.equal_comm _ _ ▸ h)
  | pixels h => exact .pixels (Binary64.equal_comm _ _ ▸ h)

theorem trans (h : Equal t u) (h' : Equal u v) : Equal t v := by
  cases h with
  | zero => exact h'
  | fraction => exact h'
  | percentage h =>
    cases h' with
    | percentage h' => exact .percentage (Binary64.equal_trans h h')
  | pixels h =>
    cases h' with
    | pixels h' => exact .pixels (Binary64.equal_trans h h')

theorem isPixels_eq (h : Equal t u) : t.isPixels = u.isPixels := by
  cases h <;> rfl

theorem agree_value (h : Equal t u) (container : Binary64) (scale : Option Binary64) :
    Agree (t.value container scale) (u.value container scale) := by
  cases h with
  | zero => exact .refl _
  | fraction => exact .refl _
  | percentage h => exact (Binary64.agree_of_equal h).mul_left container
  | pixels h =>
    cases scale with
    | none => exact Binary64.agree_of_equal h
    | some factor => exact (Binary64.agree_of_equal h).mul_right factor

end Equal

end Term

namespace Expr

inductive Equal : Expr → Expr → Prop
  | term {t u : Term} : Term.Equal t u → Equal (.term t) (.term u)
  | binary {left left' right right' : Expr} (op : Operator) :
    Equal left left' → Equal right right' →
      Equal (.binary left op right) (.binary left' op right')

theorem equal_iff {a b : Expr} : a.equal b ↔ Equal a b := by
  constructor
  · intro h
    induction a generalizing b with
    | term t =>
      cases b with
      | term u => exact .term (Term.equal_iff.1 h)
      | binary => cases h
    | binary left op right ihl ihr =>
      cases b with
      | term => cases h
      | binary left' op' right' =>
        simp only [equal, Bool.and_eq_true, decide_eq_true_eq] at h
        obtain ⟨⟨hleft, rfl⟩, hright⟩ := h
        exact .binary op (ihl hleft) (ihr hright)
  · intro h
    induction h with
    | term h => exact Term.equal_iff.2 h
    | binary op _ _ ihl ihr => simp [equal, ihl, ihr]

theorem equal_self_iff {e : Expr} : e.equal e ↔ e.toChain.All fun t => t.hasNaN = false := by
  induction e with
  | term t =>
    rw [equal, Term.equal_self_iff]
    exact (and_iff_left (by simp [toChain])).symm
  | binary left op right ihl ihr =>
    rw [all_toChain_binary, ← ihl, ← ihr]
    simp [equal]

namespace Equal

variable {a b c : Expr}

theorem symm (h : Equal a b) : Equal b a := by
  induction h with
  | term h => exact .term h.symm
  | binary op _ _ ihl ihr => exact .binary op ihl ihr

theorem trans (h : Equal a b) (h' : Equal b c) : Equal a c := by
  induction h generalizing c with
  | term h =>
    cases h' with
    | term h' => exact .term (h.trans h')
  | binary op _ _ ihl ihr =>
    cases h' with
    | binary _ hleft hright => exact .binary op (ihl hleft) (ihr hright)

theorem hasPixels_eq (h : Equal a b) : a.hasPixels = b.hasPixels := by
  induction h with
  | term h => exact h.isPixels_eq
  | binary op _ _ ihl ihr => rw [hasPixels, hasPixels, ihl, ihr]

theorem agree_value (h : Equal a b) (container : Binary64) (scale : Option Binary64) :
    Agree (a.value container scale) (b.value container scale) := by
  induction h with
  | term h => exact h.agree_value container scale
  | binary op _ _ ihl ihr => exact op.agree_apply ihl ihr

theorem evaluate_eq (h : Equal a b) (container : Binary64) (screen : Option Binary64) :
    a.evaluate container screen = b.evaluate container screen := by
  have hvalue := (h.agree_value container (pixelScale container screen).value).toInt64_round
  rw [evaluate, evaluate, measure_eq, measure_eq]
  exact congrArg (fun pixels => Reported.mk pixels _) hvalue

end Equal

/-- Equality of expressions is symmetric and transitive, and an expression is equal to itself if and
only if no number in it is none. Equal expressions evaluate alike in every container and on every
screen, their lengths are equal or both none, and both have pixels or neither; yet they can be written
differently. -/
theorem equal_is_substitutable :
    (∀ a b : Expr, a.equal b = b.equal a) ∧
      (∀ a b c : Expr, a.equal b → b.equal c → a.equal c) ∧
      (∀ a : Expr, a.equal a ↔ a.toChain.All fun t => t.hasNaN = false) ∧
      (∀ a b : Expr, a.equal b →
        a.hasPixels = b.hasPixels ∧ ∀ container screen,
          a.evaluate container screen = b.evaluate container screen ∧
            ((a.measure container screen).value.isNaN ∧ (b.measure container screen).value.isNaN ∨
              (a.measure container screen).value.equal (b.measure container screen).value)) ∧
      ∃ a b : Expr, a.equal b ∧ a.toString = "0px" ∧ b.toString = "-0px" := by
  refine ⟨?_, ?_, fun a => equal_self_iff, ?_, ?_⟩
  · intro a b
    rw [Bool.eq_iff_iff, equal_iff, equal_iff]
    exact ⟨Equal.symm, Equal.symm⟩
  · intro a b c h h'
    exact equal_iff.2 ((equal_iff.1 h).trans (equal_iff.1 h'))
  · intro a b h
    have hequal := equal_iff.1 h
    refine ⟨hequal.hasPixels_eq, ?_⟩
    intro container screen
    refine ⟨hequal.evaluate_eq container screen, Binary64.agree_iff.1 ?_⟩
    exact hequal.agree_value container (pixelScale container screen).value
  · exact ⟨.term (.pixels (.zero false)), .term (.pixels (.zero true)), by decide +kernel⟩

theorem equal_is_substitutable_infinite :
    let a : Expr := .binary (.term (.percentage (.zero false))) .subtract
      (.term (.pixels (.zero false)))
    let b : Expr := .binary (.term (.percentage (.zero true))) .subtract
      (.term (.pixels (.zero true)))
    a.equal b ∧ b.equal a ∧ a.toString = "0% - 0px" ∧ b.toString = "-0% - -0px" ∧
      a.evaluate (.infinite false) (some 1920) = b.evaluate (.infinite false) (some 1920) ∧
      (a.measure (.infinite false) (some 1920)).value = .nan ∧
      (b.measure (.infinite false) (some 1920)).value = .nan := by
  intro a b
  have hequal : a.equal b := by decide +kernel
  obtain ⟨hsymm, -, -, hsubstitute, -⟩ := equal_is_substitutable
  obtain ⟨-, heverywhere⟩ := hsubstitute a b hequal
  refine ⟨hequal, hsymm a b ▸ hequal, by decide +kernel, by decide +kernel,
    (heverywhere (.infinite false) (some 1920)).1, by decide +kernel, by decide +kernel⟩

end Expr

end WindowLayout
