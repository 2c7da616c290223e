import Mathlib
import WindowLayout.Proofs.Expr.Monotone
import WindowLayout.Proofs.Expr.Terms

namespace WindowLayout

theorem Usable.zero_div {size : Binary64} (h : Usable size) : 0 / size = .zero false := by
  obtain ⟨hfinite, hpositive⟩ := h
  cases size with
  | nan => cases hfinite
  | infinite => cases hfinite
  | finite negative rank =>
    obtain ⟨rfl, hne⟩ := Binary64.zero_less_finite_iff.1 hpositive
    rw [Binary64.zero_eq]
    exact Binary64.zero_div_finite false false hne

namespace Term

def withoutPart : Term → Term
  | .zero | .fraction _ _ | .percentage _ => .zero
  | .pixels p => .pixels p

variable {text : List Char} {t : Term}

theorem Spells.value_withoutPart (h : Spells text t) (container : Binary64) :
    t.value 0 none = t.withoutPart.value container none := by
  rcases h.part_or_pixels with hpart | ⟨rank, rfl⟩
  · have hzero : t.withoutPart = .zero := by
      cases t with
      | pixels => cases hpart
      | _ => rfl
    rw [h.value_zero hpart, hzero, value, Binary64.zero_eq]
  · rfl

theorem Spells.value_zero_scaled (h : Spells text t) :
    t.value 0 (some (.zero false)) = .zero false := by
  rcases h.part_or_pixels with hpart | ⟨rank, rfl⟩
  · exact h.value_zero hpart _
  · change Binary64.finite false rank * .zero false = .zero false
    rw [Binary64.mul_comm]
    exact Binary64.zero_mul_finite false false rank

end Term

namespace Expr

def withoutParts : Expr → Expr := mapTerms Term.withoutPart

theorem measure_eq (e : Expr) (container : Binary64) (screen : Option Binary64) :
    e.measure container screen =
      ⟨e.value container (pixelScale container screen).value,
        (pixelScale container screen).warnings⟩ :=
  congrArg (Reported.mk _) (List.append_nil _)

theorem measure_of_unusable {screen : Option Binary64}
    (h : ∀ size, screen = some size → ¬Usable size) (e : Expr) (container : Binary64) :
    e.measure container screen = ⟨e.value container none, (pixelScale 0 screen).warnings⟩ := by
  have hwarnings : (pixelScale container screen).warnings = (pixelScale 0 screen).warnings :=
    (warns_iff container).1 ((warns_iff 0).2 rfl)
  rw [measure_eq, pixelScale_of_unusable container h, hwarnings]

/-- In a container without length, what was read from a text measures zero without a sign on every
usable screen. Elsewhere it measures what its pixels alone do, which is the same in all
containers. -/
theorem measure_zero_container {s : String} {e : Expr} (h : parse s = .ok e) :
    (∀ size, Usable size →
      e.measure 0 (some size) = ⟨.zero false, []⟩ ∧ e.evaluate 0 (some size) = ⟨0, []⟩) ∧
      ∀ screen, (∀ size, screen = some size → ¬Usable size) →
        ∀ container, e.measure 0 screen = e.withoutParts.measure container screen := by
  have hterms := (linear_of_parse h).all_toChain
  constructor
  · intro size hsize
    -- The scale from such a screen is zero too, so no term has a length.
    have hvalue : e.value 0 (some (.zero false)) = .zero false :=
      value_eq_zero (hterms.imp fun t ht => ht.spells.value_zero_scaled)
    have hmeasure : e.measure 0 (some size) = ⟨.zero false, []⟩ := by
      rw [measure_eq, pixelScale_of_usable 0 hsize, hsize.zero_div]
      exact congrArg (Reported.mk · []) hvalue
    refine ⟨hmeasure, ?_⟩
    rw [evaluate, hmeasure]
    decide +kernel
  · intro screen hscreen container
    have hvalue : e.value 0 none = e.withoutParts.value container none :=
      value_mapTerms (hterms.imp fun t ht => ht.spells.value_withoutPart container)
    rw [measure_of_unusable hscreen, measure_of_unusable hscreen, hvalue]

theorem measure_zero_container_mixed :
    let e : Expr := .binary (.binary (.term (.fraction 2 3)) .subtract (.term (.percentage (1 / 2))))
      .subtract (.term (.pixels 20))
    parse "2/3 - 50% - 20px" = .ok e ∧ Usable 1920 ∧ ¬Usable (.ofInt (-5)) ∧
      e.measure 0 (some 1920) = ⟨.zero false, []⟩ ∧
      e.measure 0 (some (.ofInt (-5))) = e.withoutParts.measure 300 (some (.ofInt (-5))) ∧
      e.evaluate 0 (some (.ofInt (-5))) = ⟨-20, [.unusableScreen (.ofInt (-5))]⟩ := by
  intro e
  have hparse : parse "2/3 - 50% - 20px" = .ok e := by decide +kernel
  have husable : Usable 1920 := usableScreen_iff.1 (by decide +kernel)
  have hunusable : ¬Usable (.ofInt (-5)) := by
    rw [← usableScreen_iff]
    decide +kernel
  obtain ⟨hscaled, hkept⟩ := measure_zero_container hparse
  refine ⟨hparse, husable, hunusable, (hscaled 1920 husable).1, ?_, by decide +kernel⟩
  apply hkept
  intro size hsize
  obtain rfl := Option.some.inj hsize
  exact hunusable

end Expr

end WindowLayout
