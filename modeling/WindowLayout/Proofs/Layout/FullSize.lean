import Mathlib
import WindowLayout.Layout
import WindowLayout.Proofs.Expr.Terms

namespace WindowLayout

theorem usable_ofInt64_iff {i : Int64} : Usable (.ofInt64 i) ↔ 0 < i := by
  have hbound := i.toInt_lt
  rw [Int64.lt_iff_toInt_lt, Int64.toInt_zero, Binary64.ofInt64]
  constructor
  · intro h
    exact (Binary64.zero_less_ofInt_iff (by omega)).1 h.positive
  · intro h
    lift i.toInt to Nat using h.le with n
    exact usable_ofInt (by omega) (by omega)

theorem Usable.div_self {size : Binary64} (h : Usable size) : size / size = 1 := by
  obtain ⟨hfinite, hpositive⟩ := h
  cases size with
  | nan => cases hfinite
  | infinite => cases hfinite
  | finite negative rank =>
    exact Binary64.div_self negative (Binary64.zero_less_finite_iff.1 hpositive).2

namespace Expr

theorem value_some_one (e : Expr) (container : Binary64) :
    e.value container (some 1) = e.value container none := by
  apply value_congr
  apply Chain.All.of_forall
  intro t
  cases t with
  | pixels p => exact Binary64.mul_one p
  | _ => rfl

theorem value_evaluate_full_size (e : Expr) {container screen : Int64}
    (h : screen ≤ 0 ∨ screen = container) :
    (e.evaluate (.ofInt64 container) (some (.ofInt64 screen))).value =
      (e.evaluate (.ofInt64 container) none).value := by
  have hvalue : e.value (.ofInt64 container)
      (pixelScale (.ofInt64 container) (some (.ofInt64 screen))).value =
        e.value (.ofInt64 container) none := by
    by_cases husable : Usable (.ofInt64 screen)
    -- A usable screen is positive, so it is as long as the container and the scale is one.
    · have hpos := usable_ofInt64_iff.1 husable
      obtain rfl := h.resolve_left (Int64.not_le.2 hpos)
      rw [pixelScale_of_usable _ husable, husable.div_self]
      exact e.value_some_one _
    · rw [pixelScale_of_not_usable _ husable]
  rw [value_evaluate, value_evaluate, hvalue]
  rfl

end Expr

namespace Region

theorem value_traverse (f : Field → α → Reported β) (r : Region α) :
    (r.traverse f).value = r.map fun field a => (f field a).value := rfl

end Region

namespace Layout

theorem placement_at_origin (layout : Layout) (size : Size) :
    layout.placement ⟨0, 0, size.width, size.height⟩ = layout.fit size := by
  simp [placement, Rect.size, Rect.moveBy, Int64.ofIntClamp_toInt]

theorem value_preview_full_size (layout : Layout) {picture screen : Size}
    (h : ∀ field, screen.along field ≤ 0 ∨ screen.along field = picture.along field) :
    (layout.preview picture screen).value = layout.fit picture := by
  rw [preview, Region.value_traverse, fit]
  simp only [Expr.value_evaluate_full_size _ (h _)]

/-- On a screen of the size of the picture the preview is the placement in a work area of that size,
and a side of the screen that is not positive counts as that of the picture. Elsewhere a placement
is the one at the origin with its corner moved, clamped only after the exact sum. -/
theorem full_size_preview_eq_placement (layout : Layout) :
    (∀ picture screen : Size,
      (screen.width ≤ 0 ∨ screen.width = picture.width) ∧
        (screen.height ≤ 0 ∨ screen.height = picture.height) →
      (layout.preview picture screen).value =
        layout.placement ⟨0, 0, picture.width, picture.height⟩) ∧
      (∀ size : Size,
        (layout.preview size size).value = layout.placement ⟨0, 0, size.width, size.height⟩) ∧
      ∀ area : Rect,
        let atOrigin := layout.placement ⟨0, 0, area.width, area.height⟩
        let placed := layout.placement area
        placed.x.toInt = max Int64.minValue.toInt
            (min Int64.maxValue.toInt (atOrigin.x.toInt + area.x.toInt)) ∧
          placed.y.toInt = max Int64.minValue.toInt
            (min Int64.maxValue.toInt (atOrigin.y.toInt + area.y.toInt)) ∧
          placed.width = atOrigin.width ∧ placed.height = atOrigin.height := by
  have hpreview (picture screen : Size)
      (h : (screen.width ≤ 0 ∨ screen.width = picture.width) ∧
        (screen.height ≤ 0 ∨ screen.height = picture.height)) :
      (layout.preview picture screen).value =
        layout.placement ⟨0, 0, picture.width, picture.height⟩ := by
    rw [placement_at_origin]
    apply layout.value_preview_full_size
    intro field
    cases field with
    | x => exact h.1
    | y => exact h.2
    | width => exact h.1
    | height => exact h.2
  refine ⟨hpreview, ?_, ?_⟩
  · intro size
    exact hpreview size size ⟨.inr rfl, .inr rfl⟩
  · intro area atOrigin placed
    have horigin : atOrigin = layout.fit area.size := layout.placement_at_origin area.size
    rw [horigin]
    exact ⟨Int64.toInt_ofIntClamp_eq _, Int64.toInt_ofIntClamp_eq _, rfl, rfl⟩

def banner : Layout :=
  ⟨.term (.pixels 10), .term (.pixels (1 / 0)),
    .binary (.term (.percentage (1 / 2))) .subtract (.term (.pixels 20)), .term (.fraction 1 0)⟩

theorem full_size_preview_banner :
    (((1920 : Int64) ≤ 0 ∨ (1920 : Int64) = 1920) ∧ ((0 : Int64) ≤ 0 ∨ (0 : Int64) = -5)) ∧
      (banner.preview ⟨1920, -5⟩ ⟨1920, 0⟩).value = banner.placement ⟨0, 0, 1920, -5⟩ ∧
      banner.placement ⟨0, 0, 1920, -5⟩ = ⟨10, Int64.maxValue, 940, Int64.minValue⟩ := by
  have h : ((1920 : Int64) ≤ 0 ∨ (1920 : Int64) = 1920) ∧ ((0 : Int64) ≤ 0 ∨ (0 : Int64) = -5) := by
    decide
  refine ⟨h, (full_size_preview_eq_placement banner).1 ⟨1920, -5⟩ ⟨1920, 0⟩ h, ?_⟩
  decide +kernel

end Layout

end WindowLayout
