import Mathlib
import WindowLayout.Proofs.Binary64.Order
import WindowLayout.Proofs.Expr.OnePass
import WindowLayout.Proofs.Expr.RoundTrip

namespace WindowLayout

open Binary64 (AtMost Below)

theorem pixelScale_of_unusable (container : Binary64) {screen : Option Binary64}
    (h : ∀ size, screen = some size → ¬Usable size) :
    (pixelScale container screen).value = none := by
  cases screen with
  | none => rfl
  | some size => rw [pixelScale_of_not_usable container (h size rfl)]

namespace Term

inductive IsFixed : Term → Prop
  | zero : IsFixed .zero
  | pixels (length : Binary64) : IsFixed (.pixels length)

theorem exists_ofInt64_ofNat {n : Nat} (h : n < 2 ^ 63) :
    ∃ rank, Binary64.ofInt64 (.ofNat n) = .finite false rank := by
  obtain ⟨rank, hrank, -⟩ := Binary64.exists_ofInt_nearest (h.le.trans (by norm_num))
  exact ⟨rank, (ofInt64_ofNat h).trans hrank⟩

theorem exists_ofInt64_ofNat_pos {n : Nat} (h : n < 2 ^ 63) (hne : n ≠ 0) :
    ∃ rank, Binary64.ofInt64 (.ofNat n) = .finite false rank ∧ rank.val ≠ 0 := by
  rw [ofInt64_ofNat h]
  exact Binary64.exists_ofInt_pos (Nat.pos_of_ne_zero hne) (h.le.trans (by norm_num))

variable {text : List Char} {t : Term}

theorem Spells.exists_value_of_isFixed (h : Spells text t) (hfixed : t.IsFixed) :
    ∃ negative rank, ∀ container, t.value container none = .finite negative rank := by
  cases hfixed with
  | zero => exact ⟨false, _, fun _ => Binary64.zero_eq⟩
  | pixels =>
    cases h with
    | pixels _ hp =>
      obtain ⟨-, rank, rfl, -⟩ := hp
      exact ⟨false, rank, fun _ => rfl⟩

variable {c c' : Binary64}

theorem Spells.value_mono (h : Spells text t) (hc : c.isFinite) (hc' : c'.isFinite)
    (hle : AtMost c c') : AtMost (t.value c none) (t.value c' none) := by
  cases h with
  | zero =>
    rw [value, value, Binary64.zero_eq]
    exact .refl Binary64.noConfusion
  | fraction _ _ hn hd hne =>
    obtain ⟨a, ha⟩ := exists_ofInt64_ofNat hn
    obtain ⟨b, hb, hpos⟩ := exists_ofInt64_ofNat_pos hd hne
    rw [value, value, ha, hb]
    exact (hle.mul hc hc' a).div hpos
  | percentage _ hp =>
    obtain ⟨-, rank, rfl, -⟩ := hp
    rw [value, value, Binary64.div_hundred_eq]
    exact hle.mul hc hc' _
  | pixels _ hp =>
    obtain ⟨-, rank, rfl, -⟩ := hp
    exact .refl Binary64.noConfusion

theorem Spells.value_zero (h : Spells text t) (hpart : t.isPixels = false)
    (scale : Option Binary64) : t.value 0 scale = .zero false := by
  cases h with
  | zero => exact Binary64.zero_eq
  | fraction _ _ hn hd hne =>
    obtain ⟨a, ha⟩ := exists_ofInt64_ofNat hn
    obtain ⟨b, hb, hpos⟩ := exists_ofInt64_ofNat_pos hd hne
    rw [value, ha, hb, Binary64.zero_eq, Binary64.zero_mul_finite]
    exact Binary64.zero_div_finite false false hpos
  | percentage _ hp =>
    obtain ⟨-, rank, rfl, -⟩ := hp
    rw [value, Binary64.div_hundred_eq, Binary64.zero_eq]
    exact Binary64.zero_mul_finite false false _
  | pixels => cases hpart

theorem Spells.part_or_pixels (h : Spells text t) :
    t.isPixels = false ∨ ∃ rank, t = .pixels (.finite false rank) := by
  cases h with
  | pixels _ hp =>
    obtain ⟨-, rank, rfl, -⟩ := hp
    exact .inr ⟨rank, rfl⟩
  | _ => exact .inl rfl

theorem Spells.exists_value_zero (h : Spells text t) :
    ∃ rank, t.value 0 none = .finite false rank := by
  rcases h.part_or_pixels with hpart | ⟨rank, rfl⟩
  · exact ⟨_, h.value_zero hpart none⟩
  · exact ⟨rank, rfl⟩

theorem Spells.value_ne_bottom (h : Spells text t) (hc : c.isFinite) (hzero : AtMost 0 c) :
    t.value c none ≠ .infinite true := by
  -- The length only grows from the one in a container without length.
  obtain ⟨rank, hrank⟩ := h.exists_value_zero
  have hle := h.value_mono (c := 0) (by rw [Binary64.zero_eq]; rfl) hc hzero
  rw [hrank] at hle
  exact hle.ne_bottom Binary64.noConfusion

end Term

namespace Chain

variable {c c' : Binary64} (hc : c.isFinite) (hc' : c'.isFinite) (hzero : AtMost 0 c)
  (hle : AtMost c c')

include hc hc' hzero hle

theorem below_apply {op : Operator} {text : List Char} {t : Term} (h : Term.Spells text t)
    (hfixed : op = .subtract → t.IsFixed) {x y : Binary64} (hxy : Below x y) :
    Below (op.apply x (t.value c none)) (op.apply y (t.value c' none)) := by
  cases op with
  | add => exact hxy.add (h.value_mono hc hc' hle) (h.value_ne_bottom hc hzero)
  | subtract =>
    obtain ⟨negative, rank, hvalue⟩ := h.exists_value_of_isFixed (hfixed rfl)
    rw [hvalue, hvalue]
    exact hxy.sub_finite negative rank

theorem value_below {chain : Chain} (h : chain.All Term.IsCanonical)
    (hfixed : ∀ link ∈ chain.rest, link.1 = .subtract → link.2.IsFixed) :
    Below (chain.toExpr.value c none) (chain.toExpr.value c' none) := by
  rw [toExpr, value_extend, value_extend]
  apply List.foldl_rel
  · exact .atMost (h.1.spells.value_mono hc hc' hle)
  · intro link hlink x y hxy
    exact below_apply hc hc' hzero hle (h.2 link hlink).spells (hfixed link hlink) hxy

end Chain

namespace Expr

/-- If only zeros and pixels are subtracted and pixels are not scaled, then a container that is not
smaller does not give fewer pixels. -/
theorem evaluate_mono {s : String} {e : Expr} {c c' : Binary64} {screen : Option Binary64}
    (h : parse s = .ok e)
    (hfixed : ∀ link ∈ e.toChain.rest, link.1 = .subtract → link.2.IsFixed)
    (hscreen : ∀ size, screen = some size → ¬Usable size) (hc : c.isFinite) (hc' : c'.isFinite)
    (hzero : AtMost 0 c) (hle : AtMost c c') :
    (e.evaluate c screen).value ≤ (e.evaluate c' screen).value := by
  have hlinear := linear_of_parse h
  have hbelow := Chain.value_below hc hc' hzero hle hlinear.all_toChain hfixed
  rw [hlinear.toExpr_toChain] at hbelow
  rw [value_evaluate, value_evaluate, pixelScale_of_unusable c hscreen,
    pixelScale_of_unusable c' hscreen]
  exact (Binary64.roundsTo_iff.2 rfl).le (Binary64.roundsTo_iff.2 rfl) hbelow

theorem evaluate_mono_overflow :
    let e : Expr := .binary (.binary (.term (.percentage 1)) .add (.term (.percentage 1)))
      .subtract (.term (.pixels 50))
    let largest := Binary64.largest false
    parse "100% + 100% - 50px" = .ok e ∧
      (∀ link ∈ e.toChain.rest, link.1 = .subtract → link.2.IsFixed) ∧ ¬Usable 0 ∧
      AtMost 0 100 ∧ AtMost 100 largest ∧
      (e.evaluate 100 (some 0)).value ≤ (e.evaluate largest (some 0)).value ∧
      (e.evaluate 100 (some 0)).value = 150 ∧
      (e.evaluate largest (some 0)).value = Int64.maxValue := by
  intro e largest
  have hparse : parse "100% + 100% - 50px" = .ok e := by decide +kernel
  have hfixed : ∀ link ∈ e.toChain.rest, link.1 = .subtract → link.2.IsFixed := by
    have hrest : e.toChain.rest = [(.add, .percentage 1), (.subtract, .pixels 50)] := by rfl
    rw [hrest, List.forall_mem_cons, List.forall_mem_singleton]
    exact ⟨nofun, fun _ => .pixels 50⟩
  have husable : ¬Usable 0 := by
    rw [← usableScreen_iff]
    decide +kernel
  have hzero : AtMost 0 100 := by decide +kernel
  have hle : AtMost 100 largest := by decide +kernel
  refine ⟨hparse, hfixed, husable, hzero, hle, ?_, by decide +kernel, by decide +kernel⟩
  refine evaluate_mono hparse hfixed ?_ (by decide +kernel) (by decide +kernel) hzero hle
  intro size hsize
  obtain rfl := Option.some.inj hsize
  exact husable

end Expr

end WindowLayout
