import Mathlib
import WindowLayout.Proofs.Binary64.Whole

/-! The order of numbers. Rounding keeps it, so products, quotients and sums of what is in order are
in order, even when one of the sums runs over and turns into what is not a number. -/

namespace WindowLayout.Binary64

def AtMost (x y : Binary64) : Prop := x.less y ∨ x.equal y

instance (x y : Binary64) : Decidable (AtMost x y) :=
  inferInstanceAs (Decidable (x.less y ∨ x.equal y))

theorem atMost_iff {x y : Binary64} :
    AtMost x y ↔ ∃ i j, x.position? = some i ∧ y.position? = some j ∧ i ≤ j := by
  rw [AtMost, less, equal]
  cases x.position? with
  | none => simp
  | some i =>
    cases y.position? with
    | none => simp
    | some j => simp [Int.le_iff_lt_or_eq]

theorem atMost_of_position {x y : Binary64} {i j : Int} (hx : x.position? = some i)
    (hy : y.position? = some j) (h : i ≤ j) : AtMost x y :=
  atMost_iff.2 ⟨i, j, hx, hy, h⟩

theorem signed_mono {f : Nat → Nat} (hf : Monotone f) (hzero : f 0 = 0) {s t : Bool} {a b : Nat}
    (h : signed s a ≤ signed t b) : signed s (f a) ≤ signed t (f b) := by
  cases s <;> cases t <;> simp only [signed_false, signed_true] at h ⊢
  · exact Int.ofNat_le.2 (hf (Int.ofNat_le.1 h))
  · have ha : a = 0 := by omega
    have hb : b = 0 := by omega
    rw [ha, hb, hzero]
    rfl
  · omega
  · have hle : f b ≤ f a := hf (by omega)
    omega

theorem signed_units_mono {s t : Bool} {a b : Nat} (h : signed s a ≤ signed t b) :
    signed s (units a) ≤ signed t (units b) :=
  signed_mono units_strictMono.monotone units_zero h

def placeOf (n d : Nat) : Nat := min (nearest n d) magnitudes

theorem placeOf_zero {d : Nat} (hd : 0 < d) : placeOf 0 d = 0 := by
  rw [placeOf, nearest_zero hd, Nat.zero_min]

theorem placeOf_mono {d : Nat} (hd : 0 < d) : Monotone fun n => placeOf n d := by
  intro m n h
  exact min_le_min_right _ (nearest_mono hd hd (Nat.mul_le_mul_right d h))

theorem position?_ofQuotient (negative : Bool) (n d : Nat) :
    (ofQuotient negative n d).position? = some (signed negative (placeOf n d)) := by
  rw [ofQuotient, placeOf]
  split
  · rename_i h
    rw [Nat.min_eq_left h.le]
    rfl
  · rename_i h
    rw [Nat.min_eq_right (Nat.le_of_not_lt h)]
    rfl

theorem position?_ofUnits (zeroNegative : Bool) (sum : Int) :
    (ofUnits zeroNegative sum).position? = some (signed (sum < 0) (placeOf sum.natAbs 1)) := by
  rw [ofUnits, position?_ofQuotient]
  split
  · rename_i h
    rw [h, Int.natAbs_zero, placeOf_zero Nat.one_pos, signed_zero, signed_zero]
  · rfl

theorem ofQuotient_ne_nan (negative : Bool) (n d : Nat) : ofQuotient negative n d ≠ .nan := by
  rw [ofQuotient]
  split <;> simp

theorem atMost_ofUnits (s t : Bool) {m n : Int} (h : m ≤ n) :
    AtMost (ofUnits s m) (ofUnits t n) := by
  apply atMost_of_position (position?_ofUnits s m) (position?_ofUnits t n)
  apply signed_mono (placeOf_mono Nat.one_pos) (placeOf_zero Nat.one_pos)
  rwa [signed_natAbs, signed_natAbs]

theorem atMost_ofQuotient {f : Nat → Nat} (hf : Monotone f) (hzero : f 0 = 0) {d : Nat} (hd : 0 < d)
    {s t : Bool} {a b : Nat} (h : signed s a ≤ signed t b) :
    AtMost (ofQuotient s (f a) d) (ofQuotient t (f b) d) := by
  apply atMost_of_position (position?_ofQuotient s _ d) (position?_ofQuotient t _ d)
  refine signed_mono (f := fun n => placeOf (f n) d) ((placeOf_mono hd).comp hf) ?_ h
  rw [hzero, placeOf_zero hd]

theorem signed_lt_magnitudes (negative : Bool) (rank : Fin magnitudes) :
    -(magnitudes : Int) < signed negative rank ∧ signed negative rank < magnitudes := by
  have hlt := rank.isLt
  cases negative <;> simp only [signed_false, signed_true] <;> omega

theorem exists_position? {x : Binary64} (h : x ≠ .nan) :
    ∃ i, x.position? = some i ∧ -(magnitudes : Int) ≤ i ∧ i ≤ magnitudes := by
  cases x with
  | nan => exact absurd rfl h
  | infinite negative =>
    refine ⟨_, rfl, ?_⟩
    cases negative <;> simp only [signed_false, signed_true] <;> omega
  | finite negative rank =>
    obtain ⟨hlow, hhigh⟩ := signed_lt_magnitudes negative rank
    exact ⟨_, rfl, hlow.le, hhigh.le⟩

namespace AtMost

variable {x y u v : Binary64}

theorem refl (h : x ≠ .nan) : AtMost x x := by
  obtain ⟨i, hi, -⟩ := exists_position? h
  exact atMost_of_position hi hi le_rfl

theorem ne_nan (h : AtMost x y) : x ≠ .nan ∧ y ≠ .nan := by
  obtain ⟨i, j, hi, hj, -⟩ := atMost_iff.1 h
  constructor
  · rintro rfl
    cases hi
  · rintro rfl
    cases hj

theorem top (h : x ≠ .nan) : AtMost x (.infinite false) := by
  obtain ⟨i, hi, -, hhigh⟩ := exists_position? h
  exact atMost_of_position hi rfl hhigh

theorem bottom (h : x ≠ .nan) : AtMost (.infinite true) x := by
  obtain ⟨i, hi, hlow, -⟩ := exists_position? h
  exact atMost_of_position rfl hi hlow

theorem cases (h : AtMost x y) :
    x = .infinite true ∨ y = .infinite false ∨
      ∃ s t a b, x = .finite s a ∧ y = .finite t b ∧ signed s a ≤ signed t b := by
  have hpos : (0 : Int) < magnitudes := by decide
  obtain ⟨i, j, hi, hj, hle⟩ := atMost_iff.1 h
  cases x with
  | nan => cases hi
  | infinite s =>
    cases hi
    cases y with
    | nan => cases hj
    | infinite t =>
      cases hj
      cases s with
      | true => exact .inl rfl
      | false =>
        cases t with
        | false => exact .inr (.inl rfl)
        | true =>
          rw [signed_false, signed_true] at hle
          omega
    | finite t b =>
      cases hj
      have hlt := (signed_lt_magnitudes t b).2
      cases s with
      | true => exact .inl rfl
      | false =>
        rw [signed_false] at hle
        omega
  | finite s a =>
    cases hi
    cases y with
    | nan => cases hj
    | infinite t =>
      cases hj
      have hlt := (signed_lt_magnitudes s a).1
      cases t with
      | false => exact .inr (.inl rfl)
      | true =>
        rw [signed_true] at hle
        omega
    | finite t b =>
      cases hj
      exact .inr (.inr ⟨s, t, a, b, rfl, rfl, hle⟩)

theorem mul (h : AtMost x y) (hx : x.isFinite) (hy : y.isFinite) (rank : Fin magnitudes) :
    AtMost (x * .finite false rank) (y * .finite false rank) := by
  rcases h.cases with rfl | rfl | ⟨s, t, a, b, rfl, rfl, hle⟩
  · cases hx
  · cases hy
  · have hmono : Monotone fun n => units n * units rank :=
      units_strictMono.monotone.mul_const (Nat.zero_le _)
    have hzero : units 0 * units rank = 0 := by rw [units_zero, Nat.zero_mul]
    rw [finite_mul_finite, finite_mul_finite, Bool.xor_false, Bool.xor_false]
    exact atMost_ofQuotient hmono hzero unitsInOne_pos hle

theorem div (h : AtMost x y) {rank : Fin magnitudes} (hrank : rank.val ≠ 0) :
    AtMost (x / .finite false rank) (y / .finite false rank) := by
  have hne {z : Binary64} (hz : z ≠ .nan) : z / .finite false rank ≠ .nan := by
    cases z with
    | nan => exact absurd rfl hz
    | infinite => exact Binary64.noConfusion
    | finite =>
      rw [finite_div_finite _ _ hrank]
      exact ofQuotient_ne_nan _ _ _
  obtain ⟨hx, hy⟩ := h.ne_nan
  rcases h.cases with rfl | rfl | ⟨s, t, a, b, rfl, rfl, hle⟩
  · exact bottom (hne hy)
  · exact top (hne hx)
  · have hmono : Monotone fun n => units n * unitsInOne :=
      units_strictMono.monotone.mul_const (Nat.zero_le _)
    have hzero : units 0 * unitsInOne = 0 := by rw [units_zero, Nat.zero_mul]
    rw [finite_div_finite _ _ hrank, finite_div_finite _ _ hrank, Bool.xor_false, Bool.xor_false]
    exact atMost_ofQuotient hmono hzero (units_pos hrank) hle

end AtMost

/-- In order, where a sum that is not a number lies between the two infinities. -/
inductive Below : Binary64 → Binary64 → Prop
  | atMost {x y : Binary64} : AtMost x y → Below x y
  | nan : Below .nan .nan
  | nan_top : Below .nan (.infinite false)
  | bottom_nan : Below (.infinite true) .nan

theorem below_top (x : Binary64) : Below x (.infinite false) := by
  cases x with
  | nan => exact .nan_top
  | infinite => exact .atMost (.top Binary64.noConfusion)
  | finite => exact .atMost (.top Binary64.noConfusion)

theorem bottom_below (x : Binary64) : Below (.infinite true) x := by
  cases x with
  | nan => exact .bottom_nan
  | infinite => exact .atMost (.bottom Binary64.noConfusion)
  | finite => exact .atMost (.bottom Binary64.noConfusion)

theorem bottom_add_below_nan {x : Binary64} (h : x ≠ .infinite true) :
    Below (.infinite true + x) .nan := by
  cases x with
  | nan => exact .nan
  | infinite s =>
    cases s with
    | true => exact absurd rfl h
    | false => exact .nan
  | finite => exact .bottom_nan

theorem top_add {x : Binary64} (hx : x ≠ .nan) (hbottom : x ≠ .infinite true) :
    Binary64.infinite false + x = .infinite false := by
  cases x with
  | nan => exact absurd rfl hx
  | infinite s =>
    cases s with
    | true => exact absurd rfl hbottom
    | false => rfl
  | finite => rfl

theorem add_top {x : Binary64} (hx : x ≠ .nan) (hbottom : x ≠ .infinite true) :
    x + .infinite false = .infinite false := by
  cases x with
  | nan => exact absurd rfl hx
  | infinite s =>
    cases s with
    | true => exact absurd rfl hbottom
    | false => rfl
  | finite => rfl

namespace AtMost

variable {x y u v : Binary64}

theorem eq_bottom (h : AtMost x (.infinite true)) : x = .infinite true := by
  rcases h.cases with hx | hy | ⟨s, t, a, b, hx, hy, -⟩
  · exact hx
  · cases hy
  · cases hy

theorem ne_bottom (h : AtMost x y) (hx : x ≠ .infinite true) : y ≠ .infinite true := by
  rintro rfl
  exact hx h.eq_bottom

theorem add (h : AtMost x y) (h' : AtMost u v) (hu : u ≠ .infinite true) :
    Below (x + u) (y + v) := by
  -- An infinite `v` decides the greater sum, and infinite sums stay where they are otherwise.
  rcases h'.cases with rfl | rfl | ⟨s', t', a', b', rfl, rfl, hle'⟩
  · exact absurd rfl hu
  · by_cases hy : y = .infinite true
    · obtain rfl := hy
      rw [h.eq_bottom]
      exact bottom_add_below_nan hu
    · rw [add_top h.ne_nan.2 hy]
      exact below_top _
  · rcases h.cases with rfl | rfl | ⟨s, t, a, b, rfl, rfl, hle⟩
    · exact bottom_below _
    · exact below_top _
    · rw [finite_add_finite, finite_add_finite]
      have hsum := Int.add_le_add (signed_units_mono hle) (signed_units_mono hle')
      exact .atMost (atMost_ofUnits _ _ hsum)

end AtMost

namespace Below

variable {x y u v : Binary64}

theorem add (h : Below x y) (h' : AtMost u v) (hu : u ≠ .infinite true) :
    Below (x + u) (y + v) := by
  cases h with
  | atMost h => exact h.add h' hu
  | nan => exact .nan
  | nan_top =>
    rw [top_add h'.ne_nan.2 (h'.ne_bottom hu)]
    exact .nan_top
  | bottom_nan => exact bottom_add_below_nan hu

theorem sub_finite (h : Below x y) (negative : Bool) (rank : Fin magnitudes) :
    Below (x - .finite negative rank) (y - .finite negative rank) :=
  h.add (.refl Binary64.noConfusion) Binary64.noConfusion

end Below

theorem RoundsTo.le {x y : Binary64} {i j : Int64} (hx : RoundsTo x i) (hy : RoundsTo y j)
    (h : Below x y) : i ≤ j := by
  cases h with
  | nan =>
    cases hx
    cases hy
    exact Int64.le_refl _
  | nan_top =>
    cases hx
    cases hy
    exact Int64.le_maxValue _
  | bottom_nan =>
    cases hx
    cases hy
    exact Int64.minValue_le _
  | atMost h =>
    rcases h.cases with rfl | rfl | ⟨s, t, a, b, rfl, rfl, hle⟩
    · cases hx
      exact Int64.minValue_le _
    · cases hy
      exact Int64.le_maxValue _
    · cases hx with
      | finite hq hi =>
        cases hy with
        | finite hq' hj =>
          have hwhole := signed_mono wholeOf_mono wholeOf_zero hle
          rw [← hq.eq_wholeOf, ← hq'.eq_wholeOf] at hwhole
          rw [Int64.le_iff_toInt_le, hi, hj]
          omega

end WindowLayout.Binary64
