import Mathlib
import WindowLayout.Expr.Printer
import WindowLayout.Proofs.Binary64.Arithmetic

/-! A ratio that a percentage gives is also given by a neighbour of its product with 100, so the
search among the neighbours succeeds. -/

namespace WindowLayout.Binary64

variable {j k q : Nat}

theorem nearest_hundred_of_lt (hj : j < 2 ^ 52) (hq : nearest (units j * 100) 1 = q) :
    nearest (units q) 100 = j := by
  have hsame (rank : Nat) (hrank : rank ≤ 2 ^ 52) : units rank = rank := units_of_le (by omega)
  rw [hsame j hj.le] at hq
  obtain ⟨b, m, h, heq⟩ := exists_rounding (j * 100) Nat.one_pos
  have hspacing : 2 ^ b ≤ 64 := by
    by_contra hlt
    have hb : 6 < b := by
      by_contra hle
      exact hlt (Nat.pow_le_pow_right Nat.two_pos (Nat.le_of_not_lt hle))
    have hpow : 2 ^ 7 ≤ 2 ^ b := Nat.pow_le_pow_right Nat.two_pos hb
    have hnormal := h.normal.resolve_left (by omega)
    omega
  have habove := h.whole.above
  have hbelow := h.whole.below
  have hunits : units q = m * 2 ^ b := by
    rw [← hq, heq, h.units_eq Nat.one_pos]
  rw [Nat.one_mul, ← hunits] at habove hbelow
  rw [nearest_eq_iff (by decide)]
  constructor
  · rw [hsame j hj.le, hsame (j + 1) hj]
    omega
  · rintro i rfl
    rw [hsame i (by omega), hsame (i + 1) hj.le]
    omega
  · rw [hsame j hj.le, hsame (j + 1) hj]
    omega
  · rintro i rfl
    rw [hsame i (by omega), hsame (i + 1) hj.le]
    omega

/-- From the second binade on the product is less than one spacing away from what was divided: the
rounding of the quotient moved by at most 50 of its own spacings, and 64 of them or more are one
spacing there. -/
theorem near_of_nearest_hundred (hj : 2 ^ 52 ≤ j) (hk : nearest (units k) 100 = j)
    (hq : nearest (units j * 100) 1 = q) : k ≤ q + 1 ∧ q ≤ k + 1 := by
  obtain ⟨b, m, h, heq⟩ := exists_rounding (units k) (show 0 < 100 by decide)
  have hunits : units j = m * 2 ^ b := by
    rw [← hk, heq, h.units_eq (by decide)]
  have hm : 2 ^ 52 ≤ m := by
    rcases h.significand (by decide) with rfl | hm
    · omega
    · exact hm
  have hscale : m * (100 * 2 ^ b) = units j * 100 := by rw [hunits]; ring
  have habove := h.whole.above
  have hbelow := h.whole.below
  rw [hscale] at habove hbelow
  have hsix : 2 ^ (b + 6) = 64 * 2 ^ b := by ring
  have hpos := Nat.two_pow_pos b
  have hlarge : (b + 7) * 2 ^ 52 < k := by
    by_contra hle
    have hbound : units k ≤ units ((b + 6) * 2 ^ 52 + 2 ^ 52) :=
      units_strictMono.monotone (by omega)
    rw [units_add (by norm_num) (.inr le_rfl), hsix] at hbound
    have hleast : 2 ^ 52 * 2 ^ b ≤ units j := by
      rw [hunits]
      exact Nat.mul_le_mul_right _ hm
    omega
  -- So the gaps on both sides of `k` are at least 64 spacings of the quotient wide.
  have hgap (rank : Nat) (hrank : (b + 7) * 2 ^ 52 ≤ rank) :
      units rank + 64 * 2 ^ b ≤ units (rank + 1) := by
    rw [units_succ, ← hsix]
    exact Nat.add_le_add_left (Nat.pow_le_pow_right Nat.two_pos (by omega)) _
  obtain ⟨i, rfl⟩ : ∃ i, k = i + 1 := ⟨k - 1, by omega⟩
  have hprev := hgap i (by omega)
  have hnext := hgap (i + 1) (by omega)
  constructor
  · have hle : nearest (units i) 1 ≤ nearest (units j * 100) 1 :=
      nearest_mono Nat.one_pos Nat.one_pos (by omega)
    rw [nearest_units, hq] at hle
    omega
  · have hle : nearest (units j * 100) 1 ≤ nearest (units (i + 1 + 1)) 1 :=
      nearest_mono Nat.one_pos Nat.one_pos (by omega)
    rwa [nearest_units, hq] at hle

theorem nearest_units_hundred_mono (h : j ≤ k) : nearest (units j) 100 ≤ nearest (units k) 100 :=
  nearest_mono (by decide) (by decide) (Nat.mul_le_mul_right 100 (units_strictMono.monotone h))

theorem nearest_units_hundred_le (rank : Nat) : nearest (units rank) 100 ≤ rank := by
  have hle : nearest (units rank) 100 ≤ nearest (units rank) 1 :=
    nearest_mono (by decide) (by decide) (by omega)
  rwa [nearest_units] at hle

theorem exists_near_product {last : Nat} (hk : nearest (units k) 100 = j) (hlast : k ≤ last)
    (hq : nearest (units j * 100) 1 = q) :
    ∃ rank, rank ≤ last ∧ nearest (units rank) 100 = j ∧
      rank ≤ min q last + 1 ∧ min q last ≤ rank + 1 := by
  rcases Nat.lt_or_ge j (2 ^ 52) with hj | hj
  · refine ⟨min q last, Nat.min_le_right _ _, ?_, Nat.le_succ _, Nat.le_succ _⟩
    rcases Nat.le_total q last with hle | hle
    · rw [Nat.min_eq_left hle]
      exact nearest_hundred_of_lt hj hq
    · -- The largest magnitude lies between what was divided and the product.
      rw [Nat.min_eq_right hle]
      apply Nat.le_antisymm
      · calc
          nearest (units last) 100 ≤ nearest (units q) 100 := nearest_units_hundred_mono hle
          _ = j := nearest_hundred_of_lt hj hq
      · exact hk ▸ nearest_units_hundred_mono hlast
  · obtain ⟨hleft, hright⟩ := near_of_nearest_hundred hj hk hq
    exact ⟨k, hlast, hk, by omega, by omega⟩

theorem div_hundred (negative : Bool) (rank : Fin magnitudes) :
    .finite negative rank / 100 = ofQuotient negative (units rank) 100 :=
  div_ofInt (n := 100) (by decide) (by norm_num) negative rank

theorem mul_hundred (negative : Bool) (rank : Fin magnitudes) :
    .finite negative rank * 100 = ofQuotient negative (units rank * 100) 1 :=
  mul_ofInt (n := 100) (by norm_num) negative rank

theorem div_hundred_eq_iff {negative : Bool} {rank j : Fin magnitudes} :
    .finite negative rank / 100 = Binary64.finite negative j ↔ nearest (units rank) 100 = j := by
  rw [div_hundred, ofQuotient_eq_finite_iff]
  simp [eq_comm]

theorem div_hundred_eq (negative : Bool) (rank : Fin magnitudes) :
    Binary64.finite negative rank / 100 =
      .finite negative ⟨nearest (units rank) 100,
        (nearest_units_hundred_le rank).trans_lt rank.isLt⟩ :=
  div_hundred_eq_iff.2 rfl

end WindowLayout.Binary64

namespace WindowLayout.Percentage

open Binary64

theorem product_finite (negative : Bool) (rank : Fin magnitudes) :
    ∃ hlt : min (nearest (units rank * 100) 1) (magnitudes - 1) < magnitudes,
      product (.finite negative rank) = .finite negative ⟨_, hlt⟩ := by
  have hpos : 0 < magnitudes := by decide
  refine ⟨by omega, ?_⟩
  rw [product, mul_hundred, ofQuotient]
  split
  · rename_i other heq
    split at heq
    · cases heq
    · cases heq
      rw [largest, Binary64.finite.injEq, Fin.ext_iff]
      exact ⟨rfl, (Nat.min_eq_right (by omega)).symm⟩
  · split
    · rw [Binary64.finite.injEq, Fin.ext_iff]
      exact ⟨rfl, (Nat.min_eq_left (by omega)).symm⟩
    · rename_i hne hlarge
      simp [hlarge] at hne

theorem gives_eq (ratio p : Binary64) : gives ratio p = (p.isFinite && (p / 100).equal ratio) := by
  cases p with
  | nan => simp only [gives, Binary64.isFinite, Bool.false_and]
  | infinite => simp only [gives, Binary64.isFinite, Bool.false_and]
  | finite negative rank => rw [gives, reparses, ofChars?_toChars, Option.any_some]

theorem gives_iff {j : Fin magnitudes} (hj : 0 < j.val) {p : Binary64} :
    gives (.finite false j) p ↔
      ∃ rank : Fin magnitudes, p = .finite false rank ∧ p / 100 = .finite false j := by
  rw [gives_eq, Bool.and_eq_true]
  constructor
  · rintro ⟨hfinite, hequal⟩
    cases p with
    | nan => cases hfinite
    | infinite => cases hfinite
    | finite negative rank =>
      rw [div_hundred_eq] at hequal ⊢
      rcases eq_of_equal_finite hequal with h | ⟨-, h⟩
      · obtain ⟨rfl, -⟩ := Binary64.finite.inj h
        exact ⟨rank, rfl, h.symm⟩
      · obtain ⟨-, rfl⟩ := Binary64.finite.inj h
        cases hj
  · rintro ⟨rank, rfl, h⟩
    rw [h]
    exact ⟨rfl, equal_self rfl⟩

theorem gives_ofRatio {ratio p : Binary64} (hfinite : ratio.isFinite) (hp : p ∈ candidates ratio)
    (h : gives ratio p) : gives ratio (ofRatio ratio) := by
  rw [ofRatio, hfinite]
  simp only [Bool.not_true, Bool.false_eq_true, if_false]
  split
  · assumption
  · have hsome : ((candidates ratio).find? (gives ratio)).isSome :=
      List.find?_isSome.2 ⟨p, hp, h⟩
    obtain ⟨c, hc⟩ := Option.isSome_iff_exists.1 hsome
    rw [hc]
    exact List.find?_some hc

theorem exists_mem_candidates {j k : Fin magnitudes}
    (hk : .finite false k / 100 = Binary64.finite false j) :
    ∃ rank : Fin magnitudes, .finite false rank ∈ candidates (.finite false j) ∧
      .finite false rank / 100 = Binary64.finite false j := by
  have hlast : k.val ≤ magnitudes - 1 := Nat.le_sub_one_of_lt k.isLt
  obtain ⟨rank, hrank, hgives, hhigh, hlow⟩ :=
    exists_near_product (div_hundred_eq_iff.1 hk) hlast rfl
  obtain ⟨hlt, hproduct⟩ := product_finite false j
  refine ⟨⟨rank, by omega⟩, ?_, div_hundred_eq_iff.2 hgives⟩
  rw [candidates, hproduct, List.mem_map]
  have hstep : rank = min (nearest (units j * 100) 1) (magnitudes - 1) ∨
      rank + 1 = min (nearest (units j * 100) 1) (magnitudes - 1) ∨
      rank = min (nearest (units j * 100) 1) (magnitudes - 1) + 1 := by omega
  rcases hstep with h | h | h
  · exact ⟨0, by decide, neighbour_finite (by simp [h])⟩
  · exact ⟨-1, by decide, neighbour_finite (by simp [← h])⟩
  · exact ⟨1, by decide, neighbour_finite (by simp [h])⟩

theorem ofRatio_zero (negative : Bool) : ofRatio (zero negative) = zero negative := by
  cases negative <;> decide +kernel

theorem exists_ofRatio_eq {j k : Fin magnitudes}
    (hk : .finite false k / 100 = Binary64.finite false j) :
    ∃ rank : Fin magnitudes, ofRatio (.finite false j) = .finite false rank ∧
      .finite false rank / 100 = Binary64.finite false j := by
  rcases Nat.eq_zero_or_pos j.val with hzero | hpos
  · obtain rfl : j = ⟨0, by decide⟩ := Fin.ext hzero
    exact ⟨_, ofRatio_zero false, div_hundred_eq_iff.2 (by decide)⟩
  · obtain ⟨rank, hmem, hrank⟩ := exists_mem_candidates hk
    have hgives := gives_ofRatio rfl hmem ((gives_iff hpos).2 ⟨rank, rfl, hrank⟩)
    obtain ⟨best, hbest, hdiv⟩ := (gives_iff hpos).1 hgives
    exact ⟨best, hbest, hbest ▸ hdiv⟩

end WindowLayout.Percentage
