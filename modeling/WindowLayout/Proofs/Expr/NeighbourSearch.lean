import Mathlib
import WindowLayout.Proofs.Expr.Percentage

namespace WindowLayout

namespace Binary64

theorem toInt_word (negative : Bool) {low : Nat} (h : low < 1 <<< 63) :
    (word negative low).toInt64.toInt = low - (if negative then (2 : Int) ^ 63 else 0) := by
  cases negative with
  | false =>
    change (UInt64.ofNat low).toInt64.toInt = low - 0
    rw [UInt64.toInt64_ofNat', Int64.toInt_ofNat_of_lt h, Int.sub_zero]
  | true =>
    change (UInt64.ofNat (1 <<< 63 + low)).toInt64.toInt = low - 2 ^ 63
    have hsign : 1 <<< 63 = 2 ^ 63 := rfl
    have hsize : Int64.size = 2 ^ 64 := rfl
    rw [hsign] at h
    rw [UInt64.toInt64_ofNat', Int64.toInt_ofNat', Int.bmod_def, hsign, hsize]
    omega

theorem hundred_le_nearest {j : Nat} (h : j ≠ 0) : 100 ≤ nearest (units j * 100) 1 := by
  have hunits := units_pos h
  have hsmall : units 100 = 100 := units_of_le (by norm_num)
  have hle : nearest (units 100) 1 ≤ nearest (units j * 100) 1 :=
    nearest_mono Nat.one_pos Nat.one_pos (by omega)
  rwa [nearest_units] at hle

end Binary64

namespace Percentage

open Binary64

theorem gives_cleaned_zero (negative : Bool) :
    gives (zero negative) (cleaned (zero negative)) := by
  cases negative <;> decide +kernel

theorem natAbs_step_le {step : Int64} (h : step ∈ steps) : step.toInt.natAbs ≤ 3 := by
  simp only [steps, List.mem_cons, List.not_mem_nil, or_false] at h
  rcases h with rfl | rfl | rfl | rfl | rfl | rfl | rfl <;> decide

theorem exists_product_eq (negative : Bool) {j : Fin magnitudes} (h : j.val ≠ 0) :
    ∃ rank : Fin magnitudes, product (.finite negative j) = .finite negative rank ∧
      100 ≤ rank.val := by
  obtain ⟨hlt, hproduct⟩ := product_finite negative j
  have hlarge : 100 < magnitudes := by decide
  exact ⟨_, hproduct, Nat.le_min.2 ⟨hundred_le_nearest h, by omega⟩⟩

section

variable (negative : Bool) {rank : Fin magnitudes} {step : Int64}

theorem toInt_bits_add (hrank : 100 ≤ rank.val) (hstep : step.toInt.natAbs ≤ 3) :
    let bits := (Binary64.finite negative rank).toBits.toInt64
    (bits + step).toInt = bits.toInt + step.toInt := by
  have hlt : rank.val < magnitudes := rank.isLt
  have hmagnitudes : magnitudes + 3 < 2 ^ 63 := by decide
  intro bits
  have hbits : bits.toInt = rank - (if negative then (2 : Int) ^ 63 else 0) :=
    toInt_word negative (hlt.trans magnitudes_lt)
  rw [Int64.toInt_add, Int.bmod_eq_of_le] <;> rw [hbits] <;> split <;> omega

theorem dist_of_neighbour_finite (hrank : 100 ≤ rank.val) (hstep : step.toInt.natAbs ≤ 3)
    (h : (neighbour (.finite negative rank) step).isFinite) :
    ∃ other : Fin magnitudes, neighbour (.finite negative rank) step = .finite negative other ∧
      Nat.dist rank other = step.toInt.natAbs := by
  have hmagnitudes : magnitudes + 3 < 1 <<< 63 := by decide
  obtain ⟨low, hlow⟩ := Int.eq_ofNat_of_zero_le (show 0 ≤ (rank : Int) + step.toInt by omega)
  rw [neighbour_eq_ofBits hlow, ofBits_word negative (by omega)] at h ⊢
  split at h
  · rename_i hlt
    rw [dif_pos hlt]
    refine ⟨⟨low, hlt⟩, rfl, ?_⟩
    change rank.val - low + (low - rank.val) = _
    omega
  · split at h <;> cases h

end

/-- Where the neighbours of the product are tried, the ratio and the product have one sign, and the
product is not near zero. Its encoding has room for every step, and a step to a number leads as many
magnitudes up or down, to a number of the same sign. -/
theorem neighbour_search_is_safe {ratio : Binary64} (hfinite : ratio.isFinite)
    (h : ¬gives ratio (cleaned ratio)) :
    ∃ (negative : Bool) (j rank : Fin magnitudes),
      ratio = .finite negative j ∧ product ratio = .finite negative rank ∧ 100 ≤ rank.val ∧
        let bits := (product ratio).toBits.toInt64
        ∀ step ∈ steps,
          (bits + step).toInt = bits.toInt + step.toInt ∧
            (((product ratio).neighbour step).isFinite →
              ∃ other : Fin magnitudes,
                (product ratio).neighbour step = .finite negative other ∧
                  Nat.dist rank other = step.toInt.natAbs) := by
  cases ratio with
  | nan => cases hfinite
  | infinite => cases hfinite
  | finite negative j =>
    have hj : j.val ≠ 0 := by
      intro hzero
      obtain rfl : j = ⟨0, by decide⟩ := Fin.ext hzero
      exact h (gives_cleaned_zero negative)
    obtain ⟨rank, hproduct, hrank⟩ := exists_product_eq negative hj
    refine ⟨negative, j, rank, rfl, hproduct, hrank, ?_⟩
    intro bits step hstep
    have hle := natAbs_step_le hstep
    simp only [bits, hproduct]
    exact ⟨toInt_bits_add negative hrank hle, dist_of_neighbour_finite negative hrank hle⟩

theorem neighbour_search_is_safe_extremes :
    let least : Binary64 := .finite true ⟨1, by decide⟩
    let last : Binary64 := .largest true
    ¬gives least (cleaned least) ∧ product least = .finite true ⟨100, by decide⟩ ∧
      ((product least).toBits.toInt64 + -3).toInt = (product least).toBits.toInt64.toInt + -3 ∧
      (product least).neighbour (-3) = .finite true ⟨97, by decide⟩ ∧
      ¬gives last (cleaned last) ∧ product last = last ∧
      ((product last).toBits.toInt64 + 3).toInt = (product last).toBits.toInt64.toInt + 3 ∧
      (product last).neighbour 1 = .infinite true := by
  intro least last
  have hleast : ¬gives least (cleaned least) := by decide +kernel
  have hlast : ¬gives last (cleaned last) := by decide +kernel
  obtain ⟨_, _, _, -, -, -, hdown⟩ := neighbour_search_is_safe rfl hleast
  obtain ⟨_, _, _, -, -, -, hup⟩ := neighbour_search_is_safe rfl hlast
  exact ⟨hleast, by decide +kernel, (hdown (-3) (by decide)).1, by decide +kernel, hlast,
    by decide +kernel, (hup 3 (by decide)).1, by decide +kernel⟩

end Percentage

end WindowLayout
