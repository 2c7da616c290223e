import Mathlib
import WindowLayout.Proofs.Binary64.Deviation

namespace WindowLayout.Binary64

section

variable {rank value step i g a b c x : Nat}

theorem readsBack_of_between (ha : readsBack rank a) (hb : readsBack rank b) (hac : a ≤ c)
    (hcb : c ≤ b) : readsBack rank c := by
  have hpos := five_pow_pos depth
  rw [readsBack, beq_iff_eq] at ha hb ⊢
  apply Nat.le_antisymm
  · rw [← hb]
    exact nearest_mono hpos hpos (Nat.mul_le_mul_right _ hcb)
  · rw [← ha]
    exact nearest_mono hpos hpos (Nat.mul_le_mul_right _ hac)

theorem dvd_of_choose? (h : choose? rank value step = some c) : step ∣ c := by
  simp only [choose?] at h
  split at h
  · cases h
    exact Nat.dvd_mul_left _ _
  · split at h
    · cases h
      exact Nat.dvd_add (Nat.dvd_mul_left _ _) dvd_rfl
    · cases h

theorem exists_choose? (hvalue : readsBack rank value) (hstep : 0 < step) (hdvd : step ∣ x)
    (hx : readsBack rank x) : ∃ c, choose? rank value step = some c := by
  have hlow : value / step * step ≤ value := Nat.div_mul_le_self _ _
  have hhigh : value < value / step * step + step := Nat.lt_div_mul_add hstep
  obtain ⟨k, rfl⟩ := hdvd
  -- One of the multiples next to the value lies between it and the one that reads back.
  have hreads : readsBack rank (value / step * step) ∨
      readsBack rank (value / step * step + step) := by
    rcases Nat.lt_or_ge value (step * k) with hlt | hge
    · right
      refine readsBack_of_between hvalue hx hhigh.le ?_
      rw [← Nat.succ_mul, Nat.mul_comm step]
      have hk : value / step < k := Nat.div_lt_of_lt_mul hlt
      exact Nat.mul_le_mul_right step hk
    · left
      refine readsBack_of_between hx hvalue ?_ hlow
      rw [Nat.mul_comm step]
      have hk : k ≤ value / step := (Nat.le_div_iff_mul_le hstep).2 (Nat.mul_comm step k ▸ hge)
      exact Nat.mul_le_mul_right step hk
  simp only [choose?]
  split
  · exact ⟨_, rfl⟩
  · split
    · exact ⟨_, rfl⟩
    · simp_all

theorem chooseFrom_eq (hvalue : readsBack rank value) (hdvd : 10 ^ g ∣ x) (hx : readsBack rank x)
    (hunique : ∀ c, 10 ^ g ∣ c → readsBack rank c → c = x) (hi : g ≤ i) :
    chooseFrom rank value i = x := by
  have hpow (n : Nat) : Nat.pow 10 n = 10 ^ n := rfl
  have hchoice {i : Nat} (hi : g ≤ i) {c : Nat} (hc : choose? rank value (10 ^ i) = some c) :
      c = x :=
    hunique c ((pow_dvd_pow 10 hi).trans (dvd_of_choose? hc)) (readsBack_choose? hc)
  induction i, hi using Nat.le_induction with
  | base =>
    cases g with
    | zero => exact hunique value (one_dvd _) hvalue
    | succ g =>
      obtain ⟨c, hc⟩ := exists_choose? hvalue (by positivity) hdvd hx
      rw [chooseFrom, hpow, hc, Option.getD_some]
      exact hchoice le_rfl hc
  | succ i hi ih =>
    rw [chooseFrom, hpow]
    cases hc : choose? rank value (10 ^ (i + 1)) with
    | none => exact ih
    | some c => exact hchoice (Nat.le_succ_of_le hi) hc

theorem close_value (ha : readsBack rank a) (hnormal : 2 ^ 52 * Nat.pow 5 depth ≤ a) :
    Close a (units rank * Nat.pow 5 depth) := by
  rw [readsBack, beq_iff_eq] at ha
  rw [← ha]
  exact close_nearest (five_pow_pos depth) (.inr hnormal)

theorem normal_of_readsBack (hx : readsBack rank x) (hc : readsBack rank c)
    (hnormal : 2 ^ 53 * Nat.pow 5 depth ≤ x) : 2 ^ 52 * Nat.pow 5 depth ≤ c := by
  by_contra hlt
  -- Then the first number of the second binade and that of the third one would read back alike.
  have hreads {m : Nat} (hm : m ≤ 2 ^ 53) (hcm : c ≤ m * Nat.pow 5 depth) : rank = m := by
    have hle : m * Nat.pow 5 depth ≤ x := (Nat.mul_le_mul_right _ hm).trans hnormal
    have hread := readsBack_of_between hc hx hcm hle
    have hrank := nearest_units_mul m (five_pow_pos depth)
    rw [units_of_le hm] at hrank
    rw [readsBack, beq_iff_eq, hrank] at hread
    exact hread.symm
  have hlow := hreads (m := 2 ^ 52) (by norm_num) (by omega)
  have hhigh := hreads (m := 2 ^ 53) le_rfl (by omega)
  omega

theorem eq_of_readsBack (hx : readsBack rank x) (hc : readsBack rank c) (hdx : step ∣ x)
    (hdc : step ∣ c) (hnormal : 2 ^ 53 * Nat.pow 5 depth ≤ x) (hcoarse : x < 2 ^ 50 * step) :
    c = x := by
  obtain ⟨hbelow, habove⟩ := close_value hx (by omega)
  obtain ⟨hbelow', habove'⟩ := close_value hc (normal_of_readsBack hx hc hnormal)
  -- Both are that close to the value, so they are less than a step apart.
  have hlt : c < x + step := by omega
  have hgt : x < c + step := by omega
  obtain ⟨k, rfl⟩ := hdx
  obtain ⟨l, rfl⟩ := hdc
  have hle : l < k + 1 := Nat.lt_of_mul_lt_mul_left hlt
  have hge : k < l + 1 := Nat.lt_of_mul_lt_mul_left hgt
  rw [show l = k by omega]

theorem chooseFrom_decimal {digits k : Nat} (hdigits : digits < 2 ^ 50)
    (hx : readsBack rank (digits * 10 ^ k))
    (hnormal : 2 ^ 53 * Nat.pow 5 depth ≤ digits * 10 ^ k) :
    chooseFrom rank (units rank * Nat.pow 5 depth)
      ((Nat.toDigits 10 (units rank * Nat.pow 5 depth)).length - 1) = digits * 10 ^ k := by
  have hvalue := readsBack_value rank
  obtain ⟨hbelow, -⟩ := close_value hx (by omega)
  generalize units rank * Nat.pow 5 depth = value at hvalue hbelow ⊢
  have hlength : value < 10 ^ (Nat.toDigits 10 value).length :=
    (Nat.length_toDigits_le_iff (by norm_num) (List.length_pos_iff.2 Nat.toDigits_ne_nil)).1 le_rfl
  obtain ⟨i, hi⟩ : ∃ i, (Nat.toDigits 10 value).length = i + 1 :=
    Nat.exists_eq_add_one.2 (List.length_pos_iff.2 Nat.toDigits_ne_nil)
  rw [hi, pow_succ] at hlength
  rw [hi, Nat.add_sub_cancel]
  -- On the grid of the last digit nothing else reads back, nor on the coarsest one if that is finer.
  have hdvd : 10 ^ min k i ∣ digits * 10 ^ k :=
    Dvd.dvd.mul_left (pow_dvd_pow 10 (Nat.min_le_left _ _)) digits
  have hcoarse : digits * 10 ^ k < 2 ^ 50 * 10 ^ min k i := by
    rcases Nat.le_total k i with hle | hle
    · rw [Nat.min_eq_left hle]
      exact Nat.mul_lt_mul_of_pos_right hdigits (by positivity)
    · rw [Nat.min_eq_right hle]
      omega
  refine chooseFrom_eq hvalue hdvd hx ?_ (Nat.min_le_right _ _)
  intro c hc hread
  exact eq_of_readsBack hx hread hdvd hc hnormal hcoarse

end

theorem shortest_nearest {x : Decimal} (hplaces : x.places ≤ depth) (hdigits : x.digits < 2 ^ 50)
    (hnormal : x.digits = 0 ∨ 2 ^ 53 * 10 ^ x.places ≤ x.digits * unitsInOne) :
    shortest (nearest (x.digits * unitsInOne) (10 ^ x.places)) = x.reduce := by
  obtain ⟨digits, places⟩ := x
  rcases hnormal with rfl | hnormal
  · rw [Nat.zero_mul, nearest_zero (by positivity), shortest, units_zero, Nat.zero_mul]
    exact (Decimal.reduceFrom_zero depth).trans (Decimal.reduceFrom_zero places).symm
  · obtain ⟨k, hk⟩ : ∃ k, depth = places + k := Nat.exists_eq_add_of_le hplaces
    have hten : 10 ^ depth = 10 ^ places * 10 ^ k := by rw [hk, pow_add]
    generalize hrank : nearest (digits * unitsInOne) (10 ^ places) = rank
    have hreads : readsBack rank (digits * 10 ^ k) := by
      rw [readsBack_iff, ← hrank]
      apply nearest_congr (by positivity) (by positivity)
      rw [hten]
      ring
    have hlarge : 2 ^ 53 * Nat.pow 5 depth ≤ digits * 10 ^ k := by
      apply Nat.le_of_mul_le_mul_right _ (show 0 < 10 ^ places by positivity)
      calc
        2 ^ 53 * Nat.pow 5 depth * 10 ^ places = 2 ^ 53 * 10 ^ places * Nat.pow 5 depth := by ring
        _ ≤ digits * unitsInOne * Nat.pow 5 depth := Nat.mul_le_mul_right _ hnormal
        _ = digits * 10 ^ k * 10 ^ places := by
          rw [Nat.mul_assoc, Nat.mul_comm unitsInOne, ← ten_pow_depth, hten]
          ring
    rw [shortest, chooseFrom_decimal hdigits hreads hlarge, Decimal.reduce, Decimal.reduce]
    change Decimal.reduceFrom (digits * 10 ^ k) depth = Decimal.reduceFrom digits places
    rw [hk, Decimal.reduceFrom_mul_pow]

end WindowLayout.Binary64
