import Mathlib
import WindowLayout.Proofs.Binary64.FifteenDigits
import WindowLayout.Proofs.Decimal.Significant

namespace WindowLayout.Binary64

open Decimal (AtMostDigits atMostDigits_of_lt atMostDigits_zero_iff)

structure IsCoarsest (rank value i c g : Nat) : Prop where
  le : g ≤ i
  dvd : 10 ^ g ∣ c
  near : c ≤ value / 10 ^ g * 10 ^ g + 10 ^ g
  coarser : ∀ j, g < j → j ≤ i → ∀ x, 10 ^ j ∣ x → ¬readsBack rank x

section

variable {rank value step i c : Nat}

theorem le_of_choose? (h : choose? rank value step = some c) : c ≤ value / step * step + step := by
  simp only [choose?] at h
  split at h
  · cases h
    exact Nat.le_add_right _ _
  · split at h
    · cases h
      exact le_rfl
    · cases h

theorem exists_isCoarsest (hvalue : readsBack rank value) (i : Nat) :
    ∃ g, IsCoarsest rank value i (chooseFrom rank value i) g := by
  have hpow (n : Nat) : Nat.pow 10 n = 10 ^ n := rfl
  induction i with
  | zero =>
    refine ⟨0, le_rfl, one_dvd _, ?_, fun j hj hj' => by omega⟩
    rw [chooseFrom, pow_zero, Nat.div_one, Nat.mul_one]
    exact Nat.le_succ value
  | succ i ih =>
    rw [chooseFrom, hpow]
    cases hc : choose? rank value (10 ^ (i + 1)) with
    | some c =>
      exact ⟨i + 1, le_rfl, dvd_of_choose? hc, le_of_choose? hc, fun j hj hj' => by omega⟩
    | none =>
      obtain ⟨g, hle, hdvd, hnear, hcoarser⟩ := ih
      refine ⟨g, Nat.le_succ_of_le hle, hdvd, hnear, ?_⟩
      intro j hj hj' x hx hread
      rcases Nat.le_or_eq_of_le_succ hj' with hle | rfl
      · exact hcoarser j hj hle x hx hread
      · obtain ⟨c, hsome⟩ := exists_choose? hvalue (by positivity) hx hread
        rw [hc] at hsome
        cases hsome

end

section

variable {rank value i c g count : Nat} {x : Decimal}

theorem readsBack_of_le_of_le (hx : nearest (x.digits * unitsInOne) (10 ^ x.places) = rank)
    (hvalue : readsBack rank value) (hlow : x.digits * 10 ^ depth ≤ c * 10 ^ x.places)
    (hhigh : c ≤ value) : readsBack rank c := by
  rw [readsBack_iff] at hvalue ⊢
  apply Nat.le_antisymm
  · rw [← hvalue]
    apply nearest_mono (by positivity) (by positivity)
    gcongr
  · rw [← hx]
    apply nearest_mono (by positivity) (by positivity)
    rw [Nat.mul_right_comm, Nat.mul_right_comm c]
    exact Nat.mul_le_mul_right _ hlow

theorem readsBack_of_eq (hx : nearest (x.digits * unitsInOne) (10 ^ x.places) = rank)
    (heq : c * 10 ^ x.places = x.digits * 10 ^ depth) : readsBack rank c := by
  rw [readsBack_iff, ← hx]
  apply nearest_congr (by positivity) (by positivity)
  rw [Nat.mul_right_comm, heq, Nat.mul_right_comm]

theorem IsCoarsest.lt_of_atMostDigits (hc : IsCoarsest rank value i c g) (hlt : g < i)
    (hvalue : readsBack rank value) (hi : 10 ^ i ≤ value)
    (hx : nearest (x.digits * unitsInOne) (10 ^ x.places) = rank)
    (h : AtMostDigits count x.digits) : i < count + g := by
  obtain ⟨m, hm, zeros, hdigits⟩ := h
  obtain ⟨e, hscaled⟩ : ∃ e, x.digits * 10 ^ depth = m * 10 ^ e :=
    ⟨zeros + depth, by rw [hdigits, Nat.mul_assoc, ← pow_add]⟩
  have hlarge : 10 ^ i * 10 ^ x.places < m * 10 ^ e := by
    by_contra hle
    refine hc.coarser i hlt le_rfl (10 ^ i) dvd_rfl (readsBack_of_le_of_le hx hvalue ?_ hi)
    rw [hscaled]
    exact Nat.le_of_not_lt hle
  have hfine : e ≤ x.places + g := by
    by_contra hgt
    obtain ⟨k, rfl⟩ := Nat.exists_eq_add_of_lt (Nat.lt_of_not_le hgt)
    refine hc.coarser (g + 1) (Nat.lt_succ_self g) hlt (m * 10 ^ (g + 1 + k)) ?_
      (readsBack_of_eq hx ?_)
    · exact Dvd.dvd.mul_left (pow_dvd_pow 10 (Nat.le_add_right _ _)) m
    · rw [hscaled]
      ring
  have hpow : 10 ^ (i + x.places) < 10 ^ (count + (x.places + g)) := by
    calc
      10 ^ (i + x.places) = 10 ^ i * 10 ^ x.places := pow_add _ _ _
      _ < m * 10 ^ e := hlarge
      _ ≤ m * 10 ^ (x.places + g) := Nat.mul_le_mul_left m (Nat.pow_le_pow_right (by norm_num) hfine)
      _ ≤ 10 ^ count * 10 ^ (x.places + g) := Nat.mul_le_mul_right _ hm.le
      _ = 10 ^ (count + (x.places + g)) := (pow_add _ _ _).symm
  have hexponent := (Nat.pow_lt_pow_iff_right (by norm_num)).1 hpow
  omega

theorem IsCoarsest.atMostDigits (hc : IsCoarsest rank value i c g) (hlt : value < 10 ^ (i + 1))
    (hcount : i < count + g) (hpos : 0 < count) : AtMostDigits count c := by
  obtain ⟨k, rfl⟩ := hc.dvd
  have hk : k ≤ 10 ^ count := by
    have hquotient : value / 10 ^ g < 10 ^ (i + 1 - g) := by
      rw [Nat.div_lt_iff_lt_mul (by positivity), ← pow_add, Nat.sub_add_cancel hc.le.step]
      exact hlt
    have hnear := hc.near
    rw [← Nat.succ_mul, Nat.mul_comm] at hnear
    calc
      k ≤ value / 10 ^ g + 1 := Nat.le_of_mul_le_mul_right hnear (by positivity)
      _ ≤ 10 ^ (i + 1 - g) := hquotient
      _ ≤ 10 ^ count := Nat.pow_le_pow_right (by norm_num) (by omega)
  rw [Nat.mul_comm]
  apply AtMostDigits.mul_pow
  rcases Nat.lt_or_eq_of_le hk with hlt | rfl
  · exact atMostDigits_of_lt hlt
  · exact ⟨1, Nat.one_lt_pow hpos.ne' (by norm_num), count, (Nat.one_mul _).symm⟩

theorem atMostDigits_chooseFrom (hvalue : readsBack rank value) (hlow : 10 ^ i ≤ value)
    (hhigh : value < 10 ^ (i + 1)) (hx : nearest (x.digits * unitsInOne) (10 ^ x.places) = rank)
    (h : AtMostDigits count x.digits) (hpos : 0 < count) :
    AtMostDigits count (chooseFrom rank value i) := by
  obtain ⟨g, hc⟩ := exists_isCoarsest hvalue i
  apply hc.atMostDigits hhigh _ hpos
  rcases Nat.lt_or_eq_of_le hc.le with hlt | rfl
  · exact hc.lt_of_atMostDigits hlt hvalue hlow hx h
  · exact Nat.lt_add_of_pos_left hpos

end

theorem atMostDigits_shortest {rank count : Nat} {x : Decimal}
    (hx : nearest (x.digits * unitsInOne) (10 ^ x.places) = rank)
    (h : AtMostDigits count x.digits) : AtMostDigits count (shortest rank).digits := by
  have hvalue := readsBack_value rank
  rw [shortest, Decimal.reduce]
  apply AtMostDigits.reduceFrom
  rcases Nat.eq_zero_or_pos rank with rfl | hrank
  · rw [units_zero, Nat.zero_mul]
    change AtMostDigits count 0
    exact atMostDigits_of_lt (by positivity)
  · have hpos : 0 < units rank * Nat.pow 5 depth :=
      Nat.mul_pos (units_zero ▸ units_strictMono hrank) (five_pow_pos depth)
    have hcount : 0 < count := by
      by_contra hzero
      rw [Nat.eq_zero_of_not_pos hzero, atMostDigits_zero_iff] at h
      rw [h, Nat.zero_mul, nearest_zero (by positivity)] at hx
      exact hrank.ne hx
    generalize units rank * Nat.pow 5 depth = value at hvalue hpos ⊢
    obtain ⟨i, hi⟩ : ∃ i, (Nat.toDigits 10 value).length = i + 1 :=
      Nat.exists_eq_add_one.2 (List.length_pos_iff.2 Nat.toDigits_ne_nil)
    have hlength (n : Nat) : (Nat.toDigits 10 value).length ≤ n ↔ value < 10 ^ n :=
      Decimal.length_toDigits_le_iff_lt hpos
    have hlow : 10 ^ i ≤ value := by
      rw [← Nat.not_lt, ← hlength]
      omega
    have hhigh : value < 10 ^ (i + 1) := by
      rw [← hlength]
      omega
    rw [hi, Nat.add_sub_cancel]
    exact atMostDigits_chooseFrom hvalue hlow hhigh hx h hcount

end WindowLayout.Binary64
