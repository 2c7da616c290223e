import Mathlib
import WindowLayout.Proofs.Binary64.Whole

/-! How far rounding moves a number: by at most one part in `2 ^ 53`. A quotient of whole numbers, and
a product with one, still has the whole number of the exact value next to it after it was rounded. -/

namespace WindowLayout.Binary64

structure Close (n m : Nat) : Prop where
  below : (2 ^ 53 - 1) * n ≤ 2 ^ 53 * m
  above : 2 ^ 53 * m ≤ (2 ^ 53 + 1) * n

theorem Close.mul_right {n m : Nat} (h : Close n m) (k : Nat) : Close (n * k) (m * k) := by
  constructor
  · rw [← Nat.mul_assoc, ← Nat.mul_assoc]
    exact Nat.mul_le_mul_right k h.below
  · rw [← Nat.mul_assoc, ← Nat.mul_assoc]
    exact Nat.mul_le_mul_right k h.above

theorem close_nearest {n d : Nat} (hd : 0 < d) (h : n = 0 ∨ 2 ^ 52 * d ≤ n) :
    Close n (units (nearest n d) * d) := by
  rcases h with rfl | hn
  · rw [nearest_zero hd, units_zero, Nat.zero_mul]
    constructor <;> omega
  · obtain ⟨b, m, hr, heq⟩ := exists_rounding n hd
    have hunits : units (nearest n d) * d = m * (d * 2 ^ b) := by
      rw [heq, hr.units_eq hd]
      ring
    -- Where the binade is not the first one, the spacing is one part in `2 ^ 52` at most.
    have hspacing : 2 ^ 52 * (d * 2 ^ b) ≤ n := by
      rcases hr.normal with rfl | hnormal
      · rwa [pow_zero, Nat.mul_one]
      · exact hnormal
    have habove := hr.whole.above
    have hbelow := hr.whole.below
    rw [hunits]
    constructor <;> omega

theorem two_pow_le_unitsInOne {e : Nat} (h : e ≤ depth) : 2 ^ e ≤ unitsInOne := by
  rw [unitsInOne_eq]
  exact Nat.pow_le_pow_right Nat.two_pos h

theorem unitsInOne_eq_mul {e : Nat} (h : e ≤ depth) : unitsInOne = 2 ^ e * 2 ^ (depth - e) := by
  rw [unitsInOne_eq, ← pow_add, Nat.add_sub_cancel' h]

theorem normal_mul_unitsInOne (n : Nat) {d : Nat} (h : d ≤ 2 ^ 64) :
    n * unitsInOne = 0 ∨ 2 ^ 52 * d ≤ n * unitsInOne := by
  rcases Nat.eq_zero_or_pos n with rfl | hn
  · exact .inl (Nat.zero_mul _)
  · right
    calc
      2 ^ 52 * d ≤ 2 ^ 52 * 2 ^ 64 := Nat.mul_le_mul_left _ h
      _ ≤ 2 ^ 200 := by norm_num
      _ ≤ unitsInOne := two_pow_le_unitsInOne (by decide)
      _ ≤ n * unitsInOne := Nat.le_mul_of_pos_left _ hn

theorem middle_le_units_nearest {n d k : Nat} (hd : 0 < d) (hk : 2 * k + 1 ≤ 2 ^ 53)
    (h : (2 * k + 1) * d ≤ 2 * n) :
    (2 * k + 1) * unitsInOne ≤ 2 * units (nearest (n * unitsInOne) d) := by
  have hone : unitsInOne = 2 ^ 1 * 2 ^ (depth - 1) := unitsInOne_eq_mul (by decide)
  -- The middle between two whole numbers is kept itself, and rounding is monotone.
  have hle : nearest ((2 * k + 1) * 2 ^ (depth - 1)) 1 ≤ nearest (n * unitsInOne) d := by
    apply nearest_mono Nat.one_pos hd
    calc
      (2 * k + 1) * 2 ^ (depth - 1) * d = (2 * k + 1) * d * 2 ^ (depth - 1) := by ring
      _ ≤ 2 * n * 2 ^ (depth - 1) := Nat.mul_le_mul_right _ h
      _ = n * unitsInOne * 1 := by rw [hone]; ring
  have hunits := units_strictMono.monotone hle
  rw [units_nearest_mul_two_pow hk] at hunits
  calc
    (2 * k + 1) * unitsInOne = 2 * ((2 * k + 1) * 2 ^ (depth - 1)) := by rw [hone]; ring
    _ ≤ 2 * units (nearest (n * unitsInOne) d) := Nat.mul_le_mul_left 2 hunits

theorem HalfUp.quotient {n d q : Nat} (h : HalfUp n d q) (hn : n < 2 ^ 52) (hd : 0 < d)
    (hd' : d ≤ 2 ^ 53) : HalfUp (units (nearest (n * unitsInOne) d)) unitsInOne q := by
  have hbelow := h.below
  have habove := h.above
  constructor
  · rcases Nat.eq_zero_or_pos q with rfl | hq
    · omega
    · obtain ⟨k, rfl⟩ : ∃ k, q = k + 1 := ⟨q - 1, by omega⟩
      have hmiddle : (2 * k + 1) * d ≤ 2 * n := by linarith
      have hk : 2 * k + 1 ≤ 2 ^ 53 := by
        have := Nat.le_mul_of_pos_right (2 * k + 1) hd
        omega
      have := middle_le_units_nearest hd hk hmiddle
      linarith
  · -- The exact quotient is below the middle by one part of `2 * d` or more, which is not rounded away.
    have hclose := close_nearest hd (normal_mul_unitsInOne n (hd'.trans (by norm_num)))
    generalize units (nearest (n * unitsInOne) d) = u at hclose ⊢
    have hpos := unitsInOne_pos
    have hmiddle : 2 * n + 1 ≤ (2 * q + 1) * d := by linarith
    have hlt : 2 ^ 53 * d * (2 * u) < 2 ^ 53 * d * ((2 * q + 1) * unitsInOne) := by
      calc
        2 ^ 53 * d * (2 * u) = 2 * (2 ^ 53 * (u * d)) := by ring
        _ ≤ 2 * ((2 ^ 53 + 1) * (n * unitsInOne)) := Nat.mul_le_mul_left 2 hclose.above
        _ = (2 ^ 53 * (2 * n) + 2 * n) * unitsInOne := by ring
        _ < (2 ^ 53 * (2 * n) + 2 ^ 53) * unitsInOne :=
          Nat.mul_lt_mul_of_pos_right (by omega) hpos
        _ = 2 ^ 53 * unitsInOne * (2 * n + 1) := by ring
        _ ≤ 2 ^ 53 * unitsInOne * ((2 * q + 1) * d) := Nat.mul_le_mul_left _ hmiddle
        _ = 2 ^ 53 * d * ((2 * q + 1) * unitsInOne) := by ring
    have := Nat.lt_of_mul_lt_mul_left hlt
    linarith

theorem units_nearest_lt_half {n d : Nat} (hn : n < 2 ^ 52) (hd : 2 ^ 53 * unitsInOne ≤ d) :
    2 * units (nearest (n * unitsInOne * unitsInOne) d) < unitsInOne := by
  have hpos : 0 < d := (Nat.mul_pos (by norm_num) unitsInOne_pos).trans_le hd
  have hone : unitsInOne = 2 ^ 53 * 2 ^ (depth - 53) := unitsInOne_eq_mul (by decide)
  have hle : nearest (n * unitsInOne * unitsInOne) d ≤ nearest (n * 2 ^ (depth - 53)) 1 := by
    apply nearest_mono hpos Nat.one_pos
    calc
      n * unitsInOne * unitsInOne * 1 = n * 2 ^ (depth - 53) * (2 ^ 53 * unitsInOne) := by
        nth_rewrite 1 [hone]
        ring
      _ ≤ n * 2 ^ (depth - 53) * d := Nat.mul_le_mul_left _ hd
  have hunits := units_strictMono.monotone hle
  rw [units_nearest_mul_two_pow (hn.le.trans (by norm_num))] at hunits
  have hx : 0 < 2 ^ (depth - 53) := Nat.two_pow_pos _
  generalize 2 ^ (depth - 53) = x at hone hunits hx
  have := Nat.mul_lt_mul_of_pos_right hn hx
  omega

def productOfQuotient (a d b : Nat) : Nat :=
  units (nearest (units (nearest (a * unitsInOne) d) * b) 1)

section

variable {a b d q : Nat}

theorem productOfQuotient_close (hd : 0 < d) (hd' : d ≤ 2 ^ 64) (h : a * b ≤ 2 ^ 50) :
    2 * (productOfQuotient a d b * d) < 2 * (a * b * unitsInOne) + unitsInOne ∧
      2 * (a * b * unitsInOne) < 2 * (productOfQuotient a d b * d) + unitsInOne := by
  have hquotient := (close_nearest hd (normal_mul_unitsInOne a hd')).mul_right b
  rw [productOfQuotient]
  generalize units (nearest (a * unitsInOne) d) = j at hquotient ⊢
  have hexact : a * unitsInOne * b = a * b * unitsInOne := by ring
  have hshift : j * d * b = j * b * d := by ring
  rw [hexact, hshift] at hquotient
  have hnormal : j * b = 0 ∨ 2 ^ 52 * 1 ≤ j * b := by
    rcases normal_mul_unitsInOne (a * b) (d := 2 ^ 64) le_rfl with hzero | hlarge
    · have habove := hquotient.above
      rw [hzero] at habove
      exact .inl ((Nat.mul_eq_zero.1 (by omega)).resolve_right hd.ne')
    · right
      have hbelow := hquotient.below
      have := Nat.mul_le_mul_left (j * b) hd'
      omega
  have hproduct := (close_nearest Nat.one_pos hnormal).mul_right d
  rw [Nat.mul_one] at hproduct
  have hbound := Nat.mul_le_mul_right unitsInOne h
  obtain ⟨hbelow, habove⟩ := hquotient
  obtain ⟨hbelow', habove'⟩ := hproduct
  have hpos := unitsInOne_pos
  constructor <;> omega

theorem HalfUp.productOfQuotient (h : HalfUp (a * b) d q) (hd : 0 < d) (hd' : d ≤ 2 ^ 64)
    (hab : a * b ≤ 2 ^ 50) (hmiddle : 2 * (q * d) ≠ 2 * (a * b) + d) :
    HalfUp (productOfQuotient a d b) unitsInOne q := by
  obtain ⟨hlow, hhigh⟩ := productOfQuotient_close hd hd' hab
  generalize Binary64.productOfQuotient a d b = r at hlow hhigh ⊢
  obtain ⟨hbelow, habove⟩ := h
  have hq : 2 * (q * d) + 1 ≤ 2 * (a * b) + d := by omega
  constructor
  · have := Nat.mul_le_mul_right unitsInOne hq
    apply Nat.le_of_mul_le_mul_right _ hd
    linarith
  · have := Nat.mul_le_mul_right unitsInOne habove
    apply Nat.lt_of_mul_lt_mul_right (a := d)
    linarith

theorem exists_halfUp_productOfQuotient (hd : 0 < d) (hd' : d ≤ 2 ^ 64) (hab : a * b ≤ 2 ^ 50)
    (hmiddle : 2 * (q * d) = 2 * (a * b) + d) :
    ∃ k, (k = q ∨ k + 1 = q) ∧ HalfUp (productOfQuotient a d b) unitsInOne k := by
  obtain ⟨hlow, hhigh⟩ := productOfQuotient_close hd hd' hab
  generalize productOfQuotient a d b = r at hlow hhigh ⊢
  obtain ⟨k, rfl⟩ : ∃ k, q = k + 1 := by
    refine ⟨q - 1, (Nat.sub_add_cancel ?_).symm⟩
    rcases Nat.eq_zero_or_pos q with rfl | hq
    · omega
    · exact hq
  have hexact : 2 * (a * b) = (2 * k + 1) * d := by linarith
  have hone : unitsInOne ≤ d * unitsInOne := Nat.le_mul_of_pos_left _ hd
  have hscaled : 2 * (a * b * unitsInOne) = (2 * k + 1) * d * unitsInOne := by
    rw [← hexact]
    ring
  rcases Nat.lt_or_ge (2 * r) ((2 * k + 1) * unitsInOne) with hlt | hge
  · have hgt : 2 * (k * unitsInOne) < 2 * r := by
      apply Nat.lt_of_mul_lt_mul_right (a := d)
      linarith
    refine ⟨k, .inr rfl, ?_, ?_⟩
    · omega
    · linarith
  · have hlt : 2 * r < (2 * k + 2) * unitsInOne := by
      apply Nat.lt_of_mul_lt_mul_right (a := d)
      linarith
    refine ⟨k + 1, .inl rfl, ?_, ?_⟩
    · linarith
    · linarith

theorem productOfQuotient_of_exact (hd : 0 < d)
    (h : units (nearest (a * unitsInOne) d) * d = a * unitsInOne) :
    productOfQuotient a d b = units (nearest (a * b * unitsInOne) d) := by
  have hproduct : nearest (units (nearest (a * unitsInOne) d) * b) 1 =
      nearest (a * b * unitsInOne) d := by
    apply nearest_congr Nat.one_pos hd
    rw [Nat.mul_right_comm, h]
    ring
  rw [productOfQuotient, hproduct]

end

end WindowLayout.Binary64
