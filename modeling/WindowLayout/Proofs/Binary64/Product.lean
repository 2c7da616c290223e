import Mathlib
import WindowLayout.Proofs.Binary64.Deviation

namespace WindowLayout.Binary64

theorem toInt_round_ofQuotient {n d q : Nat} (hd : 0 < d) (hlt : n < overflow * d)
    (h : HalfUp (units (nearest n d)) unitsInOne q) (hq : q < 2 ^ 63) :
    (ofQuotient false n d).round.toInt64.toInt = q := by
  rw [ofQuotient, dif_pos ((nearest_lt_magnitudes_iff hd).2 hlt)]
  exact toInt_round_finite false h hq

variable {a b d q : Nat}

theorem units_nearest_le (ha : a ≤ 2 ^ 53) (hd : 0 < d) :
    units (nearest (a * unitsInOne) d) ≤ a * unitsInOne := by
  have hle : nearest (a * unitsInOne) d ≤ nearest (a * 2 ^ depth) 1 := by
    rw [← unitsInOne_eq]
    apply nearest_mono hd Nat.one_pos
    exact Nat.mul_le_mul_left _ hd
  have hunits := units_strictMono.monotone hle
  rwa [units_nearest_mul_two_pow ha, ← unitsInOne_eq] at hunits

theorem ofInt_mul_quotient (ha : a ≤ 2 ^ 53) (hb : b ≤ 2 ^ 53) (hd : 0 < d) (hd' : d ≤ 2 ^ 53) :
    ofInt b * (ofInt a / ofInt d) =
      ofQuotient false (units (nearest (a * unitsInOne) d) * b) 1 := by
  obtain ⟨whole, hwhole, hunits⟩ := exists_ofInt_eq ha
  have hlt : nearest (a * unitsInOne) d < magnitudes := by
    rw [nearest_lt_magnitudes_iff hd]
    exact (whole_lt_overflow (ha.trans (by norm_num))).trans_le (Nat.le_mul_of_pos_right _ hd)
  have hquotient : ofInt a / ofInt d = .finite false ⟨nearest (a * unitsInOne) d, hlt⟩ := by
    rw [hwhole, div_ofInt hd hd', hunits, ofQuotient, dif_pos hlt]
  rw [hquotient, Binary64.mul_comm, mul_ofInt hb]

theorem toInt_round_mul_quotient_of_halfUp (ha : a ≤ 2 ^ 53) (hb : b ≤ 2 ^ 53) (hd : 0 < d)
    (hd' : d ≤ 2 ^ 53) (h : a * b ≤ 2 ^ 50)
    (hhalf : HalfUp (productOfQuotient a d b) unitsInOne q) (hq : q < 2 ^ 63) :
    (ofInt b * (ofInt a / ofInt d)).round.toInt64.toInt = q := by
  rw [ofInt_mul_quotient ha hb hd hd']
  apply toInt_round_ofQuotient Nat.one_pos _ hhalf hq
  calc
    units (nearest (a * unitsInOne) d) * b ≤ a * unitsInOne * b :=
      Nat.mul_le_mul_right b (units_nearest_le ha hd)
    _ = a * b * unitsInOne := Nat.mul_right_comm _ _ _
    _ < overflow * 1 := by
      rw [Nat.mul_one]
      exact whole_lt_overflow (h.trans (by norm_num))

theorem HalfUp.exists_near (h : HalfUp (a * b) d q) (hd : 0 < d) (hd' : d ≤ 2 ^ 64)
    (hab : a * b ≤ 2 ^ 50) :
    ∃ k, (k = q ∨ k + 1 = q) ∧ HalfUp (Binary64.productOfQuotient a d b) unitsInOne k := by
  by_cases hmiddle : 2 * (q * d) = 2 * (a * b) + d
  · exact exists_halfUp_productOfQuotient hd hd' hab hmiddle
  · exact ⟨q, .inl rfl, h.productOfQuotient hd hd' hab hmiddle⟩

theorem toInt_round_mul_quotient (ha : a ≤ 2 ^ 53) (hb : b ≤ 2 ^ 53) (hd : 0 < d)
    (hd' : d ≤ 2 ^ 53) (h : a * b ≤ 2 ^ 50) (hq : HalfUp (a * b) d q) :
    let length := (ofInt b * (ofInt a / ofInt d)).round.toInt64.toInt
    (2 * (q * d) ≠ 2 * (a * b) + d → length = q) ∧ (length = q ∨ length + 1 = q) := by
  intro length
  have hlength {k : Nat} (hk : HalfUp (productOfQuotient a d b) unitsInOne k) (hle : k ≤ q) :
      length = k := by
    apply toInt_round_mul_quotient_of_halfUp ha hb hd hd' h hk
    have hbelow := hq.below
    have := Nat.le_mul_of_pos_right q hd
    omega
  have hd64 : d ≤ 2 ^ 64 := hd'.trans (by norm_num)
  constructor
  · intro hmiddle
    exact hlength (hq.productOfQuotient hd hd64 h hmiddle) le_rfl
  · obtain ⟨k, hk, hnear⟩ := hq.exists_near hd hd64 h
    rw [hlength hnear (by omega)]
    omega

end WindowLayout.Binary64
