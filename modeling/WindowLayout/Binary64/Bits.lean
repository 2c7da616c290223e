import WindowLayout.Binary64.Basic

namespace WindowLayout.Binary64

def ofBits (bits : UInt64) : Binary64 :=
  let negative : Bool := 1 <<< 63 ≤ bits.toNat
  let rank := bits.toNat % 1 <<< 63
  if h : rank < magnitudes then .finite negative ⟨rank, h⟩
  else if rank = magnitudes then .infinite negative
  else .nan

def word (negative : Bool) (low : Nat) : UInt64 := .ofNat (if negative then 1 <<< 63 + low else low)

def toBits : Binary64 → UInt64
  | .nan => word false (magnitudes + 1 <<< 51)
  | .infinite negative => word negative magnitudes
  | .finite negative rank => word negative rank

def neighbour (x : Binary64) (step : Int64) : Binary64 :=
  ofBits (x.toBits.toInt64 + step).toUInt64

theorem toNat_word (negative : Bool) {low : Nat} (h : low < 1 <<< 63) :
    (word negative low).toNat = if negative then 1 <<< 63 + low else low := by
  rw [word, UInt64.toNat_ofNat']
  cases negative <;> simp <;> omega

theorem ofBits_word (negative : Bool) {low : Nat} (h : low < 1 <<< 63) :
    ofBits (word negative low) =
      if h : low < magnitudes then .finite negative ⟨low, h⟩
      else if low = magnitudes then .infinite negative
      else .nan := by
  have hmod : (word negative low).toNat % 1 <<< 63 = low := by
    rw [toNat_word negative h]
    cases negative <;> simp <;> omega
  have hsign : decide (1 <<< 63 ≤ (word negative low).toNat) = negative := by
    rw [toNat_word negative h]
    cases negative <;> simp; omega
  simp only [ofBits, hmod, hsign]

theorem magnitudes_lt : magnitudes < 1 <<< 63 := by decide

@[simp] theorem ofBits_toBits (x : Binary64) : ofBits x.toBits = x := by
  cases x with
  | nan => exact ofBits_word false (by decide)
  | infinite negative => simp [toBits, ofBits_word negative magnitudes_lt]
  | finite negative rank =>
    simp [toBits, ofBits_word negative (Nat.lt_trans rank.isLt magnitudes_lt)]

theorem neighbour_eq_ofBits {negative : Bool} {rank : Fin magnitudes} {low : Nat} {step : Int64}
    (h : (rank : Int) + step.toInt = low) :
    neighbour (.finite negative rank) step = ofBits (word negative low) := by
  have hadd (sign : Nat) : Int64.ofNat (sign + rank) + step = Int64.ofNat (sign + low) := by
    rw [← Int64.ofInt_eq_ofNat, ← Int64.ofInt_eq_ofNat, Int.natCast_add, Int.natCast_add, ← h,
      ← Int.add_assoc, Int64.ofInt_add (_ + _), Int64.ofInt_toInt]
  have hword (sign : Nat) : ((UInt64.ofNat (sign + rank)).toInt64 + step).toUInt64 =
      UInt64.ofNat (sign + low) := by
    rw [UInt64.toInt64_ofNat', hadd, Int64.toUInt64_ofNat']
  rw [neighbour, toBits]
  cases negative with
  | false =>
    have hzero := hword 0
    rw [Nat.zero_add, Nat.zero_add] at hzero
    exact congrArg ofBits hzero
  | true => exact congrArg ofBits (hword (1 <<< 63))

theorem neighbour_finite {negative : Bool} {rank target : Fin magnitudes} {step : Int64}
    (h : (rank : Int) + step.toInt = target) :
    neighbour (.finite negative rank) step = .finite negative target := by
  rw [neighbour_eq_ofBits h, ofBits_word negative (Nat.lt_trans target.isLt magnitudes_lt),
    dif_pos target.isLt]

end WindowLayout.Binary64
