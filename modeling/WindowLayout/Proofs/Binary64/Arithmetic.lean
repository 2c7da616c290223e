import Mathlib
import WindowLayout.Binary64.Bits
import WindowLayout.Proofs.Binary64.Shortest

namespace WindowLayout.Binary64

theorem equal_self {x : Binary64} (h : x.isFinite) : x.equal x := by
  cases x with
  | nan => cases h
  | infinite => cases h
  | finite negative rank => simp [equal, position?]

theorem eq_of_signed_eq {s t : Bool} {a b : Nat} (h : signed s a = signed t b) :
    a = b ∧ (t = s ∨ a = 0) := by
  cases s <;> cases t <;> simp only [signed, if_true, if_false, Bool.false_eq_true] at h <;>
    simp <;> omega

theorem signed_false (n : Nat) : signed false n = n := by
  rfl

theorem signed_true (n : Nat) : signed true n = -n := by
  rfl

theorem signed_zero (negative : Bool) : signed negative 0 = 0 := by
  cases negative <;> rfl

theorem signed_natAbs (i : Int) : signed (i < 0) i.natAbs = i := by
  rw [signed]
  split <;> rename_i h <;> simp only [decide_eq_true_eq] at h <;> omega

theorem natAbs_signed (negative : Bool) (n : Nat) : (signed negative n).natAbs = n := by
  cases negative with
  | false => exact Int.natAbs_natCast n
  | true => rw [signed_true, Int.natAbs_neg, Int.natAbs_natCast]

theorem signed_not (negative : Bool) (n : Nat) : signed (!negative) n = -signed negative n := by
  cases negative <;> simp [signed]

theorem signed_mul (negative : Bool) (m n : Nat) :
    signed negative (m * n) = signed negative m * n := by
  cases negative <;> simp [signed]

theorem signed_xor (s t : Bool) (m n : Nat) :
    signed (s ^^ t) (m * n) = signed s m * signed t n := by
  cases s <;> cases t <;> simp [signed]

theorem eq_of_equal_finite {negative : Bool} {rank : Fin magnitudes} {y : Binary64}
    (h : (Binary64.finite negative rank).equal y) :
    y = .finite negative rank ∨ rank.val = 0 ∧ y = zero (!negative) := by
  cases y with
  | nan => simp [equal, position?] at h
  | infinite sign =>
    have hsigned : signed negative rank = signed sign magnitudes := by
      simpa [equal, position?] using h
    have hrank := (eq_of_signed_eq hsigned).1
    exact absurd rank.isLt hrank.not_lt
  | finite sign other =>
    have hsigned : signed negative rank = signed sign other := by
      simpa [equal, position?] using h
    obtain ⟨hrank, hsign⟩ := eq_of_signed_eq hsigned
    obtain rfl := Fin.ext hrank
    rcases eq_or_ne sign negative with rfl | hne
    · exact .inl rfl
    · have hzero := hsign.resolve_left hne
      obtain rfl := Bool.eq_not_of_ne hne
      exact .inr ⟨hzero, congrArg (Binary64.finite _) (Fin.ext hzero)⟩

theorem ofQuotient_congr {n d n' d' : Nat} (h : nearest n d = nearest n' d') (negative : Bool) :
    ofQuotient negative n d = ofQuotient negative n' d' := by
  simp only [ofQuotient, h]

theorem ofInt_natCast (n : Nat) : ofInt n = ofQuotient false (n * unitsInOne) 1 := by
  have hsum : (n : Int) * (unitsInOne : Int) = ((n * unitsInOne : Nat) : Int) := by push_cast; rfl
  have hsign : (if ((n * unitsInOne : Nat) : Int) = 0 then false
      else decide (((n * unitsInOne : Nat) : Int) < 0)) = false := by
    split
    · rfl
    · exact decide_eq_false (by omega)
  rw [ofInt, ofUnits, hsum, hsign, Int.natAbs_natCast]

theorem ofDecimal_eq_ofInt {x : Decimal} {n : Nat} (h : x.digits = n * 10 ^ x.places) :
    ofDecimal x = ofInt n := by
  change ofQuotient false (x.digits * unitsInOne) (10 ^ x.places) = _
  rw [ofInt_natCast, h]
  apply ofQuotient_congr
  apply nearest_congr (by positivity) Nat.one_pos
  ring

theorem exists_ofInt_eq {n : Nat} (h : n ≤ 2 ^ 53) :
    ∃ rank : Fin magnitudes, ofInt n = .finite false rank ∧ units rank = n * unitsInOne := by
  have hunits : units (nearest (n * unitsInOne) 1) = n * unitsInOne := by
    rw [unitsInOne_eq]
    exact units_nearest_mul_two_pow h depth
  have hlt : nearest (n * unitsInOne) 1 < magnitudes := by
    rw [nearest_lt_magnitudes_iff Nat.one_pos, Nat.mul_one]
    exact whole_lt_overflow (h.trans (by norm_num))
  exact ⟨⟨_, hlt⟩, by rw [ofInt_natCast, ofQuotient, dif_pos hlt], hunits⟩

theorem zero_eq : (0 : Binary64) = zero false := by decide +kernel

theorem exists_ofInt_nearest {n : Nat} (h : n ≤ 2 ^ 64) :
    ∃ rank : Fin magnitudes, ofInt n = .finite false rank ∧ rank.val = nearest (n * unitsInOne) 1 := by
  have hlt : nearest (n * unitsInOne) 1 < magnitudes := by
    rw [nearest_lt_magnitudes_iff Nat.one_pos, Nat.mul_one]
    exact whole_lt_overflow h
  exact ⟨⟨_, hlt⟩, by rw [ofInt_natCast, ofQuotient, dif_pos hlt], rfl⟩

theorem isClosestTo_ofInt {x : Decimal} {n : Nat} (h : x.digits = n * 10 ^ x.places)
    (hn : n ≤ 2 ^ 64) : IsClosestTo x (ofInt n) := by
  obtain ⟨rank, hrank, -⟩ := exists_ofInt_nearest hn
  rw [isClosestTo_iff, ofDecimal_eq_ofInt h]
  exact ⟨rfl, by rw [hrank]; rfl⟩

theorem mul_ofInt {n : Nat} (h : n ≤ 2 ^ 53) (negative : Bool) (rank : Fin magnitudes) :
    .finite negative rank * ofInt n = ofQuotient negative (units rank * n) 1 := by
  obtain ⟨whole, heq, hunits⟩ := exists_ofInt_eq h
  have hmul : Binary64.finite negative rank * ofInt n =
      ofQuotient negative (units rank * units whole) unitsInOne := by
    rw [heq]
    change ofQuotient (negative ^^ false) _ _ = _
    rw [Bool.xor_false]
  rw [hmul, hunits]
  apply ofQuotient_congr
  apply nearest_congr unitsInOne_pos Nat.one_pos
  ring

theorem finite_add_finite (s t : Bool) (a b : Fin magnitudes) :
    Binary64.finite s a + .finite t b =
      ofUnits (s && t) (signed s (units a) + signed t (units b)) := by
  rfl

theorem finite_mul_finite (s t : Bool) (a b : Fin magnitudes) :
    Binary64.finite s a * .finite t b = ofQuotient (s ^^ t) (units a * units b) unitsInOne := by
  rfl

theorem finite_div_finite (s t : Bool) {a b : Fin magnitudes} (hb : b.val ≠ 0) :
    Binary64.finite s a / .finite t b =
      ofQuotient (s ^^ t) (units a * unitsInOne) (units b) := by
  change (if b.val = 0 then _ else _) = _
  rw [if_neg hb]

theorem div_ofInt {n : Nat} (hpos : 0 < n) (h : n ≤ 2 ^ 53) (negative : Bool)
    (rank : Fin magnitudes) :
    .finite negative rank / ofInt n = ofQuotient negative (units rank) n := by
  obtain ⟨whole, heq, hunits⟩ := exists_ofInt_eq h
  have hne : whole.val ≠ 0 := by
    intro h0
    rw [h0, units_zero] at hunits
    exact (Nat.mul_pos hpos unitsInOne_pos).ne hunits
  rw [heq, finite_div_finite _ _ hne, Bool.xor_false, hunits]
  apply ofQuotient_congr
  exact nearest_mul_mul hpos unitsInOne_pos

protected theorem mul_comm (x y : Binary64) : x * y = y * x := by
  cases x with
  | nan => cases y <;> rfl
  | infinite s =>
    cases y with
    | nan => rfl
    | infinite t => exact congrArg Binary64.infinite (Bool.xor_comm s t)
    | finite t b =>
      change (if b.val = 0 then nan else infinite (s ^^ t)) =
        if b.val = 0 then nan else infinite (t ^^ s)
      rw [Bool.xor_comm]
  | finite s a =>
    cases y with
    | nan => rfl
    | infinite t =>
      change (if a.val = 0 then nan else infinite (s ^^ t)) =
        if a.val = 0 then nan else infinite (t ^^ s)
      rw [Bool.xor_comm]
    | finite t b =>
      change ofQuotient (s ^^ t) _ _ = ofQuotient (t ^^ s) _ _
      rw [Bool.xor_comm, Nat.mul_comm]

theorem zero_mul_finite (s t : Bool) (rank : Fin magnitudes) :
    zero s * .finite t rank = zero (s ^^ t) := by
  change ofQuotient (s ^^ t) (units 0 * units rank) unitsInOne = _
  rw [units_zero, Nat.zero_mul]
  exact ofQuotient_eq_finite_iff.2 ⟨rfl, (nearest_zero unitsInOne_pos).symm⟩

theorem ofInt_mul_ofInt {m n : Nat} (hm : m ≤ 2 ^ 53) (hn : n ≤ 2 ^ 64) (h : m * n ≤ 2 ^ 53) :
    ofInt m * ofInt n = ofInt (m * n : Nat) := by
  rcases Nat.eq_zero_or_pos m with rfl | hpos
  · obtain ⟨rank, hrank, -⟩ := exists_ofInt_nearest hn
    have hzero : ofInt (0 : Nat) = zero false := zero_eq
    rw [hrank, Nat.zero_mul, hzero, zero_mul_finite, Bool.xor_false]
  · obtain ⟨rank, hrank, hunits⟩ := exists_ofInt_eq hm
    have hn : n ≤ 2 ^ 53 := (Nat.le_mul_of_pos_left n hpos).trans h
    rw [hrank, mul_ofInt hn, ofInt_natCast, hunits, Nat.mul_right_comm]

theorem units_pos {rank : Nat} (h : rank ≠ 0) : 0 < units rank :=
  units_strictMono (Nat.pos_of_ne_zero h)

theorem ne_zero_of_units_pos {rank : Nat} (h : 0 < units rank) : rank ≠ 0 := by
  rintro rfl
  exact h.ne' rfl

theorem zero_div_finite (s t : Bool) {rank : Fin magnitudes} (h : rank.val ≠ 0) :
    zero s / .finite t rank = zero (s ^^ t) := by
  rw [zero, finite_div_finite _ _ h, units_zero, Nat.zero_mul]
  exact ofQuotient_eq_finite_iff.2 ⟨rfl, (nearest_zero (units_pos h)).symm⟩

theorem exists_one_eq :
    ∃ rank : Fin magnitudes, (1 : Binary64) = .finite false rank ∧ units rank = unitsInOne := by
  obtain ⟨rank, hone, hunits⟩ := exists_ofInt_eq (n := 1) (by decide)
  exact ⟨rank, hone, by rw [hunits, Nat.one_mul]⟩

protected theorem mul_one (x : Binary64) : x * 1 = x := by
  cases x with
  | nan => rfl
  | infinite negative =>
    obtain ⟨rank, hone, hunits⟩ := exists_one_eq
    have hne : rank.val ≠ 0 := ne_zero_of_units_pos (hunits ▸ unitsInOne_pos)
    rw [hone]
    change (if rank.val = 0 then _ else Binary64.infinite (negative ^^ false)) = _
    rw [if_neg hne, Bool.xor_false]
  | finite negative rank =>
    have hmul := mul_ofInt (n := 1) (by decide) negative rank
    rw [Nat.mul_one, ofQuotient_units] at hmul
    exact hmul

protected theorem div_self (negative : Bool) {rank : Fin magnitudes} (h : rank.val ≠ 0) :
    Binary64.finite negative rank / .finite negative rank = 1 := by
  have hone : (1 : Binary64) = ofQuotient false (1 * unitsInOne) 1 := ofInt_natCast 1
  rw [hone, finite_div_finite _ _ h, Bool.xor_self]
  apply ofQuotient_congr
  apply nearest_congr (units_pos h) Nat.one_pos
  ring

theorem zero_less_finite_iff {negative : Bool} {rank : Fin magnitudes} :
    Binary64.less 0 (.finite negative rank) ↔ negative = false ∧ rank.val ≠ 0 := by
  rw [zero_eq]
  cases negative
  · simp [zero, less, position?, signed, Nat.pos_iff_ne_zero]
  · simp [zero, less, position?, signed]

theorem not_zero_less_ofQuotient_true (n d : Nat) : ¬Binary64.less 0 (ofQuotient true n d) := by
  rw [ofQuotient]
  split
  · simp [zero_less_finite_iff]
  · simp [zero_eq, zero, less, position?, signed]

theorem mul_unitsInOne_le_units {m n : Nat} (hm : m ≤ 2 ^ 53) (h : m ≤ n) :
    m * unitsInOne ≤ units (nearest (n * unitsInOne) 1) := by
  have hle : nearest (m * unitsInOne) 1 ≤ nearest (n * unitsInOne) 1 := by
    apply nearest_mono Nat.one_pos Nat.one_pos
    gcongr
  have hunits := units_strictMono.monotone hle
  rwa [unitsInOne_eq, units_nearest_mul_two_pow hm, ← unitsInOne_eq] at hunits

theorem exists_ofInt_pos {n : Nat} (hpos : 0 < n) (h : n ≤ 2 ^ 64) :
    ∃ rank : Fin magnitudes, ofInt n = .finite false rank ∧ rank.val ≠ 0 := by
  obtain ⟨rank, heq, hrank⟩ := exists_ofInt_nearest h
  have hle := mul_unitsInOne_le_units (m := 1) (by norm_num) hpos
  rw [Nat.one_mul, ← hrank] at hle
  exact ⟨rank, heq, ne_zero_of_units_pos (unitsInOne_pos.trans_le hle)⟩

theorem zero_less_ofInt_iff {i : Int} (h : i ≤ 2 ^ 64) : Binary64.less 0 (ofInt i) ↔ 0 < i := by
  rcases lt_trichotomy i 0 with hneg | rfl | hpos
  · have hsum : i * unitsInOne < 0 :=
      Int.mul_neg_of_neg_of_pos hneg (Int.natCast_pos.2 unitsInOne_pos)
    rw [ofInt, ofUnits, if_neg hsum.ne, decide_eq_true hsum]
    exact iff_of_false (not_zero_less_ofQuotient_true _ _) hneg.not_gt
  · decide +kernel
  · lift i to Nat using hpos.le
    obtain ⟨rank, heq, hne⟩ := exists_ofInt_pos (n := i) (by omega) (by omega)
    rw [heq, zero_less_finite_iff]
    exact iff_of_true ⟨rfl, hne⟩ hpos

end WindowLayout.Binary64
