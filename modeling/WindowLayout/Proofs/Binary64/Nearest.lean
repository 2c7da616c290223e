import Mathlib
import WindowLayout.Binary64.Basic

/-! Rounding as a function of the exact value: it is monotone, keeps what can be represented, and
turns from one magnitude to the next in the middle between them. -/

namespace WindowLayout.Binary64

theorem units_add {binade m : Nat} (hm : m ≤ 2 ^ 53) (h : binade = 0 ∨ 2 ^ 52 ≤ m) :
    units (binade * 2 ^ 52 + m) = m * 2 ^ binade := by
  simp only [units, Nat.shiftRight_eq_div_pow, Nat.shiftLeft_eq]
  rcases Nat.eq_or_lt_of_le hm with rfl | hlt
  · have hdiv : (binade * 2 ^ 52 + 2 ^ 53) / 2 ^ 52 - 1 = binade + 1 := by omega
    have hsub : binade * 2 ^ 52 + 2 ^ 53 - (binade + 1) * 2 ^ 52 = 2 ^ 52 := by omega
    rw [hdiv, hsub]
    ring
  · have hdiv : (binade * 2 ^ 52 + m) / 2 ^ 52 - 1 = binade := by omega
    rw [hdiv, Nat.add_sub_cancel_left]

theorem exists_binade (rank : Nat) :
    ∃ binade m, rank = binade * 2 ^ 52 + m ∧ m < 2 ^ 53 ∧ (binade = 0 ∨ 2 ^ 52 ≤ m) :=
  ⟨rank / 2 ^ 52 - 1, rank - (rank / 2 ^ 52 - 1) * 2 ^ 52, by omega, by omega, by omega⟩

theorem log2_sub_eq {n binade : Nat} (hm : n / 2 ^ binade < 2 ^ 53)
    (h : binade = 0 ∨ 2 ^ 52 ≤ n / 2 ^ binade) : n.log2 - 52 = binade := by
  have hpos := Nat.two_pow_pos binade
  have hlt : n < 2 ^ (binade + 52 + 1) := by
    rw [Nat.div_lt_iff_lt_mul hpos, ← pow_add] at hm
    rwa [show binade + 52 + 1 = 53 + binade by omega]
  rcases h with rfl | h
  · rcases Nat.eq_zero_or_pos n with rfl | hn
    · simp
    · have := (Nat.log2_lt hn.ne').2 hlt
      omega
  · rw [Nat.le_div_iff_mul_le hpos, ← pow_add, Nat.add_comm] at h
    have hn : n ≠ 0 := (Nat.two_pow_pos _).trans_le h |>.ne'
    rw [(Nat.log2_eq_iff hn).2 ⟨h, hlt⟩]
    omega

theorem divNearest_mul {d : Nat} (hd : 0 < d) (q : Nat) : divNearest (q * d) d = q := by
  simp [divNearest, hd]

theorem nearest_units (rank : Nat) : nearest (units rank) 1 = rank := by
  obtain ⟨binade, m, rfl, hm, h⟩ := exists_binade rank
  have hpos := Nat.two_pow_pos binade
  have hbinade : (m * 2 ^ binade).log2 - 52 = binade :=
    log2_sub_eq (by rwa [Nat.mul_div_cancel _ hpos]) (by rwa [Nat.mul_div_cancel _ hpos])
  rw [units_add hm.le h, nearest, Nat.div_one, hbinade, Nat.shiftLeft_eq, Nat.shiftLeft_eq,
    Nat.one_mul, divNearest_mul hpos]

theorem ofQuotient_units (negative : Bool) (rank : Fin magnitudes) :
    ofQuotient negative (units rank) 1 = .finite negative rank := by
  simp [ofQuotient, nearest_units]

structure NearestWhole (n d q : Nat) : Prop where
  above : 2 * n ≤ 2 * (q * d) + d
  below : 2 * (q * d) ≤ 2 * n + d
  even_above : 2 * n = 2 * (q * d) + d → q % 2 = 0
  even_below : 2 * (q * d) = 2 * n + d → q % 2 = 0

theorem nearestWhole_divNearest (n : Nat) {d : Nat} (hd : 0 < d) :
    NearestWhole n d (divNearest n d) := by
  have hdiv : n / d * d + n % d = n := Nat.div_add_mod' n d
  have hmod := Nat.mod_lt n hd
  have hsucc : (n / d + 1) * d = n / d * d + d := Nat.succ_mul _ _
  rw [divNearest]
  split
  · constructor <;> omega
  · split
    · constructor <;> omega
    · rcases Nat.mod_two_eq_zero_or_one (n / d) with h | h
      · rw [h, Nat.add_zero]
        constructor <;> omega
      · rw [h]
        constructor <;> omega

namespace NearestWhole

variable {n d q n' d' q' : Nat}

theorem mono (h : NearestWhole n d q) (h' : NearestWhole n' d' q') (hd : 0 < d) (hd' : 0 < d')
    (hle : n * d' ≤ n' * d) : q ≤ q' := by
  by_contra hlt
  have hsucc : q' + 1 ≤ q := by omega
  -- Both quotients would lie on the tie between `q'` and `q' + 1`.
  have hq : (q' + 1) * (d * d') ≤ q * (d * d') := Nat.mul_le_mul_right _ hsucc
  have hbelow := Nat.mul_le_mul_right d' h.below
  have habove := Nat.mul_le_mul_right d h'.above
  have heq : q = q' + 1 := by
    by_contra hne
    have hq : (q' + 2) * (d * d') ≤ q * (d * d') := Nat.mul_le_mul_right _ (by omega)
    have hpos := Nat.mul_pos hd hd'
    nlinarith
  subst heq
  have hbelow_eq : 2 * ((q' + 1) * d) = 2 * n + d := by
    apply Nat.eq_of_mul_eq_mul_right hd'
    nlinarith
  have habove_eq : 2 * n' = 2 * (q' * d') + d' := by
    apply Nat.eq_of_mul_eq_mul_right hd
    nlinarith
  have := h.even_below hbelow_eq
  have := h'.even_above habove_eq
  omega

end NearestWhole

structure Rounding (n d binade m : Nat) : Prop where
  whole : NearestWhole n (d * 2 ^ binade) m
  lt : n < 2 ^ 53 * (d * 2 ^ binade)
  normal : binade = 0 ∨ 2 ^ 52 * (d * 2 ^ binade) ≤ n

namespace Rounding

variable {n d binade m n' d' binade' m' : Nat}

theorem le (h : Rounding n d binade m) (hd : 0 < d) : m ≤ 2 ^ 53 := by
  have hpos : 0 < d * 2 ^ binade := Nat.mul_pos hd (Nat.two_pow_pos _)
  have hbelow := h.whole.below
  have hlt := h.lt
  by_contra hm
  have := Nat.mul_le_mul_right (d * 2 ^ binade) (show 2 ^ 53 + 1 ≤ m by omega)
  rw [Nat.add_mul] at this
  omega

theorem significand (h : Rounding n d binade m) (hd : 0 < d) : binade = 0 ∨ 2 ^ 52 ≤ m := by
  have hpos : 0 < d * 2 ^ binade := Nat.mul_pos hd (Nat.two_pow_pos _)
  apply h.normal.imp_right
  intro hnormal
  have habove := h.whole.above
  by_contra hm
  have := Nat.mul_le_mul_right (d * 2 ^ binade) (show m + 1 ≤ 2 ^ 52 by omega)
  rw [Nat.add_mul] at this
  omega

theorem units_eq (h : Rounding n d binade m) (hd : 0 < d) :
    units (binade * 2 ^ 52 + m) = m * 2 ^ binade :=
  units_add (h.le hd) (h.significand hd)

end Rounding

theorem exists_rounding (n : Nat) {d : Nat} (hd : 0 < d) :
    ∃ binade m, Rounding n d binade m ∧ nearest n d = binade * 2 ^ 52 + m := by
  refine ⟨(n / d).log2 - 52, divNearest n (d * 2 ^ ((n / d).log2 - 52)), ⟨?_, ?_, ?_⟩, ?_⟩
  · exact nearestWhole_divNearest n (Nat.mul_pos hd (Nat.two_pow_pos _))
  · have hlog : n / d < 2 ^ ((n / d).log2 - 52 + 53) :=
      Nat.lt_log2_self.trans_le (Nat.pow_le_pow_right (by omega) (by omega))
    rw [Nat.div_lt_iff_lt_mul hd] at hlog
    calc
      n < 2 ^ ((n / d).log2 - 52 + 53) * d := hlog
      _ = 2 ^ 53 * (d * 2 ^ ((n / d).log2 - 52)) := by ring
  · rcases Nat.eq_zero_or_pos ((n / d).log2 - 52) with h | h
    · exact .inl h
    · right
      have hne : n / d ≠ 0 := by
        intro h0
        simp [h0] at h
      have hlog : 2 ^ ((n / d).log2 - 52 + 52) ≤ n / d := by
        rw [Nat.sub_add_cancel (by omega)]
        exact Nat.log2_self_le hne
      rw [Nat.le_div_iff_mul_le hd] at hlog
      calc
        2 ^ 52 * (d * 2 ^ ((n / d).log2 - 52)) = 2 ^ ((n / d).log2 - 52 + 52) * d := by ring
        _ ≤ n := hlog
  · simp only [nearest, Nat.shiftLeft_eq]

theorem nearest_mono {n d n' d' : Nat} (hd : 0 < d) (hd' : 0 < d') (hle : n * d' ≤ n' * d) :
    nearest n d ≤ nearest n' d' := by
  obtain ⟨b, m, h, heq⟩ := exists_rounding n hd
  obtain ⟨b', m', h', heq'⟩ := exists_rounding n' hd'
  rw [heq, heq']
  rcases Nat.lt_trichotomy b b' with hlt | rfl | hgt
  · have := h.le hd
    have := (h'.significand hd').resolve_left (by omega)
    omega
  · have hm : m ≤ m' := h.whole.mono h'.whole (Nat.mul_pos hd (Nat.two_pow_pos _))
      (Nat.mul_pos hd' (Nat.two_pow_pos _)) (by nlinarith [Nat.two_pow_pos b])
    omega
  · -- The binades contradict the order of the quotients.
    exfalso
    have hnormal := h.normal.resolve_left (by omega)
    have hpow : 2 ^ (b' + 1) ≤ 2 ^ b := Nat.pow_le_pow_right (by omega) hgt
    have hlt : n' * d < 2 ^ 52 * (d * 2 ^ b) * d' := by
      calc
        n' * d < 2 ^ 53 * (d' * 2 ^ b') * d := Nat.mul_lt_mul_of_pos_right h'.lt hd
        _ = 2 ^ 52 * (d * 2 ^ (b' + 1)) * d' := by ring
        _ ≤ 2 ^ 52 * (d * 2 ^ b) * d' := by gcongr
    have := Nat.mul_le_mul_right d' hnormal
    omega

theorem nearest_congr {n d n' d' : Nat} (hd : 0 < d) (hd' : 0 < d') (h : n * d' = n' * d) :
    nearest n d = nearest n' d' :=
  Nat.le_antisymm (nearest_mono hd hd' h.le) (nearest_mono hd' hd h.ge)

theorem nearest_mul_mul {n d k : Nat} (hd : 0 < d) (hk : 0 < k) :
    nearest (n * k) (d * k) = nearest n d :=
  nearest_congr (Nat.mul_pos hd hk) hd (by ring)

theorem units_succ (rank : Nat) : units (rank + 1) = units rank + 2 ^ (rank / 2 ^ 52 - 1) := by
  obtain ⟨b, m, rfl, hm, h⟩ := exists_binade rank
  rw [Nat.add_assoc, units_add hm (h.imp_right (Nat.le_succ_of_le)), units_add hm.le h,
    show (b * 2 ^ 52 + m) / 2 ^ 52 - 1 = b by omega, Nat.succ_mul]

theorem units_strictMono : StrictMono units := by
  apply strictMono_nat_of_lt_succ
  intro rank
  rw [units_succ]
  exact Nat.lt_add_of_pos_right (Nat.two_pow_pos _)

/-- `n / d` lies between the middles to the neighbours of a rank, and on one of them only if the
rank is even. -/
structure IsNearest (n d rank : Nat) : Prop where
  above : 2 * n ≤ (units rank + units (rank + 1)) * d
  below : ∀ k, rank = k + 1 → (units k + units rank) * d ≤ 2 * n
  even_above : 2 * n = (units rank + units (rank + 1)) * d → rank % 2 = 0
  even_below : ∀ k, rank = k + 1 → (units k + units rank) * d = 2 * n → rank % 2 = 0

namespace Rounding

variable {n d binade m : Nat}

theorem middle_above (h : Rounding n d binade m) (hd : 0 < d) :
    2 * n ≤ (units (binade * 2 ^ 52 + m) + units (binade * 2 ^ 52 + m + 1)) * d ∧
      (2 * n = (units (binade * 2 ^ 52 + m) + units (binade * 2 ^ 52 + m + 1)) * d →
        m % 2 = 0) := by
  rw [h.units_eq hd]
  rcases Nat.lt_or_ge m (2 ^ 53) with hm | hm
  · have hsucc : (m * 2 ^ binade + (m + 1) * 2 ^ binade) * d =
        2 * (m * (d * 2 ^ binade)) + d * 2 ^ binade := by ring
    rw [Nat.add_assoc, units_add hm ((h.significand hd).imp_right Nat.le_succ_of_le), hsucc]
    exact ⟨h.whole.above, h.whole.even_above⟩
  · have hlt : 2 * n < (m * 2 ^ binade + m * 2 ^ binade) * d := by
      calc
        2 * n < 2 * (2 ^ 53 * (d * 2 ^ binade)) := by have := h.lt; omega
        _ ≤ 2 * (m * (d * 2 ^ binade)) := by gcongr
        _ = (m * 2 ^ binade + m * 2 ^ binade) * d := by ring
    have hle : m * 2 ^ binade ≤ units (binade * 2 ^ 52 + m + 1) := by
      rw [← h.units_eq hd]
      exact units_strictMono.monotone (Nat.le_succ _)
    have := Nat.mul_le_mul_right d (Nat.add_le_add_left hle (m * 2 ^ binade))
    omega

theorem middle_below (h : Rounding n d binade m) (hd : 0 < d) {k : Nat}
    (hk : binade * 2 ^ 52 + m = k + 1) :
    (units k + units (binade * 2 ^ 52 + m)) * d ≤ 2 * n ∧
      ((units k + units (binade * 2 ^ 52 + m)) * d = 2 * n → m % 2 = 0) := by
  rw [h.units_eq hd]
  by_cases hfirst : binade = 0 ∨ 2 ^ 52 < m
  · obtain ⟨p, rfl⟩ : ∃ p, m = p + 1 := ⟨m - 1, by omega⟩
    have hp := h.le hd
    have hprev : (p * 2 ^ binade + (p + 1) * 2 ^ binade) * d + d * 2 ^ binade =
        2 * ((p + 1) * (d * 2 ^ binade)) := by ring
    have hunits : units k = p * 2 ^ binade := by
      rw [show k = binade * 2 ^ 52 + p by omega]
      exact units_add (by omega) (hfirst.imp_right Nat.le_of_lt_succ)
    rw [hunits]
    have hbelow := h.whole.below
    have heven := h.whole.even_below
    exact ⟨by omega, fun heq => heven (by omega)⟩
  · -- The first significand of a binade is never rounded to from below.
    have hm : m = 2 ^ 52 := by
      have := (h.significand hd)
      omega
    have hnormal := h.normal.resolve_left (by omega)
    have hlt : units k < m * 2 ^ binade := by
      rw [← h.units_eq hd]
      exact units_strictMono (by omega)
    have hsum : (units k + m * 2 ^ binade) * d < 2 * n := by
      calc
        (units k + m * 2 ^ binade) * d < (m * 2 ^ binade + m * 2 ^ binade) * d := by gcongr
        _ = 2 * (m * (d * 2 ^ binade)) := by ring
        _ ≤ 2 * n := by rw [hm]; omega
    exact ⟨hsum.le, fun heq => absurd heq hsum.ne⟩

end Rounding

theorem isNearest_nearest (n : Nat) {d : Nat} (hd : 0 < d) : IsNearest n d (nearest n d) := by
  obtain ⟨b, m, h, heq⟩ := exists_rounding n hd
  have hparity : (b * 2 ^ 52 + m) % 2 = m % 2 := by omega
  rw [heq]
  constructor
  · exact (h.middle_above hd).1
  · intro k hk
    exact (h.middle_below hd hk).1
  · rw [hparity]
    exact (h.middle_above hd).2
  · intro k hk
    rw [hparity]
    exact (h.middle_below hd hk).2

namespace IsNearest

variable {n d rank other : Nat}

theorem le (h : IsNearest n d rank) (h' : IsNearest n d other) (hd : 0 < d) : rank ≤ other := by
  by_contra hlt
  obtain ⟨k, rfl⟩ : ∃ k, rank = k + 1 := ⟨rank - 1, by omega⟩
  have hk : units other ≤ units k := units_strictMono.monotone (by omega)
  have hsucc : units (other + 1) ≤ units (k + 1) := units_strictMono.monotone (by omega)
  have hle : (units other + units (other + 1)) * d ≤ (units k + units (k + 1)) * d := by gcongr
  have hbelow := h.below k rfl
  have habove := h'.above
  -- Then both ranks are even, and neighbours.
  have hodd := h.even_below k rfl (by omega)
  have heven := h'.even_above (by omega)
  have heq : units other + units (other + 1) = units k + units (k + 1) :=
    Nat.eq_of_mul_eq_mul_right hd (by omega)
  have hsame : units other = units k := by omega
  have := units_strictMono.injective hsame
  omega

end IsNearest

theorem nearest_eq_iff {n d rank : Nat} (hd : 0 < d) : nearest n d = rank ↔ IsNearest n d rank := by
  constructor
  · rintro rfl
    exact isNearest_nearest n hd
  · intro h
    exact Nat.le_antisymm ((isNearest_nearest n hd).le h hd) (h.le (isNearest_nearest n hd) hd)

theorem nearest_units_mul (rank : Nat) {d : Nat} (hd : 0 < d) :
    nearest (units rank * d) d = rank := by
  rw [nearest_congr hd Nat.one_pos (show units rank * d * 1 = units rank * d by ring),
    nearest_units]

theorem units_zero : units 0 = 0 := rfl

theorem units_of_le {rank : Nat} (h : rank ≤ 2 ^ 53) : units rank = rank := by
  simpa using units_add h (.inl rfl)

theorem nearest_zero {d : Nat} (hd : 0 < d) : nearest 0 d = 0 := by
  have h := nearest_units_mul 0 hd
  rwa [units_zero, Nat.zero_mul] at h

theorem units_nearest_mul_two_pow {m : Nat} (hm : m ≤ 2 ^ 53) (e : Nat) :
    units (nearest (m * 2 ^ e) 1) = m * 2 ^ e := by
  obtain ⟨b, q, h, heq⟩ := exists_rounding (m * 2 ^ e) Nat.one_pos
  -- The spacing of the binade divides the number.
  have hdvd : 2 ^ b ∣ m * 2 ^ e := by
    rcases Nat.lt_or_ge e b with hlt | hge
    · have hnormal := h.normal.resolve_left (by omega)
      have hpow : 2 ^ 53 * 2 ^ e ≤ 2 ^ 52 * (1 * 2 ^ b) := by
        calc
          2 ^ 53 * 2 ^ e = 2 ^ 52 * (1 * 2 ^ (e + 1)) := by ring
          _ ≤ 2 ^ 52 * (1 * 2 ^ b) := by
            have : 2 ^ (e + 1) ≤ 2 ^ b := Nat.pow_le_pow_right (by omega) hlt
            gcongr
      have hle : m * 2 ^ e ≤ 2 ^ 53 * 2 ^ e := Nat.mul_le_mul_right _ hm
      have hn : m * 2 ^ e = 2 ^ 52 * 2 ^ b := by omega
      exact hn ▸ Nat.dvd_mul_left _ _
    · exact Dvd.dvd.mul_left (Nat.pow_dvd_pow 2 hge) m
  obtain ⟨k, hk⟩ := hdvd
  have hq : q = k := by
    have hexact : NearestWhole (m * 2 ^ e) (1 * 2 ^ b) k := by
      have hpos := Nat.two_pow_pos b
      constructor <;> rw [hk, Nat.one_mul, Nat.mul_comm k] <;> omega
    have hpos : 0 < 1 * 2 ^ b := Nat.mul_pos Nat.one_pos (Nat.two_pow_pos b)
    exact Nat.le_antisymm (h.whole.mono hexact hpos hpos le_rfl)
      (hexact.mono h.whole hpos hpos le_rfl)
  rw [heq, h.units_eq Nat.one_pos, hq, hk, Nat.mul_comm]

def overflow : Nat := (2 ^ 54 - 1) * 2 ^ 2044

theorem unitsInOne_eq : unitsInOne = 2 ^ depth := by
  have hshift (n : Nat) : 1 <<< n = 2 ^ n := Nat.one_shiftLeft n
  rw [unitsInOne, hshift]

theorem unitsInOne_pos : 0 < unitsInOne := by
  rw [unitsInOne_eq]
  positivity

theorem overflow_eq : overflow = (2 ^ 1024 - 2 ^ 970) * unitsInOne := by
  obtain ⟨x, hx⟩ : ∃ x, x = 2 ^ 970 := ⟨_, rfl⟩
  have hpow : 2 ^ 1024 = 2 ^ 54 * x := by rw [hx, ← pow_add]
  have hsub : 2 ^ 54 * x - x = (2 ^ 54 - 1) * x := by omega
  rw [overflow, unitsInOne_eq, depth, hpow, ← hx, hsub, Nat.mul_assoc, hx, ← pow_add]

theorem whole_lt_overflow {n : Nat} (h : n ≤ 2 ^ 64) : n * unitsInOne < overflow := by
  have hpow (e : Nat) (he : 64 + depth ≤ e) : 2 ^ (64 + depth) ≤ 2 ^ e :=
    Nat.pow_le_pow_right Nat.two_pos he
  have hpos : 0 < 2 ^ (64 + depth) := by positivity
  rw [unitsInOne_eq, overflow]
  calc
    n * 2 ^ depth ≤ 2 ^ 64 * 2 ^ depth := Nat.mul_le_mul_right _ h
    _ = 1 * 2 ^ (64 + depth) := by rw [Nat.one_mul, pow_add]
    _ < (2 ^ 54 - 1) * 2 ^ (64 + depth) := Nat.mul_lt_mul_of_pos_right (by omega) hpos
    _ ≤ (2 ^ 54 - 1) * 2 ^ 2044 := Nat.mul_le_mul_left _ (hpow 2044 (by decide))

theorem units_magnitudes : units (magnitudes - 1) + units (magnitudes - 1 + 1) = 2 * overflow := by
  have hlast : units (2045 * 2 ^ 52 + (2 ^ 53 - 1)) = (2 ^ 53 - 1) * 2 ^ 2045 :=
    units_add (by norm_num) (.inr (by norm_num))
  have hnext : units (2045 * 2 ^ 52 + 2 ^ 53) = 2 ^ 53 * 2 ^ 2045 :=
    units_add le_rfl (.inr (by norm_num))
  obtain ⟨x, hx⟩ : ∃ x, x = 2 ^ 2044 := ⟨_, rfl⟩
  have hdouble : 2 ^ 2045 = x * 2 := by rw [hx, ← pow_succ]
  rw [show magnitudes - 1 = 2045 * 2 ^ 52 + (2 ^ 53 - 1) by decide,
    show 2045 * 2 ^ 52 + (2 ^ 53 - 1) + 1 = 2045 * 2 ^ 52 + 2 ^ 53 by norm_num, hlast, hnext,
    overflow, hdouble, ← hx]
  omega

theorem nearest_lt_magnitudes_iff {n d : Nat} (hd : 0 < d) :
    nearest n d < magnitudes ↔ n < overflow * d := by
  have h := isNearest_nearest n hd
  obtain ⟨hpos, hodd⟩ : 0 < magnitudes ∧ (magnitudes - 1) % 2 = 1 := by decide
  constructor
  · intro hlt
    by_contra hge
    have habove := h.above
    rcases Nat.eq_or_lt_of_le (Nat.le_sub_one_of_lt hlt) with heq | hlt
    · have heven := h.even_above
      rw [heq, units_magnitudes, Nat.mul_assoc] at habove heven
      have := heven (by omega)
      omega
    · have hsum : units (nearest n d) + units (nearest n d + 1) < 2 * overflow := by
        rw [← units_magnitudes]
        exact Nat.add_lt_add (units_strictMono hlt) (units_strictMono (by omega))
      have := Nat.mul_lt_mul_of_pos_right hsum hd
      rw [Nat.mul_assoc] at this
      omega
  · intro hlt
    by_contra hge
    obtain ⟨k, hk⟩ : ∃ k, nearest n d = k + 1 := ⟨nearest n d - 1, by omega⟩
    have hsum : 2 * overflow ≤ units k + units (nearest n d) := by
      rw [← units_magnitudes]
      exact Nat.add_le_add (units_strictMono.monotone (by omega))
        (units_strictMono.monotone (by omega))
    have := (Nat.mul_le_mul_right d hsum).trans (h.below k hk)
    rw [Nat.mul_assoc] at this
    omega

structure IsClosest (n d rank : Nat) : Prop where
  le : ∀ other, Nat.dist (units rank * d) n ≤ Nat.dist (units other * d) n
  even : ∀ other, other ≠ rank →
    Nat.dist (units rank * d) n = Nat.dist (units other * d) n → rank % 2 = 0

theorem IsNearest.isClosest {n d rank : Nat} (h : IsNearest n d rank) (hd : 0 < d) :
    IsClosest n d rank := by
  have hside (other : Nat) (hne : other ≠ rank) :
      Nat.dist (units rank * d) n ≤ Nat.dist (units other * d) n ∧
        (Nat.dist (units rank * d) n = Nat.dist (units other * d) n → rank % 2 = 0) := by
    rcases Nat.lt_or_gt_of_ne hne with hlt | hgt
    · obtain ⟨k, rfl⟩ : ∃ k, rank = k + 1 := ⟨rank - 1, by omega⟩
      have hbelow := h.below k rfl
      have heven := h.even_below k rfl
      have hk : units other * d ≤ units k * d :=
        Nat.mul_le_mul_right d (units_strictMono.monotone (by omega))
      have hlt : units other * d < units (k + 1) * d :=
        Nat.mul_lt_mul_of_pos_right (units_strictMono hlt) hd
      rw [Nat.add_mul] at hbelow heven
      simp only [Nat.dist]
      exact ⟨by omega, fun heq => heven (by omega)⟩
    · have habove := h.above
      have heven := h.even_above
      have hk : units (rank + 1) * d ≤ units other * d :=
        Nat.mul_le_mul_right d (units_strictMono.monotone hgt)
      have hlt : units rank * d < units other * d :=
        Nat.mul_lt_mul_of_pos_right (units_strictMono hgt) hd
      rw [Nat.add_mul] at habove heven
      simp only [Nat.dist]
      exact ⟨by omega, fun heq => heven (by omega)⟩
  constructor
  · intro other
    rcases eq_or_ne other rank with rfl | hne
    · exact le_rfl
    · exact (hside other hne).1
  · intro other hne
    exact (hside other hne).2

theorem IsClosest.not_lt {n d rank other : Nat} (h : IsClosest n d rank)
    (h' : IsClosest n d other) (hd : 0 < d) : ¬rank < other := by
  intro hlt
  have heq := Nat.le_antisymm (h.le other) (h'.le rank)
  have heven := h.even other hlt.ne' heq
  have heven' := h'.even rank hlt.ne heq.symm
  -- Two even ranks have another one between them, which would be nearer than both.
  have hmiddle := h.le (rank + 1)
  have hlow : units rank * d < units (rank + 1) * d :=
    Nat.mul_lt_mul_of_pos_right (units_strictMono (Nat.lt_succ_self rank)) hd
  have hhigh : units (rank + 1) * d < units other * d :=
    Nat.mul_lt_mul_of_pos_right (units_strictMono (by omega)) hd
  simp only [Nat.dist] at heq hmiddle
  omega

theorem isClosest_iff {n d rank : Nat} (hd : 0 < d) : IsClosest n d rank ↔ rank = nearest n d := by
  have hnearest := (isNearest_nearest n hd).isClosest hd
  constructor
  · intro h
    exact Nat.le_antisymm (Nat.le_of_not_lt (hnearest.not_lt h hd))
      (Nat.le_of_not_lt (h.not_lt hnearest hd))
  · rintro rfl
    exact hnearest

end WindowLayout.Binary64
