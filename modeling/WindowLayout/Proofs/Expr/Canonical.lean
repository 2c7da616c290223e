import Mathlib
import WindowLayout.Expr.Printer
import WindowLayout.Proofs.Expr.Acceptance
import WindowLayout.Proofs.Expr.Percentage

namespace WindowLayout

namespace Text

def IsPrintable (c : Char) : Prop := 0x20 < c.toNat ∧ c.toNat < 0x7F

theorem isPrintable_of_isDigit {c : Char} (h : c.isDigit) : IsPrintable c := by
  simp only [Char.isDigit, Bool.and_eq_true, decide_eq_true_eq, UInt32.le_iff_toNat_le] at h
  exact ⟨Nat.lt_of_lt_of_le (by decide) h.1, Nat.lt_of_le_of_lt h.2 (by decide)⟩

theorem IsPrintable.not_blank {c : Char} (h : IsPrintable c) : isBlank c = false := by
  obtain ⟨hlow, hhigh⟩ := h
  simp [isBlank, blanks]
  omega

theorem withoutBlanks_of_printable {text : List Char} (h : ∀ c ∈ text, IsPrintable c) :
    withoutBlanks text = text := by
  apply List.filter_eq_self.2
  intro c hc
  rw [(h c hc).not_blank]
  rfl

end Text

namespace Binary64

open Text (IsPrintable isPrintable_of_isDigit)

def isNegative : Binary64 → Bool
  | .nan => false
  | .infinite negative => negative
  | .finite negative _ => negative

theorem exists_rank {x : Binary64} (hfinite : x.isFinite) (h : x.isNegative = false) :
    ∃ rank, x = .finite false rank := by
  cases x with
  | nan => cases hfinite
  | infinite => cases hfinite
  | finite negative rank =>
    cases h
    exact ⟨rank, rfl⟩

theorem not_less_zero (rank : Fin magnitudes) : ¬(Binary64.finite false rank).less 0 := by
  have hzero : (0 : Binary64) = zero false := by decide +kernel
  simp [hzero, zero, less, position?, signed]

theorem isDigit_or_mem_toChars (x : Binary64) :
    ∀ c ∈ x.toChars, c.isDigit ∨ c ∈ ['-', '.', 'i', 'n', 'f', 'N', 'a'] := by
  have hsign (negative : Bool) : ∀ c ∈ signChars negative, c = '-' := by
    cases negative <;> simp [signChars]
  cases x with
  | nan => simp [toChars]
  | infinite negative =>
    rw [toChars, List.forall_mem_append]
    constructor
    · intro c hc
      simp [hsign negative c hc]
    · simp
  | finite negative rank =>
    rw [toChars, List.forall_mem_append]
    constructor
    · intro c hc
      simp [hsign negative c hc]
    · intro c hc
      rcases (Decimal.numeral_toChars _).isDigit_or_point c hc with hdigit | rfl
      · exact .inl hdigit
      · simp

theorem isPrintable_toChars (x : Binary64) : ∀ c ∈ x.toChars, IsPrintable c := by
  have hother : ∀ c ∈ ['-', '.', 'i', 'n', 'f', 'N', 'a'], IsPrintable c := by
    simp [IsPrintable]
  intro c hc
  rcases x.isDigit_or_mem_toChars c hc with hdigit | hc
  · exact isPrintable_of_isDigit hdigit
  · exact hother c hc

end Binary64

theorem isDigit_or_minus_integerChars (i : Int64) :
    ∀ c ∈ integerChars i, c.isDigit ∨ c = '-' := by
  rw [integerChars, List.forall_mem_append]
  constructor
  · split <;> simp
  · intro c hc
    exact .inl (Decimal.isDigit_of_mem_toDigits _ c hc)

theorem isPrintable_integerChars (i : Int64) : ∀ c ∈ integerChars i, Text.IsPrintable c := by
  intro c hc
  rcases isDigit_or_minus_integerChars i c hc with hdigit | rfl
  · exact Text.isPrintable_of_isDigit hdigit
  · exact ⟨by decide, by decide⟩

namespace Term

/-- The values that terms are read with: no sign bit, and a percentage gives the ratio. -/
inductive IsCanonical : Term → Prop
  | zero : IsCanonical .zero
  | fraction {n d : Int64} : 0 ≤ n → 0 < d → IsCanonical (.fraction n d)
  | percentage {r p : Binary64} : r.isNegative = false → p.isFinite → ¬p.less 0 →
    (p / 100).equal r → IsCanonical (.percentage r)
  | pixels {p : Binary64} : p.isFinite → p.isNegative = false → IsCanonical (.pixels p)

theorem isPrintable_toChars (t : Term) : ∀ c ∈ t.toChars, Text.IsPrintable c := by
  cases t with
  | zero => simp [toChars, Text.IsPrintable]
  | fraction n d =>
    rw [toChars, List.forall_mem_append, List.forall_mem_cons]
    refine ⟨isPrintable_integerChars n, ?_, isPrintable_integerChars d⟩
    simp [Text.IsPrintable]
  | percentage r =>
    rw [toChars, List.forall_mem_append]
    constructor
    · exact Binary64.isPrintable_toChars _
    · simp [Text.IsPrintable]
  | pixels p =>
    rw [toChars, List.forall_mem_append]
    constructor
    · exact Binary64.isPrintable_toChars _
    · simp [Text.IsPrintable]

theorem ofNat_nonneg {n : Nat} (h : n < 2 ^ 63) : 0 ≤ Int64.ofNat n := by
  rw [Int64.le_iff_toInt_le, Int64.toInt_ofNat_of_lt h]
  exact Int.natCast_nonneg n

theorem isNatural_integerChars {i : Int64} (h : 0 ≤ i) :
    ∃ n, IsNatural (integerChars i) n ∧ n < 2 ^ 63 ∧ i = .ofNat n := by
  have hnonneg : 0 ≤ i.toInt := Int64.le_iff_toInt_le.1 h
  have hlt : i.toInt < 2 ^ 63 := i.toInt_lt
  refine ⟨i.toInt.natAbs, integerChars_of_nonneg h ▸ isNatural_toDigits _, by omega, ?_⟩
  rw [← Int64.ofInt_eq_ofNat, Int.natAbs_of_nonneg hnonneg, Int64.ofInt_toInt]

theorem spells_percentage {p : Binary64} (hfinite : p.isFinite) (h : p.isNegative = false) :
    Spells (p.toChars ++ ['%']) (.percentage (p / 100)) := by
  obtain ⟨rank, rfl⟩ := Binary64.exists_rank hfinite h
  rw [Binary64.toChars_finite_false]
  exact .percentage (Decimal.numeral_toChars _)
    (Binary64.isClosestTo_iff.2 ⟨Binary64.ofDecimal_shortest rank, rfl⟩)

theorem spells_pixels {p : Binary64} (hfinite : p.isFinite) (h : p.isNegative = false) :
    Spells (p.toChars ++ ['p', 'x']) (.pixels p) := by
  obtain ⟨rank, rfl⟩ := Binary64.exists_rank hfinite h
  rw [Binary64.toChars_finite_false]
  exact .pixels (Decimal.numeral_toChars _)
    (Binary64.isClosestTo_iff.2 ⟨Binary64.ofDecimal_shortest rank, rfl⟩)

theorem exists_percentage {r p : Binary64} (hr : r.isNegative = false) (hp : p.isFinite)
    (h : (p / 100).equal r) :
    ∃ j k : Fin Binary64.magnitudes, r = .finite false j ∧ .finite false k / 100 = r := by
  cases p with
  | nan => cases hp
  | infinite => cases hp
  | finite negative rank =>
    rw [Binary64.div_hundred_eq] at h
    rcases Binary64.eq_of_equal_finite h with rfl | ⟨hzero, rfl⟩
    · cases hr
      exact ⟨_, rank, rfl, Binary64.div_hundred_eq _ _⟩
    · rw [Binary64.zero, Binary64.isNegative] at hr
      rw [Binary64.zero, hr]
      exact ⟨_, rank, rfl, Binary64.div_hundred_eq_iff.2 hzero⟩

theorem IsCanonical.spells {t : Term} (h : t.IsCanonical) : Spells t.toChars t := by
  cases h with
  | zero => exact .zero
  | fraction hn hd =>
    obtain ⟨n, hn, hnlt, rfl⟩ := isNatural_integerChars hn
    obtain ⟨d, hdn, hdlt, rfl⟩ := isNatural_integerChars (Int64.le_of_lt hd)
    refine .fraction hn hdn hnlt hdlt ?_
    rintro rfl
    exact Int64.lt_irrefl hd
  | percentage hr hp _ hequal =>
    obtain ⟨j, k, rfl, hk⟩ := exists_percentage hr hp hequal
    obtain ⟨rank, hrank, hratio⟩ := Percentage.exists_ofRatio_eq hk
    rw [toChars, hrank, ← hratio]
    exact spells_percentage rfl rfl
  | pixels hfinite hsign => exact spells_pixels hfinite hsign

theorem Spells.isCanonical {text : List Char} {t : Term} (h : Spells text t) : t.IsCanonical := by
  cases h with
  | zero => exact .zero
  | @fraction _ _ n d _ _ hnlt hdlt hne =>
    have hpos : 0 < d := Nat.pos_of_ne_zero hne
    refine .fraction (ofNat_nonneg hnlt) (Int64.lt_iff_toInt_lt.2 ?_)
    rw [Int64.toInt_ofNat_of_lt hdlt]
    exact Int.natCast_pos.2 hpos
  | percentage _ hp =>
    obtain ⟨-, rank, rfl, -⟩ := hp
    refine .percentage (p := .finite false rank) ?_ rfl (Binary64.not_less_zero rank) ?_
    · rw [Binary64.div_hundred_eq]
      rfl
    · rw [Binary64.div_hundred_eq]
      exact Binary64.equal_self rfl
  | pixels _ hp =>
    obtain ⟨-, rank, rfl, -⟩ := hp
    exact .pixels rfl rfl

inductive IsNegativeZero : Term → Prop
  | percentage : IsNegativeZero (.percentage (Binary64.zero true))
  | pixels : IsNegativeZero (.pixels (Binary64.zero true))

theorem IsCanonical.of_equal {t u : Term} (h : t.IsCanonical) (hequal : t.equal u) :
    u.IsCanonical ∨ u.IsNegativeZero := by
  cases h with
  | zero =>
    cases u with
    | zero => exact .inl .zero
    | _ => cases hequal
  | fraction hn hd =>
    cases u with
    | fraction n d =>
      simp only [equal, Bool.and_eq_true, decide_eq_true_eq] at hequal
      obtain ⟨rfl, rfl⟩ := hequal
      exact .inl (.fraction hn hd)
    | _ => cases hequal
  | percentage hr hp hless h =>
    cases u with
    | percentage r =>
      obtain ⟨j, k, rfl, -⟩ := exists_percentage hr hp h
      rcases Binary64.eq_of_equal_finite hequal with rfl | ⟨-, rfl⟩
      · exact .inl (.percentage hr hp hless h)
      · exact .inr .percentage
    | _ => cases hequal
  | pixels hfinite hsign =>
    cases u with
    | pixels p =>
      obtain ⟨rank, rfl⟩ := Binary64.exists_rank hfinite hsign
      rcases Binary64.eq_of_equal_finite hequal with rfl | ⟨-, rfl⟩
      · exact .inl (.pixels hfinite hsign)
      · exact .inr .pixels
    | _ => cases hequal

theorem IsCanonical.equal_self {t : Term} (h : t.IsCanonical) : t.equal t := by
  cases h with
  | zero => rfl
  | fraction hn hd => simp [equal]
  | percentage hr hp _ hequal =>
    obtain ⟨j, k, rfl, -⟩ := exists_percentage hr hp hequal
    exact Binary64.equal_self (x := .finite false j) rfl
  | pixels hfinite _ => exact Binary64.equal_self hfinite

theorem IsNegativeZero.exists_toChars {t : Term} (h : t.IsNegativeZero) :
    ∃ text, t.toChars = '-' :: text ∧ ∀ c ∈ text, Operator.ofChar? c = none := by
  have hsign := not_sign_of_numeral (Decimal.numeral_toChars (Binary64.shortest 0))
  cases h with
  | percentage =>
    refine ⟨(Binary64.shortest 0).toChars ++ ['%'], ?_, ?_⟩
    · rw [toChars, Percentage.ofRatio_zero, Binary64.zero, Binary64.toChars_finite_true]
      rfl
    · rw [List.forall_mem_append]
      exact ⟨hsign, by simp [Operator.ofChar?]⟩
  | pixels =>
    refine ⟨(Binary64.shortest 0).toChars ++ ['p', 'x'], ?_, ?_⟩
    · rw [toChars, Binary64.zero, Binary64.toChars_finite_true]
      rfl
    · rw [List.forall_mem_append]
      exact ⟨hsign, by simp [Operator.ofChar?]⟩

theorem IsCanonical.isOperand_of_equal {t u : Term} (h : t.IsCanonical) (hequal : t.equal u) :
    Token.IsOperand u.toChars := by
  rcases h.of_equal hequal with hu | hu
  · exact hu.spells.isOperand
  · obtain ⟨text, htext, hsign⟩ := hu.exists_toChars
    rw [htext]
    exact ⟨List.cons_ne_nil _ _, hsign⟩

theorem IsCanonical.of_equal_of_spells {t u v : Term} (h : t.IsCanonical) (hequal : t.equal u)
    (hspells : Spells u.toChars v) : u.IsCanonical := by
  rcases h.of_equal hequal with hu | hu
  · exact hu
  · obtain ⟨text, htext, -⟩ := hu.exists_toChars
    rw [htext] at hspells
    cases hspells.not_sign '-' List.mem_cons_self

end Term

end WindowLayout
