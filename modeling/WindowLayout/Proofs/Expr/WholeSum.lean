import Mathlib
import WindowLayout.Proofs.Binary64.Exact
import WindowLayout.Proofs.Expr.Portion

namespace WindowLayout

open Decimal (Numeral)
open Binary64 (IsWhole)

variable {c : Nat}

namespace Term

inductive MeasuresWhole (c : Nat) : List Char → Nat → Prop
  | zero : MeasuresWhole c ['0'] 0
  | pixels {text : List Char} {x : Decimal} {n : Nat} :
    Numeral text x → x.digits = n * 10 ^ x.places → MeasuresWhole c (text ++ ['p', 'x']) n
  | percentage {text : List Char} {x : Decimal} {k : Nat} :
    Numeral text x → x.digits = 100 * k * 10 ^ x.places → 100 * k ≤ 2 ^ 53 →
    MeasuresWhole c (text ++ ['%']) (c * k)
  | fraction {numerator denominator : List Char} {n d : Nat} :
    IsNatural numerator n → IsNatural denominator d → n < 2 ^ 63 → d < 2 ^ 63 → d ≠ 0 →
    c * n ≤ 2 ^ 53 → d ∣ c * n →
    MeasuresWhole c (numerator ++ '/' :: denominator) (c * n / d)

variable {container : Binary64} {n d : Nat}

theorem isWhole_mul_ofInt (hcontainer : IsWhole container c) (hn : n < 2 ^ 63)
    (h : c * n ≤ 2 ^ 53) : IsWhole (container * .ofInt n) (c * n : Nat) := by
  rcases Nat.eq_zero_or_pos c with rfl | hpos
  · obtain ⟨rank, hrank, -⟩ := Binary64.exists_ofInt_nearest (hn.le.trans (by norm_num))
    rw [hrank, Nat.zero_mul]
    exact hcontainer.zero_mul _ _
  · have hn : n ≤ 2 ^ 53 := (Nat.le_mul_of_pos_left n hpos).trans h
    rw [Nat.cast_mul]
    exact hcontainer.mul (Binary64.isWhole_ofInt hn) h

theorem isWhole_div_ofInt {x : Binary64} (hx : IsWhole x n) (hn : n ≤ 2 ^ 53) (hpos : 0 < d)
    (hd : d < 2 ^ 63) (hdvd : d ∣ n) : IsWhole (x / .ofInt d) (n / d : Nat) := by
  rcases Nat.eq_zero_or_pos n with rfl | hnpos
  · obtain ⟨rank, hrank, hne⟩ := Binary64.exists_ofInt_pos hpos (hd.le.trans (by norm_num))
    rw [hrank, Nat.zero_div]
    exact hx.zero_div _ hne
  · have hd : d ≤ 2 ^ 53 := (Nat.le_of_dvd hnpos hdvd).trans hn
    have hq : n / d ≤ 2 ^ 53 := (Nat.div_le_self n d).trans hn
    rw [← Nat.div_mul_cancel hdvd, Nat.cast_mul] at hx
    exact hx.div (Binary64.isWhole_ofInt hd) (Int.natCast_ne_zero.2 hpos.ne') hq

theorem MeasuresWhole.exists_spells {text : List Char} {length : Nat}
    (h : MeasuresWhole c text length) (hlength : length ≤ 2 ^ 53)
    (hcontainer : IsWhole container c) :
    ∃ t, Spells text t ∧ IsWhole (t.value container none) length := by
  have hlarge {n : Nat} (hn : n ≤ 2 ^ 53) : n ≤ 2 ^ 64 := hn.trans (by norm_num)
  cases h with
  | zero =>
    refine ⟨_, .zero, ?_⟩
    rw [value, Binary64.zero_eq]
    exact Binary64.isWhole_zero false
  | pixels hx hdigits =>
    refine ⟨_, .pixels hx (Binary64.isClosestTo_ofInt hdigits (hlarge hlength)), ?_⟩
    rw [value, Option.elim_none]
    exact Binary64.isWhole_ofInt hlength
  | @percentage text x k hx hdigits hk =>
    refine ⟨_, .percentage hx (Binary64.isClosestTo_ofInt hdigits (hlarge hk)), ?_⟩
    have hratio := isWhole_div_ofInt (d := 100) (Binary64.isWhole_ofInt hk) hk (by norm_num)
      (by norm_num) (Nat.dvd_mul_right 100 k)
    rw [Nat.mul_div_cancel_left k (by norm_num)] at hratio
    rw [value, Nat.cast_mul]
    exact hcontainer.mul hratio hlength
  | fraction hnumerator hdenominator hn hd hne hproduct hdvd =>
    refine ⟨_, .fraction hnumerator hdenominator hn hd hne, ?_⟩
    rw [value, ofInt64_ofNat hn, ofInt64_ofNat hd]
    exact isWhole_div_ofInt (isWhole_mul_ofInt hcontainer hn hproduct) hproduct
      (Nat.pos_of_ne_zero hne) hd hdvd

end Term

def Operator.signed : Operator → Nat → Int
  | .add, n => n
  | .subtract, n => -n

theorem Operator.natAbs_signed (op : Operator) (n : Nat) : (op.signed n).natAbs = n := by
  cases op with
  | add => exact Int.natAbs_natCast n
  | subtract => rw [signed, Int.natAbs_neg, Int.natAbs_natCast]

structure WholeLengths : Type where
  first : Nat
  rest : List (Operator × Nat)

def WholeLengths.terms (lengths : WholeLengths) : List Int :=
  lengths.first :: lengths.rest.map fun part => part.1.signed part.2

namespace Operands

def MeasuresWholeLink (c : Nat) (part : Operator × List Char) (length : Operator × Nat) : Prop :=
  part.1 = length.1 ∧ Term.MeasuresWhole c part.2 length.2

structure MeasuresWhole (c : Nat) (o : Operands) (lengths : WholeLengths) : Prop where
  first : Term.MeasuresWhole c o.first lengths.first
  rest : List.Forall₂ (MeasuresWholeLink c) o.rest lengths.rest

end Operands

namespace Chain

variable {container : Binary64}

def IsWholeLink (container : Binary64) (link : Link) (length : Operator × Nat) : Prop :=
  link.1 = length.1 ∧ IsWhole (link.2.value container none) length.2

theorem isWhole_apply (op : Operator) {x y : Binary64} {i : Int} {n : Nat} (hx : IsWhole x i)
    (hy : IsWhole y n) (h : (i + op.signed n).natAbs ≤ 2 ^ 53) :
    IsWhole (op.apply x y) (i + op.signed n) := by
  cases op with
  | add => exact hx.add hy h
  | subtract => exact hx.sub hy h

theorem isWhole_foldl {links : List Link} {lengths : List (Operator × Nat)}
    (h : List.Forall₂ (IsWholeLink container) links lengths) {sum : Binary64} {i : Int}
    (hsum : IsWhole sum i)
    (hbound : ∀ front, front <+: lengths.map (fun part => part.1.signed part.2) →
      (i + front.sum).natAbs ≤ 2 ^ 53) :
    IsWhole (links.foldl (fun sum link => link.1.apply sum (link.2.value container none)) sum)
      (i + (lengths.map fun part => part.1.signed part.2).sum) := by
  induction h generalizing sum i with
  | nil =>
    rw [List.map_nil, List.sum_nil, Int.add_zero]
    exact hsum
  | @cons link length links lengths hlink _ ih =>
    obtain ⟨hop, hlength⟩ := hlink
    have hfirst := hbound [length.1.signed length.2] (by simp)
    rw [List.sum_singleton] at hfirst
    rw [List.foldl_cons, List.map_cons, List.sum_cons, ← Int.add_assoc, hop]
    apply ih (isWhole_apply _ hsum hlength hfirst)
    intro front hfront
    have hcons := hbound (length.1.signed length.2 :: front) (by simpa using hfront)
    rwa [List.sum_cons, ← Int.add_assoc] at hcons

end Chain

namespace Operands

variable {container : Binary64}

theorem exists_links_of_measuresWhole {rest : List (Operator × List Char)}
    {lengths : List (Operator × Nat)} (h : List.Forall₂ (MeasuresWholeLink c) rest lengths)
    (hlengths : ∀ part ∈ lengths, part.2 ≤ 2 ^ 53) (hcontainer : IsWhole container c) :
    ∃ links, List.Forall₂ SpellsLink rest links ∧
      List.Forall₂ (Chain.IsWholeLink container) links lengths := by
  induction h with
  | nil => exact ⟨[], .nil, .nil⟩
  | @cons part length rest lengths hlink _ ih =>
    obtain ⟨hlength, hlengths⟩ := List.forall_mem_cons.1 hlengths
    obtain ⟨hop, hmeasures⟩ := hlink
    obtain ⟨t, hspells, hwhole⟩ := hmeasures.exists_spells hlength hcontainer
    obtain ⟨links, hlinks, hwholes⟩ := ih hlengths
    exact ⟨(part.1, t) :: links, .cons ⟨rfl, hspells⟩ hlinks, .cons ⟨hop, hwhole⟩ hwholes⟩

theorem MeasuresWhole.exists_spells {o : Operands} {lengths : WholeLengths}
    (h : o.MeasuresWhole c lengths) (hcontainer : IsWhole container c)
    (hterms : ∀ i ∈ lengths.terms, i.natAbs ≤ 2 ^ 53)
    (hsums : ∀ front, front <+: lengths.terms → front.sum.natAbs ≤ 2 ^ 53) :
    ∃ chain : Chain, o.Spells chain ∧
      IsWhole (chain.toExpr.value container none) lengths.terms.sum := by
  obtain ⟨hfirst, hrest⟩ := List.forall_mem_cons.1 hterms
  have hlengths : ∀ part ∈ lengths.rest, part.2 ≤ 2 ^ 53 := by
    intro part hpart
    have hle := hrest _ (List.mem_map_of_mem hpart)
    rwa [part.1.natAbs_signed] at hle
  obtain ⟨t, hspells, hwhole⟩ := h.first.exists_spells hfirst hcontainer
  obtain ⟨links, hlinks, hwholes⟩ := exists_links_of_measuresWhole h.rest hlengths hcontainer
  refine ⟨⟨t, links⟩, ⟨hspells, hlinks⟩, ?_⟩
  rw [Chain.toExpr, Chain.value_extend, WholeLengths.terms, List.sum_cons]
  apply Chain.isWhole_foldl hwholes hwhole
  intro front hfront
  have hcons := hsums (lengths.first :: front) (by simpa [WholeLengths.terms] using hfront)
  rwa [List.sum_cons] at hcons

end Operands

namespace Expr

variable {s : String}

/-- Without a screen an expression of whole lengths is resolved to their exact sum, if the lengths
and the sums of the first ones of them are up to `2 ^ 53`. -/
theorem resolve_whole_eq_sum {o : Operands} {lengths : WholeLengths} {container : Binary64}
    (hs : o.toChars = Text.withoutBlanks s.toList) (h : o.MeasuresWhole c lengths)
    (hc : c ≤ 2 ^ 53) (hcontainer : (Binary64.ofInt c).equal container)
    (hterms : ∀ i ∈ lengths.terms, i.natAbs ≤ 2 ^ 53)
    (hsums : ∀ front, front <+: lengths.terms → front.sum.natAbs ≤ 2 ^ 53) :
    ∃ reply, resolve s container none = .ok reply ∧ reply.value.toInt = lengths.terms.sum := by
  have hwhole : IsWhole container c := (Binary64.isWhole_ofInt hc).of_equal hcontainer
  obtain ⟨chain, hspells, hvalue⟩ := h.exists_spells hwhole hterms hsums
  have hparse : parse s = .ok chain.toExpr := parse_eq_ok_iff_spells.2 ⟨o, chain, hs, hspells, rfl⟩
  refine ⟨chain.toExpr.evaluate container none, ?_, ?_⟩
  · rw [resolve, hparse]
    rfl
  · rw [value_evaluate]
    exact hvalue.toInt_round (hsums _ (List.prefix_refl _))

theorem resolve_whole_cancelling :
    let c := 4503599627370496
    let lengths : WholeLengths :=
      ⟨c * 2, [(.subtract, 9007199254740991), (.add, c * 1 / 4503599627370496), (.subtract, 0)]⟩
    (∀ i ∈ lengths.terms, i.natAbs ≤ 2 ^ 53) ∧
      (∀ front, front <+: lengths.terms → front.sum.natAbs ≤ 2 ^ 53) ∧
      ∃ reply, resolve "200.0% - 9007199254740991px + 1/4503599627370496 - 0"
        (.ofInt c) none = .ok reply ∧ reply.value.toInt = 2 := by
  intro c lengths
  have hterms : ∀ i ∈ lengths.terms, i.natAbs ≤ 2 ^ 53 := by decide
  have hsums : ∀ front, front <+: lengths.terms → front.sum.natAbs ≤ 2 ^ 53 := by
    simp only [← List.mem_inits]
    decide
  have hpercentage : Numeral ['2', '0', '0', '.', '0'] ⟨2000, 1⟩ := by
    rw [← Decimal.ofChars?_eq_some_iff]
    decide
  have hpixels : Numeral (Nat.toDigits 10 9007199254740991) ⟨9007199254740991, 0⟩ := by
    rw [← Decimal.ofChars?_eq_some_iff]
    decide +kernel
  let o : Operands := ⟨['2', '0', '0', '.', '0'] ++ ['%'],
    [(.subtract, Nat.toDigits 10 9007199254740991 ++ ['p', 'x']),
      (.add, Nat.toDigits 10 1 ++ '/' :: Nat.toDigits 10 4503599627370496), (.subtract, ['0'])]⟩
  have hs : o.toChars =
      Text.withoutBlanks "200.0% - 9007199254740991px + 1/4503599627370496 - 0".toList := by
    decide +kernel
  have hmeasures : o.MeasuresWhole c lengths := by
    refine ⟨.percentage hpercentage (by norm_num) (by norm_num), .cons ⟨rfl, ?_⟩
      (.cons ⟨rfl, ?_⟩ (.cons ⟨rfl, .zero⟩ .nil))⟩
    · exact .pixels hpixels (by norm_num)
    · exact .fraction (Term.isNatural_toDigits 1) (Term.isNatural_toDigits 4503599627370496)
        (by norm_num) (by norm_num) (by norm_num) (by norm_num) (by norm_num)
  have hequal : (Binary64.ofInt c).equal (.ofInt c) := by
    obtain ⟨rank, hrank, -⟩ := Binary64.exists_ofInt_eq (n := c) (by norm_num)
    rw [hrank]
    exact Binary64.equal_self rfl
  have hsum : lengths.terms.sum = 2 := by decide
  obtain ⟨reply, hreply, hvalue⟩ :=
    resolve_whole_eq_sum hs hmeasures (by norm_num) hequal hterms hsums
  exact ⟨hterms, hsums, reply, hreply, hvalue.trans hsum⟩

end Expr

end WindowLayout
