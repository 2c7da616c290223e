import Mathlib
import WindowLayout.Proofs.Expr.Terms

namespace WindowLayout

def Term.ReadsBack (t : Term) : Prop :=
  ∃ e, Expr.parse (Expr.term t).toString = .ok e ∧ e.equal (.term t)

namespace Term

theorem readsBack_iff {t : Term} : t.ReadsBack ↔ t.IsCanonical := by
  constructor
  · rintro ⟨e, h, hequal⟩
    cases Expr.linear_of_parse_toString h hequal with
    | term ht => exact ht
  · intro h
    exact ⟨.term t, Expr.parse_toString (.term h), h.equal_self⟩

end Term

namespace Expr

def LeansLeft (e : Expr) : Prop := e.Linear fun _ => True

theorem leansLeft_toExpr (c : Chain) : c.toExpr.LeansLeft :=
  .of_all (.of_forall (fun _ => trivial) c)

theorem toExpr_toChain_eq_iff {e : Expr} : e.toChain.toExpr = e ↔ e.LeansLeft := by
  constructor
  · intro h
    rw [← h]
    exact leansLeft_toExpr _
  · exact Linear.toExpr_toChain

/-- If the terms of an expression read back, its text is read as the same terms and operators in the
same order, joined from left to right. Only the shape can differ: the text is the same, and so is
whether there are pixels. -/
theorem parse_toString_eq_left_leaning {e : Expr} (h : e.toChain.All Term.ReadsBack) :
    let left := e.toChain.toExpr
    parse e.toString = .ok left ∧ left.LeansLeft ∧ left.toChain = e.toChain ∧
      left.toString = e.toString ∧ left.hasPixels = e.hasPixels ∧
      (left = e ↔ e.LeansLeft) ∧ (left.equal e ↔ e.LeansLeft) := by
  intro left
  have hcanonical : e.toChain.All Term.IsCanonical := h.imp fun _ => Term.readsBack_iff.1
  have hchain : left.toChain = e.toChain := Chain.toChain_toExpr _
  have hleans : left.LeansLeft := leansLeft_toExpr _
  refine ⟨parse_toString_of_all hcanonical, hleans, hchain, ?_, ?_, toExpr_toChain_eq_iff, ?_⟩
  · exact congrArg String.ofList e.toChars_toChain
  · rw [← left.hasPixels_toChain, hchain, e.hasPixels_toChain]
  · constructor
    · intro hequal
      exact Linear.of_equal hleans hequal fun _ _ _ _ => trivial
    · intro he
      have hself : left.equal left := (Linear.of_all hcanonical).equal_self
      have heq : left = e := toExpr_toChain_eq_iff.2 he
      rw [heq] at hself ⊢
      exact hself

theorem parse_toString_nested_right :
    let e : Expr := .binary (.term (.fraction 1 2)) .subtract
      (.binary (.term (.percentage (1 / 2))) .add (.term (.pixels 10)))
    let left : Expr := .binary
      (.binary (.term (.fraction 1 2)) .subtract (.term (.percentage (1 / 2)))) .add
      (.term (.pixels 10))
    e.toChain.All Term.ReadsBack ∧ e.toString = "1/2 - 50% + 10px" ∧
      parse e.toString = .ok left ∧ left.toString = e.toString ∧ left.equal e = false ∧
      ¬e.LeansLeft := by
  intro e left
  have hterms : e.toChain.All Term.ReadsBack := by
    constructor
    · exact ⟨.term (.fraction 1 2), by decide +kernel, by decide +kernel⟩
    · have hrest : e.toChain.rest = [(.subtract, .percentage (1 / 2)), (.add, .pixels 10)] := by rfl
      rw [hrest, List.forall_mem_cons, List.forall_mem_singleton]
      exact ⟨⟨.term (.percentage (1 / 2)), by decide +kernel, by decide +kernel⟩,
        ⟨.term (.pixels 10), by decide +kernel, by decide +kernel⟩⟩
  obtain ⟨hparse, -, -, htext, -, -, hequal⟩ := parse_toString_eq_left_leaning hterms
  have hne : left.equal e = false := by decide +kernel
  refine ⟨hterms, by decide +kernel, hparse, htext, hne, ?_⟩
  intro hleans
  exact Bool.false_ne_true (hne.symm.trans (hequal.2 hleans))

end Expr

end WindowLayout
