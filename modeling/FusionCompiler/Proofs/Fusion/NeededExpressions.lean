import Mathlib.Data.Finset.Card
import FusionCompiler.Proofs.Fusion.Ordering
import FusionCompiler.Proofs.Schedule.ConsistentGraphs

/-!
# Needed expressions

An expression is needed if an output is computed from one of its results, through
any number of other expressions.  In a fusion that has no cycle the live
expressions are exactly the needed ones, each listed once and behind the
definitions of its operands.

A cycle is a path of values, while the walk from the outputs asks for a level of
the expressions.  Counting the operands from which a value is computed gives the
values a rank, and the rank gives the expressions a level.

Main results:

- Theorem `Fusion.exists_rank_of_acyclic`: without cycles some rank of the values
  grows from operands to results.
- Theorem `Fusion.Founded.mem_liveExprs_iff`: an expression is live exactly if it
  is needed.
- Theorem `Fusion.liveExprs_topological`: the live expressions are a topological
  order of the needed ones.
-/

namespace FusionCompiler
namespace Fusion

open Relation

variable {f : Fusion} {d e : ExprId} {u v : ValueId}

/-- An output is a result of the expression, or is computed from one. -/
def Needed (f : Fusion) (e : ExprId) : Prop :=
  ∃ o ∈ f.outputs, ∃ v, ReflTransGen f.ComputedFrom v o ∧ f.definition v = some e

/-! ## Ranks of values -/

open Classical in
/-- How many of some values a value is computed from. -/
noncomputable def countBelow (f : Fusion) (among : Finset ValueId) (v : ValueId) : Nat :=
  (among.filter fun u => TransGen f.ComputedFrom u v).card

/-- An operand is computed from fewer values than the result: it is itself one of them. -/
theorem countBelow_lt {among : Finset ValueId} (hu : u ∈ among)
    (hacyclic : ¬ TransGen f.ComputedFrom u u) (h : f.ComputedFrom u v) :
    f.countBelow among u < f.countBelow among v := by
  classical
  apply Finset.card_lt_card
  rw [Finset.ssubset_iff_of_subset]
  · refine ⟨u, ?_, ?_⟩
    · simp [hu, TransGen.single h]
    · simp [hacyclic]
  · intro w hw
    simp only [Finset.mem_filter] at hw ⊢
    exact ⟨hw.1, hw.2.tail h⟩

/-- A value is not computed from all values if it is not computed from itself. -/
theorem countBelow_lt_card {among : Finset ValueId} (hv : v ∈ among)
    (hacyclic : ¬ TransGen f.ComputedFrom v v) : f.countBelow among v < among.card := by
  classical
  apply Finset.card_lt_card
  rw [Finset.ssubset_iff_of_subset (Finset.filter_subset _ _)]
  exact ⟨v, hv, by simp [hacyclic]⟩

/-- The operands of all expressions. -/
def operandValues (f : Fusion) : Finset ValueId :=
  (f.exprs.toList.flatMap fun x => ((x.map (·.inputs)).getD [])).toFinset

theorem mem_operandValues {x : Expr} (hx : f.expr? e = some x) (hu : u ∈ x.inputs) :
    u ∈ f.operandValues := by
  have hslot : some x ∈ f.exprs.toList := by
    have hget : f.exprs[e.index]? = some (some x) := Option.join_eq_some_iff.1 hx
    exact Array.mem_toList_iff.2 (Array.mem_of_getElem? hget)
  simp only [operandValues, List.mem_toFinset, List.mem_flatMap]
  exact ⟨some x, hslot, hu⟩

/-- The definition of a value is live, so its operands are among those of all expressions. -/
theorem ComputedFrom.mem_operandValues
    (hdef : ∀ v e, f.definition v = some e ↔ ∃ x, f.expr? e = some x ∧ v ∈ x.outputs)
    (h : f.ComputedFrom u v) : u ∈ f.operandValues := by
  obtain ⟨x, hx, hu⟩ := h
  cases he : f.definition v with
  | none => simp [definingExpr?, he] at hx
  | some e =>
      obtain ⟨y, hy, -⟩ := (hdef v e).1 he
      have hxy : y = x := by simpa [definingExpr?, he, expr, hy] using hx
      exact Fusion.mem_operandValues hy (hxy ▸ hu)

open Classical in
/-- The number of operands from which a value is computed. -/
noncomputable def depth (f : Fusion) (v : ValueId) : Nat :=
  (f.operandValues.filter fun u => TransGen f.ComputedFrom u v).card

/-- Without cycles a value is computed from more operands than each of its own operands is: the
operand itself is one of them. -/
theorem depth_lt
    (hdef : ∀ v e, f.definition v = some e ↔ ∃ x, f.expr? e = some x ∧ v ∈ x.outputs)
    (hacyclic : ∀ v, ¬ TransGen f.ComputedFrom v v) (h : f.ComputedFrom u v) :
    f.depth u < f.depth v :=
  countBelow_lt (h.mem_operandValues hdef) (hacyclic u) h

/-- Without cycles some rank of the values grows from operands to results. -/
theorem exists_rank_of_acyclic
    (hdef : ∀ v e, f.definition v = some e ↔ ∃ x, f.expr? e = some x ∧ v ∈ x.outputs)
    (hacyclic : ∀ v, ¬ TransGen f.ComputedFrom v v) : ∃ rank, f.Ranked rank := by
  refine ⟨f.depth, fun e x hx u hu v hv => ?_⟩
  have he : f.definition v = some e := (hdef v e).2 ⟨x, hx, hv⟩
  apply depth_lt hdef hacyclic
  exact ⟨x, by simp [definingExpr?, he, expr, hx], hu⟩

/-! ## Live expressions -/

/-- What computes an operand of a live expression is live. -/
theorem Founded.mem_liveExprs_of_feeds (hf : Founded f) (he : e ∈ f.liveExprs)
    (h : f.Feeds d e) : d ∈ f.liveExprs := by
  obtain ⟨pre, post, heq⟩ := List.append_of_mem he
  have hpre : d ∈ pre := hf.liveExprs_inOrder.1 pre e post heq d h
  simp [heq, hpre]

theorem Founded.definition_mem_of_computedFrom (hf : Founded f) {o : ValueId}
    (h : ReflTransGen f.ComputedFrom v o) (ho : ∀ e, f.definition o = some e → e ∈ f.liveExprs)
    (hd : f.definition v = some d) : d ∈ f.liveExprs := by
  induction h using ReflTransGen.head_induction_on generalizing d with
  | refl => exact ho d hd
  | @head v w hvw _ ih =>
      obtain ⟨x, hx, hv⟩ := hvw
      cases he : f.definition w with
      | none => simp [definingExpr?, he] at hx
      | some e =>
          have hex : f.expr e = x := by simpa [definingExpr?, he] using hx
          apply hf.mem_liveExprs_of_feeds (ih he)
          exact ⟨v, hex ▸ hv, hd⟩

/-- What computes an operand of a needed expression is needed. -/
theorem Needed.feeds (he : f.Needed e) (h : f.Feeds d e) : f.Needed d := by
  obtain ⟨o, ho, v, hvo, hv⟩ := he
  obtain ⟨u, hu, hd⟩ := h
  have huv : f.ComputedFrom u v := ⟨f.expr e, by simp [definingExpr?, hv], hu⟩
  exact ⟨o, ho, u, .head huv hvo, hd⟩

/-- An expression is live exactly if it is needed. -/
theorem Founded.mem_liveExprs_iff (hf : Founded f) : e ∈ f.liveExprs ↔ f.Needed e := by
  constructor
  · intro he
    apply of_mem_liveExprs _ _ he
    · exact fun o ho d hd => ⟨o, ho, o, .refl, hd⟩
    · exact fun d e he h => he.feeds h
  · intro he
    obtain ⟨o, ho, v, hvo, hv⟩ := he
    exact hf.definition_mem_of_computedFrom hvo
      (fun d hd => hf.definition_mem_liveExprs ho hd) hv

/-- In a fusion without cycles, in which the definition of a value is the expression that lists it
among its results, the live expressions are listed without repetition, they are exactly those that
an output is transitively computed by, and each of them stands behind the definitions of all its
operands. -/
theorem liveExprs_topological
    (hdef : ∀ v e, f.definition v = some e ↔ ∃ x, f.expr? e = some x ∧ v ∈ x.outputs)
    (hacyclic : ∀ v, ¬ TransGen f.ComputedFrom v v) :
    f.liveExprs.Nodup ∧ (∀ e, e ∈ f.liveExprs ↔ f.Needed e) ∧
      ∀ pre e post, f.liveExprs = pre ++ e :: post →
        ∀ v ∈ (f.expr e).inputs, ∀ d, f.definition v = some d → d ∈ pre := by
  have hf : Founded f :=
    ⟨fun v e => (hdef v e).1, exists_rank_of_acyclic hdef hacyclic⟩
  refine ⟨hf.liveExprs_inOrder.2, fun e => hf.mem_liveExprs_iff, ?_⟩
  intro pre e post heq v hv d hd
  exact hf.liveExprs_inOrder.1 pre e post heq d ⟨v, hv, hd⟩

/-- The rows of a matrix, centered by their mean and divided by the sums of squares.  Two results of
one expression are needed, two values are read twice, and two expressions are needed by no output. -/
def standardizedRows : List Call :=
  [.tensor [2, 3] [true, true] .float, .input ⟨0⟩, .welford ⟨0⟩ [1],
    .broadcast ⟨7⟩ [false, true], .broadcast ⟨8⟩ [false, true],
    .binary .sub (.value ⟨0⟩) (.value ⟨13⟩), .unary .neg (.value ⟨17⟩),
    .binary .div (.value ⟨20⟩) (.value ⟨17⟩), .unary .neg (.value ⟨20⟩),
    .output ⟨26⟩, .output ⟨8⟩]

theorem standardizedRows_topological :
    ∃ f, f = performAll (standardizedRows.map .call) {} ∧
      f.liveExprs = [⟨0⟩, ⟨1⟩, ⟨3⟩, ⟨2⟩, ⟨5⟩] ∧
      f.liveExprs.Nodup ∧ (∀ e, e ∈ f.liveExprs ↔ f.Needed e) ∧
      ∀ pre e post, f.liveExprs = pre ++ e :: post →
        ∀ v ∈ (f.expr e).inputs, ∀ d, f.definition v = some d → d ∈ pre := by
  have hconsistent := performAll_consistent (standardizedRows.map .call)
  refine ⟨_, rfl, by cbv, ?_⟩
  exact liveExprs_topological hconsistent.definition hconsistent.acyclic

end Fusion
end FusionCompiler
