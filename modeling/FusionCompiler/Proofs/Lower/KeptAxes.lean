import FusionCompiler.Proofs.Lower.Grouping
import FusionCompiler.Proofs.Lower.IndexSpace

/-!
# Axes that are kept from overrunning

Whether the padding of a history is caught depends on where the padded axes come
from, not on their extents, as long as they descend from guarded roots by outer
halves of splits and by merges in which they are the outer axis.  Then every
element is touched by exactly one iteration that passes the guard.

Main results:

- Theorem `LoopPlan.Iteration.inside_of_kept`: an iteration that passes the guard
  overruns no kept axis.
- Theorem `LoopPlan.exactlyOnce_of_kept`: every element is visited exactly once if
  every padded axis is kept.
- Theorem `LoopPlan.exists_exactlyOnce`: there are such loops where nothing is
  inlined.
-/

namespace FusionCompiler
namespace Fusion

variable {f f' : Fusion} {v : ValueId} {a : AxisId}

/-- The axes that no iteration overruns which passes the guard, whatever their extents: roots other
than broadcasts, the outer half of a split of such an axis, and a merge with such an outer axis. -/
inductive Kept (f : Fusion) (v : ValueId) : AxisId → Prop where
  | root {a : AxisId} (ha : a ∈ (f.view v).domain.root) (hb : (f.axis a).isBroadcast = false) :
      Kept f v a
  | outer {t : TransformId} {a o i : AxisId} {k : ValueId} {innerSplit : Bool}
      (ht : t ∈ f.history v) (hx : f.transform t = .split a o i k innerSplit) (ha : Kept f v a) :
      Kept f v o
  | merged {t : TransformId} {o i out : AxisId} (ht : t ∈ f.history v)
      (hx : f.transform t = .merge o i out) (ho : Kept f v o) : Kept f v out

end Fusion

open Fusion

namespace LoopPlan

variable {p : LoopPlan} {v : ValueId} {e r : AxisId → Int} {env : Scalar.Env} {a : AxisId}

/-- Every element of a tensor is touched by exactly one iteration that passes the guard. -/
def ExactlyOnce (p : LoopPlan) (v : ValueId) (e : AxisId → Int) : Prop :=
  ∀ (env : Scalar.Env) (r : AxisId → Int), p.fusion.Sized env (p.fusion.axesOf v) e →
    (∀ a ∈ (p.fusion.view v).domain.root, Inside e r a) →
      ∃ it : Iteration p v e, it.Passes ∧
        (∀ a ∈ (p.fusion.view v).domain.root, it.rootIndex a = r a) ∧
        ∀ it' : Iteration p v e, it'.Passes →
          (∀ a ∈ (p.fusion.view v).domain.root, it'.rootIndex a = r a) →
            ∀ a ∈ p.fusion.leaf v, it'.index a = it.index a

/-- Iterations that touch one element, both past the guard, are the same. -/
theorem ExactlyOnce.index_eq (h : p.ExactlyOnce v e) (it it' : Iteration p v e)
    (hpasses : it.Passes) (hpasses' : it'.Passes)
    (hin : ∀ a ∈ (p.fusion.view v).domain.root, Inside e it.rootIndex a)
    (hroots : ∀ a ∈ (p.fusion.view v).domain.root, it'.rootIndex a = it.rootIndex a) :
    ∀ a ∈ p.fusion.leaf v, it'.index a = it.index a := by
  obtain ⟨it₀, -, -, hunique⟩ := h it.env it.rootIndex it.sized hin
  intro a ha
  exact (hunique it' hpasses' hroots a ha).trans
    (hunique it hpasses (fun _ _ => rfl) a ha).symm

/-- Literal indices of some axes. -/
def literalIndices (axes : List AxisId) (r : AxisId → Int) : AxisIndices :=
  ⟨axes.map fun a => (a, .int (r a))⟩

theorem valued_literalIndices {axes : List AxisId} (ha : a ∈ axes) :
    Valued env (literalIndices axes r) r a := by
  refine ⟨.int (r a), ?_, rfl⟩
  unfold literalIndices AxisIndices.get?
  induction axes with
  | nil => cases ha
  | cons b axes ih =>
      rw [List.map_cons, List.lookup_cons]
      by_cases hab : a = b
      · simp [hab]
      · simp only [beq_eq_false_iff_ne.2 hab]
        exact ih ((List.mem_cons.1 ha).resolve_left hab)

section Kept

variable (hp : p.Standalone) (hsizes : p.fusion.Sizes v e) (hknown : p.fusion.KnownExtents v e)

include hp hsizes hknown

namespace Iteration

/-- An iteration that passes the guard overruns no kept axis. -/
theorem inside_of_kept (it : Iteration p v e) (hpasses : it.Passes) (h : p.fusion.Kept v a) :
    Inside e it.index a := by
  have hb := hp.cuts.history hp.sound v
  have hpos := hsizes.pos hp.sound hb it.sized
  obtain ⟨htraced, hnonneg⟩ := it.traced hp hsizes
  have hstep : ∀ t ∈ p.fusion.history v, ∀ b, Inside e it.index b →
      ∀ c ∈ catches e [b] (p.fusion.transform t), Inside e it.index c := by
    intro t ht b hin
    refine (htraced t ht).catches_inside (hsizes.exact hp.sound hb it.sized ht)
      (fun c hc => hpos c (hb.mem_axes ht hc)) (fun c hc => ?_) (by simpa using hin)
    exact hnonneg c (hb.mem_axes ht (List.mem_append_right _ hc))
  induction h with
  | root ha hbroad =>
      have hin := it.rootIndex_inside hp hsizes hknown hpasses _ ha
      rwa [Inside, it.rootIndex_eq ha, if_neg (by simp [hbroad])] at hin
  | outer ht hx ha ih =>
      refine hstep _ ht _ ih _ ?_
      rw [hx, catches, if_pos List.mem_cons_self]
      split <;> exact List.mem_cons_self
  | merged ht hx ho ih =>
      refine hstep _ ht _ ih _ ?_
      rw [hx, catches, if_pos List.mem_cons_self]
      exact List.mem_cons_self

end Iteration

/-- Every element is visited exactly once if every padded axis is kept. -/
theorem exactlyOnce_of_kept (hpad : ∀ env, p.fusion.Sized env (p.fusion.axesOf v) e →
      ∀ t ∈ p.fusion.history v, ∀ a ∈ padded e (p.fusion.transform t), p.fusion.Kept v a) :
    p.ExactlyOnce v e := by
  have honce : p.VisitsOnce v e := by
    refine visitsOnce_of_staysInside hp hsizes fun it hpasses => ?_
    exact it.inside_of_padded hp hsizes fun t ht a ha =>
      it.inside_of_kept hp hsizes hknown hpasses (hpad it.env it.sized t ht a ha)
  intro env r hsized hroots
  obtain ⟨it, hpasses, hinside, hindex⟩ := Iteration.exists_inside hp hsizes env hsized
    fun a ha => ⟨valued_literalIndices ha, hroots a ha⟩
  have hroot : ∀ a ∈ (p.fusion.view v).domain.root, it.rootIndex a = r a := by
    intro a ha
    rw [it.rootIndex_eq ha, hindex a ha]
    split
    case isTrue hbroad =>
        -- a broadcast has one element only
        have hone := (hp.plain.root v a ha).extent_eq_one hbroad
          (hsized a (List.mem_append_left _ ha))
        have hin := hroots a ha
        unfold Inside at hin
        omega
    case isFalse => rfl
  refine ⟨it, hpasses, hroot, fun it' hpasses' hroot' => ?_⟩
  exact honce it' it hpasses' hpasses fun a ha => (hroot' a ha).trans (hroot a ha).symm

end Kept

/-- Where nothing is inlined there are loops, and they visit every element of a tensor exactly once
if every padded axis is kept. -/
theorem exists_exactlyOnce {f : Fusion} (hf : Sound f) (hc : Cuts f) (hp : Plain f)
    (hpad : ∀ e, f.Sizes v e → ∀ env, f.Sized env (f.axesOf v) e →
      ∀ t ∈ f.history v, ∀ a ∈ padded e (f.transform t), f.Kept v a) :
    ∃ groups, LoopGroups.build f = .ok groups ∧
      ∀ e, f.Sizes v e → f.KnownExtents v e → ExactlyOnce ⟨f, groups⟩ v e := by
  obtain ⟨groups, hbuild, hconcrete⟩ := LoopGroups.build_plain hp
  refine ⟨groups, hbuild, fun e hsizes hknown => ?_⟩
  refine exactlyOnce_of_kept ⟨hf, hc, hp, fun a => ?_⟩ hsizes hknown (hpad e hsizes)
  exact congrArg f.ownExtent (hconcrete a)

end LoopPlan
end FusionCompiler
