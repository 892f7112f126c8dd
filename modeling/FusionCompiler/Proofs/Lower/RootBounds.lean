import FusionCompiler.Proofs.Kernel.Substitution
import FusionCompiler.Proofs.Lower.IndexSpace

/-!
# Guarded root indices

The guard of an operation bounds the root indices of a tensor, but for the roots
that are known to stay inside.  Such a root is only merged or split without
remainder, so its index is inside its extent as long as the loops of the leaves
that it ends in run inside theirs.

Main results:

- Theorem `LoopPlan.carriedBack_below`: indices that are carried back from the
  leaves stay below what the limits of the leaves add up to.
- Theorem `LoopPlan.rootIndex_inside`: where the bounds of a tensor hold, and the
  iterated leaves are inside their extents, so is every stored root index.
-/

namespace FusionCompiler

open Fusion

namespace Fusion

variable {f : Fusion}

/-- What is followed from iterations without remainder are iterations. -/
theorem exactLeaves_iteration {ts : List Transform} {reached result : List AxisId}
    (hkinds : ∀ t ∈ ts, (∃ a ∈ t.inputs, (f.axis a).kind = .iteration) →
      ∀ b ∈ t.outputs, (f.axis b).kind = .iteration)
    (hreached : ∀ a ∈ reached, (f.axis a).kind = .iteration)
    (h : f.exactLeaves ts reached = some result) : ∀ a ∈ result, (f.axis a).kind = .iteration := by
  induction ts generalizing reached with
  | nil =>
      cases h
      exact hreached
  | cons t ts ih =>
      have hrest := fun s hs => hkinds s (List.mem_cons_of_mem t hs)
      rw [exactLeaves] at h
      split at h
      case isFalse => exact ih hrest hreached h
      case isTrue hany =>
          split at h
          case isFalse => cases h
          case isTrue =>
              refine ih hrest (fun a ha => ?_) h
              rcases List.mem_append.1 ha with ha | ha
              · exact hreached a (List.mem_filter.1 ha).1
              · obtain ⟨b, hb, hbreached⟩ := List.any_eq_true.1 hany
                exact hkinds t List.mem_cons_self ⟨b, hb, hreached b (by simpa using hbreached)⟩ a ha

end Fusion

namespace LoopPlan

variable {p : LoopPlan} {v : ValueId} {e : AxisId → Int} {env : Scalar.Env}
  {leaves : AxisIndices} {a : AxisId}

/-- A tensor over balanced leaves whose loops run over the extents of its own axes; what comes from
an iteration counts as one. -/
structure Upright (p : LoopPlan) (v : ValueId) (e : AxisId → Int) : Prop where
  balanced : p.fusion.Balanced (p.fusion.view v).domain.root (p.fusion.history v) (p.fusion.leaf v)
  unfactored : (p.fusion.view v).domain.rfactor = none
  own : ∀ a ∈ p.fusion.axesOf v, (p.concreteExtent a == p.fusion.ownExtent a) = true
  floatFree : ∀ a ∈ p.fusion.axesOf v, (p.fusion.ownExtent a).floatFree = true
  iterations : ∀ t ∈ p.fusion.history v,
    (∃ a ∈ (p.fusion.transform t).inputs, (p.fusion.axis a).kind = .iteration) →
      ∀ b ∈ (p.fusion.transform t).outputs, (p.fusion.axis b).kind = .iteration
  sizes : p.fusion.Sizes v e
  known : p.fusion.KnownExtents v e

instance (p : LoopPlan) (v : ValueId) (e : AxisId → Int) : Decidable (p.Upright v e) :=
  decidable_of_iff
    (p.fusion.Balanced (p.fusion.view v).domain.root (p.fusion.history v) (p.fusion.leaf v) ∧
      (p.fusion.view v).domain.rfactor = none ∧
      (∀ a ∈ p.fusion.axesOf v, (p.concreteExtent a == p.fusion.ownExtent a) = true) ∧
      (∀ a ∈ p.fusion.axesOf v, (p.fusion.ownExtent a).floatFree = true) ∧
      (∀ t ∈ p.fusion.history v,
        (∃ a ∈ (p.fusion.transform t).inputs, (p.fusion.axis a).kind = .iteration) →
          ∀ b ∈ (p.fusion.transform t).outputs, (p.fusion.axis b).kind = .iteration) ∧
      p.fusion.Sizes v e ∧ p.fusion.KnownExtents v e)
    ⟨fun h => ⟨h.1, h.2.1, h.2.2.1, h.2.2.2.1, h.2.2.2.2.1, h.2.2.2.2.2.1, h.2.2.2.2.2.2⟩,
      fun h => ⟨h.balanced, h.unfactored, h.own, h.floatFree, h.iterations, h.sizes, h.known⟩⟩

theorem Upright.concreteExtent_eq (h : p.Upright v e) (ha : a ∈ p.fusion.axesOf v) :
    p.concreteExtent a = p.fusion.ownExtent a :=
  Scalar.eq_of_beq_floatFree (.inr (h.floatFree a ha)) (h.own a ha)

theorem Upright.mem_root (h : p.Upright v e) (ha : a ∈ p.fusion.shape v) :
    a ∈ (p.fusion.view v).domain.root ∧ (p.fusion.axis a).isReduction = false := by
  have hmem := List.mem_filter.1 ha
  rw [TensorDomain.logical, h.unfactored] at hmem
  simpa using hmem

/-! ## How far indices reach -/

/-- A limit of the index that an axis is given by carrying leaf indices back, from limits of the
leaf indices. -/
def reach (e limit : AxisId → Int) : List Transform → AxisId → Int
  | [], a => limit a
  | .split input outer inner _ _ :: ts, a =>
    if a = input then reach e limit ts outer * e inner + reach e limit ts inner
    else reach e limit ts a
  | .merge outer inner output :: ts, a =>
    if a = outer ∨ a = inner then reach e limit ts output else reach e limit ts a

/-- The index of an axis has a value below the limit that is not negative. -/
def Below (env : Scalar.Env) (m : AxisIndices) (limit : Int) (a : AxisId) : Prop :=
  ∃ s n, m.get? a = some s ∧ s.evaluate env = some (.int n) ∧ 0 ≤ n ∧ n < limit

theorem reach_of_not_mem {limit : AxisId → Int} {t : Transform} (h : a ∉ t.inputs)
    (ts : List Transform) : reach e limit (t :: ts) a = reach e limit ts a := by
  cases t with
  | split b o i k innerSplit =>
      have hb : a ≠ b := by simpa [Transform.inputs] using h
      rw [reach, if_neg hb]
  | merge o i out =>
      have hoi : ¬ (a = o ∨ a = i) := by simpa [Transform.inputs] using h
      rw [reach, if_neg hoi]

/-- Backward arithmetic keeps the indices of what a transform consumes below their limits. -/
theorem BackLinked.below {m : AxisIndices} {limit : AxisId → Int} {t : Transform}
    {ts : List Transform} (h : BackLinked p m t)
    (hown : ∀ a ∈ t.inputs ++ t.outputs, p.concreteExtent a = p.fusion.ownExtent a)
    (hsized : p.fusion.Sized env (t.inputs ++ t.outputs) e)
    (hpos : ∀ a ∈ t.inputs ++ t.outputs, 0 < e a)
    (hfits : ∀ a ∈ t.inputs, Fits64 (reach e limit (t :: ts) a))
    (hout : ∀ a ∈ t.outputs, Below env m (reach e limit ts a) a) :
    ∀ a ∈ t.inputs, Below env m (reach e limit (t :: ts) a) a := by
  cases t with
  | split b o i k innerSplit =>
      obtain ⟨so, si, ho, hi, hb⟩ := h
      obtain ⟨so', x, ho', hvo, hx, hxlt⟩ := hout o (by simp [Transform.outputs])
      obtain ⟨si', y, hi', hvi, hy, hylt⟩ := hout i (by simp [Transform.outputs])
      cases ho.symm.trans ho'
      cases hi.symm.trans hi'
      have hei := hsized i (by simp [Transform.outputs])
      rw [← hown i (by simp [Transform.outputs])] at hei
      have hipos := hpos i (by simp [Transform.outputs])
      have hfit := hfits b (by simp [Transform.inputs])
      rw [reach, if_pos rfl] at hfit
      have hprod := Int.mul_nonneg hx (Int.le_of_lt hipos)
      have hle : x * e i ≤ reach e limit ts o * e i :=
        Int.mul_le_mul_of_nonneg_right (Int.le_of_lt hxlt) (Int.le_of_lt hipos)
      have hmul := Scalar.evaluate_mkBinary_of_fits (exactInt?_mul _ _) hvo hei
        (hfit.of_le hprod (by omega))
      have hadd := Scalar.evaluate_mkBinary_of_fits (exactInt?_add _ _) hmul hvi
        (hfit.of_le (Int.add_nonneg hprod hy) (by omega))
      intro a ha
      rw [List.mem_singleton.1 ha, reach, if_pos rfl]
      exact ⟨_, _, hb, hadd, Int.add_nonneg hprod hy, by omega⟩
  | merge o i out =>
      obtain ⟨s, hs, ho, hi⟩ := h
      obtain ⟨s', x, hs', hv, hx, hxlt⟩ := hout out (by simp [Transform.outputs])
      cases hs.symm.trans hs'
      have hei := hsized i (by simp [Transform.inputs])
      rw [← hown i (by simp [Transform.inputs])] at hei
      have hipos := hpos i (by simp [Transform.inputs])
      have hfit := hfits o (by simp [Transform.inputs])
      rw [reach, if_pos (.inl rfl)] at hfit
      have hdiv : 0 ≤ x / e i ∧ x / e i ≤ x :=
        ⟨Int.ediv_nonneg hx (Int.le_of_lt hipos), Int.ediv_le_self _ hx⟩
      have hmod : 0 ≤ x % e i ∧ x % e i ≤ x := by
        refine ⟨Int.emod_nonneg _ (Int.ne_of_gt hipos), ?_⟩
        have hsum := Int.mul_ediv_add_emod x (e i)
        have hprod := Int.mul_nonneg (Int.le_of_lt hipos) hdiv.1
        omega
      have hfits' : ∀ n, 0 ≤ n ∧ n ≤ x → Fits64 n := fun n hn => hfit.of_le hn.1 (by omega)
      intro a ha
      rcases List.mem_pair.1 ha with rfl | rfl
      · rw [reach, if_pos (.inl rfl)]
        exact ⟨_, _, ho, Scalar.evaluate_mkBinary_of_fits (exactInt?_div hx hipos) hv hei
          (hfits' _ hdiv), hdiv.1, by omega⟩
      · rw [reach, if_pos (.inr rfl)]
        exact ⟨_, _, hi, Scalar.evaluate_mkBinary_of_fits (exactInt?_mod hx hipos) hv hei
          (hfits' _ hmod), hmod.1, by omega⟩

/-- Leaf indices below their limits, carried back, give every axis an index below its limit. -/
theorem carriedBack_below {m : AxisIndices} {limit : AxisId → Int} {root leaf : List AxisId}
    {ts : List TransformId} (hf : Sound p.fusion) (h : p.fusion.Balanced root ts leaf)
    (hown : ∀ a ∈ root ++ p.fusion.outputsOf ts, p.concreteExtent a = p.fusion.ownExtent a)
    (hsized : p.fusion.Sized env (root ++ p.fusion.outputsOf ts) e)
    (hpos : ∀ a ∈ root ++ p.fusion.outputsOf ts, 0 < e a)
    (hfits : ∀ a ∈ root ++ p.fusion.outputsOf ts,
      Fits64 (reach e limit (ts.map p.fusion.transform) a))
    (hleaf : ∀ a ∈ leaf, Below env m (limit a) a) :
    ∀ a ∈ root ++ p.fusion.outputsOf ts,
      Below env (p.carriedBack ts m) (reach e limit (ts.map p.fusion.transform) a) a := by
  induction ts generalizing root with
  | nil =>
      intro a ha
      exact hleaf a (by simpa [inputsOf] using (h.perm.mem_iff (a := a)).1 ha)
  | cons t ts ih =>
      obtain ⟨rest, -, hrest, hnext, hnodup⟩ := h.step hf
      have hlinked := (carriedBack_linked (m := m) hf h fun a ha => by
        obtain ⟨s, -, hs, -⟩ := hleaf a ha
        exact ⟨s, hs⟩).2 t List.mem_cons_self
      have hout : p.fusion.outputsOf (t :: ts) =
          (p.fusion.transform t).outputs ++ p.fusion.outputsOf ts := rfl
      have hcut : ∀ a, a ∈ root ++ p.fusion.outputsOf (t :: ts) ↔
          a ∈ (p.fusion.transform t).inputs ∨
            a ∈ rest ++ (p.fusion.transform t).outputs ++ p.fusion.outputsOf ts := by
        intro a
        rw [hout, List.mem_append, hrest.mem_iff]
        simp only [List.mem_append]
        tauto
      -- the step of `t` writes none of the axes from the next cut on
      have hlater : ∀ a ∈ rest ++ (p.fusion.transform t).outputs ++ p.fusion.outputsOf ts,
          a ∉ (p.fusion.transform t).inputs :=
        fun a ha hin => (List.nodup_append.1 hnodup).2.2 a hin a ha rfl
      have hinner := ih hnext (fun a ha => hown a ((hcut a).2 (.inr ha)))
        (fun a ha => hsized a ((hcut a).2 (.inr ha))) (fun a ha => hpos a ((hcut a).2 (.inr ha)))
        fun a ha => by
          have hfit := hfits a ((hcut a).2 (.inr ha))
          rwa [List.map_cons, reach_of_not_mem (hlater a ha)] at hfit
      have hkeep : ∀ a ∈ rest ++ (p.fusion.transform t).outputs ++ p.fusion.outputsOf ts,
          (p.carriedBack (t :: ts) m).get? a = (p.carriedBack ts m).get? a :=
        fun a ha => backwardStep_get?_of_not_mem (hlater a ha)
      have haxes : ∀ a ∈ (p.fusion.transform t).inputs ++ (p.fusion.transform t).outputs,
          a ∈ root ++ p.fusion.outputsOf (t :: ts) := by
        intro a ha
        rcases List.mem_append.1 ha with ha | ha
        · exact (hcut a).2 (.inl ha)
        · exact (hcut a).2 (.inr (List.mem_append_left _ (List.mem_append_right _ ha)))
      intro a ha
      rcases (hcut a).1 ha with hin | hin
      · refine hlinked.below (fun a ha => hown a (haxes a ha)) (fun a ha => hsized a (haxes a ha))
          (fun a ha => hpos a (haxes a ha))
          (fun a ha => hfits a (haxes a (List.mem_append_left _ ha))) (fun b hb => ?_) a hin
        have hmem : b ∈ rest ++ (p.fusion.transform t).outputs ++ p.fusion.outputsOf ts :=
          List.mem_append_left _ (List.mem_append_right _ hb)
        obtain ⟨s, n, hs, hn⟩ := hinner b hmem
        exact ⟨s, n, (hkeep b hmem).trans hs, hn⟩
      · obtain ⟨s, n, hs, hn⟩ := hinner a hin
        rw [List.map_cons, reach_of_not_mem (hlater a hin)]
        exact ⟨s, n, (hkeep a hin).trans hs, hn⟩

/-! ## Bounds that hold -/

/-- Bounds that hold compare the index of every root that is neither a broadcast nor exact. -/
theorem lt_of_bounds {m : AxisIndices} (withReductions : Bool)
    (h : (p.bounds v m withReductions).evaluate env = some (.bool true))
    (ha : a ∈ if withReductions then (p.fusion.view v).domain.root else p.fusion.shape v)
    (hbroadcast : (p.fusion.axis a).isBroadcast = false) (hexact : p.isExactRoot v a = false)
    {s : Scalar} (hs : m.get? a = some s) :
    (s.lt (p.fusion.ownExtent a)).evaluate env = some (.bool true) := by
  unfold bounds at h
  dsimp only at h
  refine (Scalar.evaluate_all_iff (fun t ht => ?_) env).1 h _ ?_
  · obtain ⟨b, -, ht⟩ := List.mem_filterMap.1 ht
    split at ht
    · cases ht
    · obtain ⟨s, -, rfl⟩ := Option.map_eq_some_iff.1 ht
      exact .lt s _
  · refine List.mem_filterMap.2 ⟨a, ha, ?_⟩
    rw [if_neg (by simp [hbroadcast, hexact]), hs]
    rfl

section Carried

variable (hf : Sound p.fusion) (hu : p.Upright v e) (hsized : p.fusion.Sized env (p.fusion.axesOf v) e)
  (hvalued : ∀ a ∈ p.fusion.axesOf v,
    Valued env (p.carried v leaves) (pointOf env (p.carried v leaves)) a)
  (hnonneg : ∀ a ∈ p.fusion.leaf v, 0 ≤ pointOf env (p.carried v leaves) a)

include hf hu hsized hvalued hnonneg

/-- The index of an iterated root that is left out of the guard is inside if the iterated leaves
are. -/
theorem exactRoot_inside (hleaf : ∀ a ∈ p.fusion.leaf v, (p.fusion.axis a).kind = .iteration →
      Inside e (pointOf env (p.carried v leaves)) a)
    (ha : a ∈ (p.fusion.view v).domain.root) (hkind : (p.fusion.axis a).kind = .iteration)
    (h : p.isExactRoot v a = true) : Inside e (pointOf env (p.carried v leaves)) a := by
  have hb := hu.balanced
  have hpos := hu.sizes.pos hf hb hsized
  unfold isExactRoot at h
  dsimp only at h
  split at h
  case h_2 => cases h
  case h_1 result hresult =>
      have hiterations := exactLeaves_iteration (fun t ht => ?_) (fun b hb => ?_) hresult
      · have htraced := (carried_traced hf hb (fun _ => hu.concreteExtent_eq) hu.sizes hsized hvalued
          hnonneg).1
        refine hb.inside_of_exactLeaves hf htraced (fun t ht => hu.sizes.exact hf hb hsized ht)
          (fun t ht a ha => hpos a (hb.mem_axes ht ha))
          (fun t ht a ha => hu.known a (hb.mem_axes ht ha))
          (fun b hb hmem => hleaf b hb (hiterations b hmem)) (by simpa using ha) hresult a
          List.mem_cons_self
      · obtain ⟨s, hs, rfl⟩ := List.mem_map.1 ht
        exact hu.iterations s hs
      · rw [List.mem_singleton.1 hb]
        exact hkind

/-- Where the bounds of a tensor hold, and the iterated leaves are inside their extents, so is every
stored root index. -/
theorem rootIndex_inside (hleaf : ∀ a ∈ p.fusion.leaf v, (p.fusion.axis a).kind = .iteration →
      Inside e (pointOf env (p.carried v leaves)) a) {withReductions : Bool}
    (hbounds : (p.bounds v (p.backward v leaves) withReductions).evaluate env = some (.bool true)) :
    ∀ a ∈ p.fusion.shape v, Inside e (pointOf env (p.backward v leaves)) a := by
  intro a ha
  obtain ⟨hroot, hreduction⟩ := hu.mem_root ha
  have hmem : a ∈ p.fusion.axesOf v := List.mem_append_left _ hroot
  have hget := backward_get? p v leaves a
  by_cases hbroadcast : (p.fusion.axis a).isBroadcast = true
  · rw [if_pos ⟨hroot, hbroadcast⟩] at hget
    rw [Inside, pointOf_eq hget rfl]
    exact ⟨Int.le_refl 0, hu.sizes.pos hf hu.balanced hsized a hmem⟩
  · rw [if_neg fun h => hbroadcast h.2] at hget
    obtain ⟨s, hs, hval⟩ := hvalued a hmem
    have hkind : (p.fusion.axis a).kind = .iteration := by
      cases hk : (p.fusion.axis a).kind with
      | iteration => rfl
      | reduction => simp [Axis.isReduction, hk] at hreduction
      | broadcast => simp [Axis.isBroadcast, hk] at hbroadcast
    rw [Inside, pointOf_eq (hget.trans hs) hval]
    by_cases hexact : p.isExactRoot v a = true
    · exact exactRoot_inside hf hu hsized hvalued hnonneg hleaf hroot hkind hexact
    · have hlt := lt_of_bounds withReductions hbounds (by split <;> assumption)
        (by simpa using hbroadcast) (by simpa using hexact) (hget.trans hs)
      have hnonneg' := (carried_traced hf hu.balanced (fun _ => hu.concreteExtent_eq) hu.sizes hsized
        hvalued hnonneg).2
      exact ⟨hnonneg' a hmem, Scalar.lt_of_evaluate hval (hsized a hmem) hlt⟩

end Carried

end LoopPlan
end FusionCompiler
