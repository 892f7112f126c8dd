import FusionCompiler.Host.Executor
import FusionCompiler.Proofs.Fusion.Ordering
import FusionCompiler.Proofs.Lower.Hoisting
import FusionCompiler.Proofs.Lower.RootBounds
import FusionCompiler.Proofs.Lower.VectorLanes
import FusionCompiler.Proofs.Schedule.Calls

/-!
# Vectorized accesses

A copy whose innermost leaf is vectorized moves several elements at once, at the
address of the first lane.  The schedule is checked when the copy is lowered: the
leaf is the inner half of a split of an axis that was merged from the innermost
root axes.  The layout of each argument is checked when the kernel is launched.

Together the two checks make the lanes one aligned run of elements, as long as the
root axes were merged in the order in which they lie in memory.  The check of the
schedule does not ask for that: it compares sets of axes.

Main results:

- Theorem `LoopPlan.Lanes.run`: lanes are a run of the root axes that the
  vectorized leaf was merged from.
- Theorem `LoopPlan.Checked.packed`: a layout that passes the check of a launch has
  no gaps along these axes.
- Theorem `LoopPlan.checkVectorized_contiguous`: the lanes of an accepted access
  lie side by side, behind an aligned first lane, and pass the guard that the first
  lane passes.
- Theorem `LoopPlan.columnVectors_not_contiguous`: lanes down a column are accepted
  as well.
-/

namespace FusionCompiler

namespace LoopPlan

open Fusion Kernel

variable {p : LoopPlan} {v : ValueId} {leaf : AxisId} {e : AxisId → Int} {env env' : Scalar.Env}
  {leaves : AxisIndices} {access : VectorAccess} {accesses : List VectorAccess} {l : Int}

/-! ## What the check finds -/

/-- Whether an axis is no broadcast. -/
def isConcrete (f : Fusion) (a : AxisId) : Bool :=
  !(f.axis a).isBroadcast

/-- The axes of a list that are no broadcasts. -/
def concreteAxes (f : Fusion) (axes : List AxisId) : List AxisId :=
  axes.filter (isConcrete f)

/-- The leaf of a tensor that runs over vector lanes. -/
def vectorLeaf? (p : LoopPlan) (v : ValueId) : Option AxisId :=
  (p.fusion.leaf v).find? fun a => (p.groups.parallel a).isVectorize

theorem vectorWidth_eq {f : Fusion} {n : Nat} (h : vectorWidth f v leaf = .ok n) :
    f.constInt? (f.extent leaf) = some (n : Int) ∧ 0 < n := by
  unfold vectorWidth at h
  split at h
  case h_1 m hm =>
      split at h
      · cases h
        exact ⟨hm, by omega⟩
      · cases h
  case h_2 => cases h

/-- A vectorized leaf is the inner half of an inner split of an axis that was merged from root
axes. -/
theorem vectorizedRoots_eq {f : Fusion} {count : Nat} (h : vectorizedRoots f v leaf = .ok count) :
    0 < count ∧ count ≤ (concreteAxes f (f.shape v)).length ∧
      ∃ input o k roots, origin? f leaf = some (.split input o leaf k true) ∧
        mergedRoots? f (f.axes.size + 1) [input] = some roots ∧
        count = ((concreteAxes f roots).foldl Fusion.addNew []).length := by
  unfold vectorizedRoots at h
  dsimp only at h
  split at h
  case h_2 => cases h
  case h_1 input o inner k horigin =>
      split at h
      case isFalse => cases h
      case isTrue hinner =>
          subst hinner
          obtain ⟨_, hinput, h⟩ := Results.bind_eq_ok.1 h
          cases hinput
          split at h
          case h_1 => cases h
          case h_2 roots hroots =>
              split at h
              case isFalse => cases h
              case isTrue hcond =>
                  cases h
                  simp only [Bool.and_eq_true, decide_eq_true_eq] at hcond
                  exact ⟨hcond.1.1, hcond.1.2, input, o, k, roots, horigin, hroots, rfl⟩

/-- What the check of a vectorized tensor finds of an access. -/
structure Checked (p : LoopPlan) (v : ValueId) (leaf : AxisId) (access : VectorAccess) : Prop where
  vector : p.vectorLeaf? v = some leaf
  copied : ∃ x, p.fusion.definingExpr? v = some x ∧ x.kind = .unary .set ∧
    (access.tensor = x.input 0 ∨ access.tensor = v)
  memory : p.fusion.memoryOf access.tensor = .global
  width : vectorWidth p.fusion v leaf = .ok access.width
  merged : vectorizedRoots p.fusion v leaf = .ok access.mergedDims

theorem eq_set_of_beq {k : ExprKind} (h : (k == .unary .set) = true) : k = .unary .set := by
  cases k with
  | unary op =>
      have hop : (op == .set) = true := h
      rw [eq_of_beq hop]
  | _ => cases h

/-- An accepted vectorized access has been found in order. -/
theorem checkVectorized_checked (h : p.checkVectorized v = .ok accesses)
    (hmem : access ∈ accesses) : ∃ leaf, p.Checked v leaf access := by
  unfold checkVectorized at h
  dsimp only at h
  split at h
  case h_1 =>
      cases h
      cases hmem
  case h_2 leaf hleaf =>
      split at h
      case isTrue => cases h
      case isFalse =>
          obtain ⟨width, hwidth, h⟩ := Results.bind_eq_ok.1 h
          split at h
          case h_1 => cases h
          case h_2 x hx =>
              split at h
              case isTrue => cases h
              case isFalse hkind =>
                  obtain ⟨count, hcount, h⟩ := Results.bind_eq_ok.1 h
                  cases h
                  obtain ⟨t, ht, rfl⟩ := List.mem_map.1 hmem
                  obtain ⟨htensor, hglobal⟩ := List.mem_filter.1 ht
                  rw [Bool.and_eq_true, beq_iff_eq] at hglobal
                  refine ⟨leaf, hleaf, ⟨x, hx, eq_set_of_beq ?_, ?_⟩, hglobal.2, hwidth, hcount⟩
                  · simpa [bne] using hkind
                  · simpa using htensor

/-! ## Lanes -/

/-- The root axes that a vectorized leaf was merged from follow each other in the tensor. -/
def MergesInOrder (f : Fusion) (v : ValueId) (leaf : AxisId) : Prop :=
  match origin? f leaf with
  | some (.split input _ _ _ _) => ∀ roots ∈ mergedRoots? f (f.axes.size + 1) [input],
    (concreteAxes f roots).reverse <:+ concreteAxes f (f.shape v)
  | _ => True

instance (f : Fusion) (v : ValueId) (leaf : AxisId) : Decidable (MergesInOrder f v leaf) := by
  unfold MergesInOrder
  split <;> infer_instance

/-- A tensor without reductions whose axes know where they come from, and whose vectorized leaf was
merged from root axes in order. -/
structure Vectorizable (p : LoopPlan) (v : ValueId) (leaf : AxisId) (e : AxisId → Int) : Prop where
  upright : p.Upright v e
  stored : ∀ a ∈ (p.fusion.view v).domain.root, (p.fusion.axis a).isReduction = false
  single : ∀ a ∈ (p.fusion.view v).domain.root, (p.fusion.axis a).isBroadcast = true → e a = 1
  origin : ∀ t ∈ p.fusion.history v, ∀ a ∈ (p.fusion.transform t).outputs,
    (p.fusion.axis a).origin = some t
  fresh : ∀ a ∈ (p.fusion.view v).domain.root, (p.fusion.axis a).origin = none
  ordered : MergesInOrder p.fusion v leaf

instance (p : LoopPlan) (v : ValueId) (leaf : AxisId) (e : AxisId → Int) :
    Decidable (p.Vectorizable v leaf e) :=
  decidable_of_iff (p.Upright v e ∧
      (∀ a ∈ (p.fusion.view v).domain.root, (p.fusion.axis a).isReduction = false) ∧
      (∀ a ∈ (p.fusion.view v).domain.root, (p.fusion.axis a).isBroadcast = true → e a = 1) ∧
      (∀ t ∈ p.fusion.history v, ∀ a ∈ (p.fusion.transform t).outputs,
        (p.fusion.axis a).origin = some t) ∧
      (∀ a ∈ (p.fusion.view v).domain.root, (p.fusion.axis a).origin = none) ∧
      MergesInOrder p.fusion v leaf)
    ⟨fun h => ⟨h.1, h.2.1, h.2.2.1, h.2.2.2.1, h.2.2.2.2.1, h.2.2.2.2.2⟩,
      fun h => ⟨h.upright, h.stored, h.single, h.origin, h.fresh, h.ordered⟩⟩

/-- The same iteration of all loops but that of the vectorized leaf, at its first lane and at some
lane. -/
structure Lanes (p : LoopPlan) (v : ValueId) (leaf : AxisId) (e : AxisId → Int)
    (leaves : AxisIndices) (env env' : Scalar.Env) (l : Int) : Prop where
  sized : p.fusion.Sized env (p.fusion.axesOf v) e
  sized' : p.fusion.Sized env' (p.fusion.axesOf v) e
  valued : ∀ a ∈ p.fusion.axesOf v,
    Valued env (p.carried v leaves) (pointOf env (p.carried v leaves)) a
  valued' : ∀ a ∈ p.fusion.axesOf v,
    Valued env' (p.carried v leaves) (pointOf env' (p.carried v leaves)) a
  nonneg : ∀ a ∈ p.fusion.leaf v, 0 ≤ pointOf env (p.carried v leaves) a
  first : pointOf env (p.carried v leaves) leaf = 0
  lane : pointOf env' (p.carried v leaves) leaf = l
  others : ∀ a ∈ p.fusion.leaf v, a ≠ leaf →
    pointOf env' (p.carried v leaves) a = pointOf env (p.carried v leaves) a

instance (p : LoopPlan) (v : ValueId) (leaf : AxisId) (e : AxisId → Int) (leaves : AxisIndices)
    (env env' : Scalar.Env) (l : Int) : Decidable (p.Lanes v leaf e leaves env env' l) :=
  decidable_of_iff (p.fusion.Sized env (p.fusion.axesOf v) e ∧
      p.fusion.Sized env' (p.fusion.axesOf v) e ∧
      (∀ a ∈ p.fusion.axesOf v,
        Valued env (p.carried v leaves) (pointOf env (p.carried v leaves)) a) ∧
      (∀ a ∈ p.fusion.axesOf v,
        Valued env' (p.carried v leaves) (pointOf env' (p.carried v leaves)) a) ∧
      (∀ a ∈ p.fusion.leaf v, 0 ≤ pointOf env (p.carried v leaves) a) ∧
      pointOf env (p.carried v leaves) leaf = 0 ∧
      pointOf env' (p.carried v leaves) leaf = l ∧
      ∀ a ∈ p.fusion.leaf v, a ≠ leaf →
        pointOf env' (p.carried v leaves) a = pointOf env (p.carried v leaves) a)
    ⟨fun h => ⟨h.1, h.2.1, h.2.2.1, h.2.2.2.1, h.2.2.2.2.1, h.2.2.2.2.2.1, h.2.2.2.2.2.2.1,
      h.2.2.2.2.2.2.2⟩, fun h => ⟨h.sized, h.sized', h.valued, h.valued', h.nonneg, h.first, h.lane,
      h.others⟩⟩

namespace Vectorizable

variable {a : AxisId}

/-- An axis that comes from a transform is one of its results. -/
theorem mem_of_origin (h : p.Vectorizable v leaf e) (ha : a ∈ p.fusion.axesOf v) {x : Transform}
    (hx : origin? p.fusion a = some x) :
    ∃ t ∈ p.fusion.history v, p.fusion.transform t = x ∧ a ∈ x.outputs := by
  obtain ⟨t, ht, rfl⟩ := Option.map_eq_some_iff.1 hx
  rcases List.mem_append.1 ha with hroot | hout
  · rw [h.fresh a hroot] at ht
    cases ht
  · obtain ⟨s, hs, hmem⟩ := mem_outputsOf.1 hout
    rw [h.origin s hs a hmem] at ht
    cases ht
    exact ⟨t, hs, rfl, hmem⟩

/-- An axis without origin is a root axis. -/
theorem mem_root_of_origin (h : p.Vectorizable v leaf e) (ha : a ∈ p.fusion.axesOf v)
    (hx : origin? p.fusion a = none) : a ∈ (p.fusion.view v).domain.root := by
  rcases List.mem_append.1 ha with hroot | hout
  · exact hroot
  · obtain ⟨s, hs, hmem⟩ := mem_outputsOf.1 hout
    simp [origin?, h.origin s hs a hmem] at hx

theorem shape_eq (h : p.Vectorizable v leaf e) :
    p.fusion.shape v = (p.fusion.view v).domain.root := by
  unfold shape TensorDomain.logical
  rw [h.upright.unfactored, Option.getD_none]
  exact List.filter_eq_self.2 fun a ha => by simp [h.stored a ha]

theorem origin?_eq (h : p.Vectorizable v leaf e) {t : TransformId} (ht : t ∈ p.fusion.history v)
    (ha : a ∈ (p.fusion.transform t).outputs) :
    origin? p.fusion a = some (p.fusion.transform t) := by
  simp [origin?, h.origin t ht a ha]

end Vectorizable

/-! ## Runs -/

section Runs

variable {input o : AxisId} {k : ValueId} {roots : List AxisId} {fuel : Nat}
  (hf : Sound p.fusion) (hv : p.Vectorizable v leaf e)
  (hlanes : p.Lanes v leaf e leaves env env' l) (hlow : 0 ≤ l)

include hf hv hlanes hlow

/-- The indices at both lanes belong together along the history. -/
theorem Lanes.traced :
    (∀ t ∈ p.fusion.history v,
      Traced e (pointOf env (p.carried v leaves)) (p.fusion.transform t) ∧
        Traced e (pointOf env' (p.carried v leaves)) (p.fusion.transform t)) ∧
    ∀ a ∈ p.fusion.axesOf v, 0 ≤ pointOf env (p.carried v leaves) a ∧
      0 ≤ pointOf env' (p.carried v leaves) a := by
  have hu := hv.upright
  obtain ⟨htraced, hnonneg⟩ := carried_traced hf hu.balanced (fun _ => hu.concreteExtent_eq)
    hu.sizes hlanes.sized hlanes.valued hlanes.nonneg
  obtain ⟨htraced', hnonneg'⟩ := carried_traced hf hu.balanced (fun _ => hu.concreteExtent_eq)
    hu.sizes hlanes.sized' hlanes.valued' fun a ha => by
      by_cases hleaf : a = leaf
      · rw [hleaf, hlanes.lane]
        exact hlow
      · rw [hlanes.others a ha hleaf]
        exact hlanes.nonneg a ha
  exact ⟨fun t ht => ⟨htraced t ht, htraced' t ht⟩, fun a ha => ⟨hnonneg a ha, hnonneg' a ha⟩⟩

/-- From lane to lane, only the leaf itself changes its index and what its split was merged from. -/
theorem Lanes.unchanged (hsplit : origin? p.fusion leaf = some (.split input o leaf k true))
    (hroots : mergedRoots? p.fusion fuel [input] = some roots) :
    ∀ a ∈ p.fusion.axesOf v,
      pointOf env' (p.carried v leaves) a = pointOf env (p.carried v leaves) a ∨ a = leaf ∨
        a ∈ mergedAxes p.fusion fuel [input] := by
  obtain ⟨htraced, -⟩ := hlanes.traced hf hv hlow
  obtain ⟨hstart, hclosed⟩ := mergedAxes_closed hroots
  refine hv.upright.balanced.backward_induction hf (fun a ha => ?_) fun t ht hout a ha => ?_
  · by_cases hleaf : a = leaf
    · exact .inr (.inl hleaf)
    · exact .inl (hlanes.others a ha hleaf)
  · by_cases hsame : ∀ b ∈ (p.fusion.transform t).outputs,
        pointOf env' (p.carried v leaves) b = pointOf env (p.carried v leaves) b
    · exact .inl ((htraced t ht).2.inputs_eq (htraced t ht).1 hsame a ha)
    · -- a result that changes tells which transform it is
      simp only [not_forall] at hsame
      obtain ⟨b, hb, hne⟩ := hsame
      have horigin := hv.origin?_eq ht hb
      rcases hout b hb with heq | rfl | hmerged
      · exact absurd heq hne
      · rw [hsplit] at horigin
        rw [← Option.some.inj horigin, Transform.inputs] at ha
        rw [List.mem_singleton.1 ha]
        exact .inr (.inr (hstart input List.mem_cons_self))
      · rcases hclosed b hmerged with ⟨hnone, -⟩ | ⟨o', i', out, hmerge, ho, hi⟩
        · rw [hnone] at horigin
          cases horigin
        · rw [hmerge] at horigin
          rw [← Option.some.inj horigin, Transform.inputs] at ha
          rcases List.mem_pair.1 ha with rfl | rfl
          · exact .inr (.inr ho)
          · exact .inr (.inr hi)

/-- Lanes are a run of the root axes that the vectorized leaf was merged from. -/
theorem Lanes.run (hc : p.Checked v leaf access) (hhigh : l < access.width)
    (hsplit : origin? p.fusion leaf = some (.split input o leaf k true))
    (hroots : mergedRoots? p.fusion fuel [input] = some roots) :
    LaneRun e (pointOf env (p.carried v leaves)) (pointOf env' (p.carried v leaves))
        (p.fusion.view v).domain.root roots access.width l ∧
      ∀ a ∈ roots, a ∈ (p.fusion.view v).domain.root := by
  have hu := hv.upright
  have hb := hu.balanced
  set x := pointOf env (p.carried v leaves) with hx
  set y := pointOf env' (p.carried v leaves) with hy
  obtain ⟨htraced, hnonneg⟩ := hlanes.traced hf hv hlow
  have hunchanged := hlanes.unchanged hf hv hlow hsplit hroots
  obtain ⟨-, hclosed⟩ := mergedAxes_closed hroots
  have hleaf : leaf ∈ p.fusion.axesOf v := hb.leaf_mem_axes (List.mem_of_find?_eq_some hc.vector)
  obtain ⟨t, ht, htransform, -⟩ := hv.mem_of_origin hleaf hsplit
  have haxes : ∀ a ∈ (p.fusion.transform t).inputs ++ (p.fusion.transform t).outputs,
      a ∈ p.fusion.axesOf v := fun a => hb.mem_axes ht
  rw [htransform] at haxes
  have hinput : input ∈ p.fusion.axesOf v := haxes input (by simp [Transform.inputs])
  have hwidth : e leaf = access.width :=
    hu.known leaf hleaf _ (vectorWidth_eq hc.width).1
  -- the number of the split axis is a multiple of the width at the first lane
  obtain ⟨htx, hty⟩ := htraced t ht
  rw [htransform] at htx hty
  have houter : y o = x o := by
    have hnodup : (p.fusion.transform t).outputs.Nodup :=
      (List.nodup_flatMap.1 (List.nodup_append.1 hb.nodup).2.1).1 t ht
    have horigin : origin? p.fusion o = some (.split input o leaf k true) :=
      htransform ▸ hv.origin?_eq ht (by simp [htransform, Transform.outputs])
    rw [htransform] at hnodup
    rcases hunchanged o (haxes o (by simp [Transform.outputs])) with heq | rfl | hmerged
    · exact heq
    · simp [Transform.outputs] at hnodup
    · rcases hclosed o hmerged with ⟨hnone, -⟩ | ⟨o', i', out, hmerge, -, -⟩
      · rw [hnone] at horigin
        cases horigin
      · rw [hmerge] at horigin
        cases horigin
  have hfirst : x leaf = 0 := hlanes.first
  have hlane : y leaf = l := hlanes.lane
  have hxinput : x input = x o * access.width := by
    have hjoin : x input = x o * e leaf + x leaf := htx
    rw [hjoin, hfirst, hwidth, Int.add_zero]
  have hyinput : y input = x input + l := by
    have hjoin : y input = y o * e leaf + y leaf := hty
    rw [hjoin, hlane, hwidth, houter, hxinput]
  have hmerge : ∀ z, (∀ t ∈ p.fusion.history v, Traced e z (p.fusion.transform t)) →
      ∀ a o i out, a ∈ p.fusion.axesOf v → origin? p.fusion a = some (.merge o i out) →
        o ∈ p.fusion.axesOf v ∧ i ∈ p.fusion.axesOf v ∧ z o = z a / e i ∧ z i = z a % e i ∧
          e a = e o * e i ∧ 0 < e i := by
    intro z hz a o i out ha horigin
    obtain ⟨s, hs, hmerge, hmem⟩ := hv.mem_of_origin ha horigin
    obtain rfl := List.mem_singleton.1 hmem
    have hall : ∀ b ∈ (p.fusion.transform s).inputs ++ (p.fusion.transform s).outputs,
        b ∈ p.fusion.axesOf v := fun b => hb.mem_axes hs
    have hexact := hu.sizes.exact hf hb hlanes.sized hs
    have htrace := hz s hs
    rw [hmerge] at hall hexact htrace
    have hi := hall i (by simp [Transform.inputs])
    exact ⟨hall o (by simp [Transform.inputs]), hi, htrace.1, htrace.2, hexact,
      hu.sizes.pos hf hb hlanes.sized i hi⟩
  obtain ⟨hradix, hdigits, -, hrootsMem⟩ := mergedRoots?_radix (x := x)
    (hmerge x fun t ht => (htraced t ht).1) hroots (by simpa using hinput)
    ⟨(hnonneg input hinput).1, by simp, trivial⟩
  obtain ⟨hradix', hdigits', -, -⟩ := mergedRoots?_radix (x := y)
    (hmerge y fun t ht => (htraced t ht).2) hroots (by simpa using hinput)
    ⟨(hnonneg input hinput).2, by simp, trivial⟩
  have hnumber : ∀ z, radix e z [input] = z input := fun z => by simp [radix]
  rw [hnumber] at hradix hradix'
  refine ⟨⟨hlow, hhigh, hdigits, hdigits', ?_, ?_, fun a ha hnot => ?_⟩, fun a ha => ?_⟩
  · rw [hradix, hradix', hyinput]
  · rw [hradix, hxinput]
    exact Dvd.intro_left _ rfl
  · rcases hunchanged a (List.mem_append_left _ ha) with heq | rfl | hmerged
    · exact heq
    · rw [origin?, hv.fresh a ha] at hsplit
      cases hsplit
    · rcases hclosed a hmerged with ⟨-, hroot⟩ | ⟨o', i', out, horigin, -, -⟩
      · exact absurd hroot hnot
      · rw [origin?, hv.fresh a ha] at horigin
        cases horigin
  · obtain ⟨haxes, horigin⟩ := hrootsMem a ha
    exact hv.mem_root_of_origin haxes horigin

end Runs

/-! ## Layouts -/

/-- The layout of an argument: the sizes and strides of its dimensions, which correspond to the root
axes of the tensor that is written. -/
structure Argument (p : LoopPlan) (v t : ValueId) (e : AxisId → Int) (sizes : List Nat)
    (strides : List Int) (env : Scalar.Env) : Prop where
  rank : (p.fusion.shape t).length = (p.fusion.view v).domain.root.length
  nodup : (p.fusion.shape t).Nodup
  kinds : ∀ q ∈ (p.fusion.shape t).zip (p.fusion.view v).domain.root,
    (p.fusion.axis q.1).isBroadcast = (p.fusion.axis q.2).isBroadcast
  extents : (p.fusion.view v).domain.root.map e = sizes.map fun n : Nat => (n : Int)
  length : strides.length = sizes.length
  strided : ∀ i < strides.length, env.stride t i = strides[i]?

instance (p : LoopPlan) (v t : ValueId) (e : AxisId → Int) (sizes : List Nat) (strides : List Int)
    (env : Scalar.Env) : Decidable (p.Argument v t e sizes strides env) :=
  decidable_of_iff ((p.fusion.shape t).length = (p.fusion.view v).domain.root.length ∧
      (p.fusion.shape t).Nodup ∧
      (∀ q ∈ (p.fusion.shape t).zip (p.fusion.view v).domain.root,
        (p.fusion.axis q.1).isBroadcast = (p.fusion.axis q.2).isBroadcast) ∧
      (p.fusion.view v).domain.root.map e = sizes.map (fun n : Nat => (n : Int)) ∧
      strides.length = sizes.length ∧ ∀ i < strides.length, env.stride t i = strides[i]?)
    ⟨fun h => ⟨h.1, h.2.1, h.2.2.1, h.2.2.2.1, h.2.2.2.2.1, h.2.2.2.2.2⟩,
      fun h => ⟨h.rank, h.nodup, h.kinds, h.extents, h.length, h.strided⟩⟩

variable {sizes : List Nat} {strides : List Int} {t : ValueId}

/-- A layout that passes the check of a launch is packed for the lanes. -/
theorem Checked.packed {input o : AxisId} {k : ValueId} {roots : List AxisId}
    (hc : p.Checked v leaf access) (hv : p.Vectorizable v leaf e)
    (harg : p.Argument v t e sizes strides env) (haligned : access.misaligned = false)
    (hwide : 1 < access.width) (hfits : access.check sizes strides = .ok ())
    (hsplit : origin? p.fusion leaf = some (.split input o leaf k true))
    (hroots : mergedRoots? p.fusion (p.fusion.axes.size + 1) [input] = some roots)
    (hlisted : ∀ a ∈ roots, a ∈ (p.fusion.view v).domain.root)
    (hcount : access.mergedDims = ((concreteAxes p.fusion roots).foldl Fusion.addNew []).length) :
    Packed e (isConcrete p.fusion) (p.fusion.view v).domain.root roots strides access.width
      access.mergedDims := by
  have hu := hv.upright
  obtain ⟨hmerged, hle, -⟩ := vectorizedRoots_eq hc.merged
  have hnodup : (p.fusion.view v).domain.root.Nodup := (List.nodup_append.1 hu.balanced.nodup).1
  rw [hv.shape_eq] at hle
  have hcountLe : access.mergedDims ≤ (p.fusion.view v).domain.root.length :=
    Nat.le_trans hle (List.length_filter_le _ _)
  have hlength : sizes.length = (p.fusion.view v).domain.root.length := by
    have hmap := congrArg List.length harg.extents
    simpa using hmap.symm
  have hnone : access.fault? sizes strides = none := by
    unfold VectorAccess.check at hfits
    split at hfits
    · cases hfits
    case h_2 hnone => exact hnone
  obtain ⟨hgapless, hvolume, hstrides⟩ := VectorAccess.fits_of_fault? harg.length hwide haligned
    hmerged (hlength ▸ hcountLe) hnone
  rw [← harg.extents, hlength] at hgapless hvolume hstrides
  -- the merged axes are as many as the check has counted
  have hsuffix := hv.ordered
  rw [MergesInOrder, hsplit] at hsuffix
  have hsuffix := hsuffix roots hroots
  rw [hv.shape_eq] at hsuffix
  have hdistinct : (concreteAxes p.fusion roots).Nodup := by
    rw [← List.nodup_reverse]
    exact (hnodup.filter _).sublist hsuffix.sublist
  have hcountEq : access.mergedDims = (concreteAxes p.fusion roots).length := by
    rw [hcount]
    refine List.Perm.length_eq ?_
    refine (List.perm_ext_iff_of_nodup (nodup_foldl_addNew List.nodup_nil) hdistinct).2 fun a => ?_
    simp [mem_foldl_addNew]
  refine ⟨hnodup, fun a ha => (hu.sizes.root a ha).1, hlisted, fun a ha hq => ?_, hcountLe, ?_,
    by rw [harg.length, hlength], hgapless, hvolume, hstrides⟩
  · exact hv.single a ha (by simpa [isConcrete] using hq)
  · have hdrop := List.suffix_iff_eq_drop.1 hsuffix
    rw [List.length_reverse, ← hcountEq] at hdrop
    rw [← List.reverse_reverse (roots.filter _)]
    exact congrArg List.reverse hdrop

/-! ## Addresses -/

theorem get?_of_require {m : AxisIndices} {a : AxisId} {s : Scalar} (h : require t m a = .ok s) :
    m.get? a = some s := by
  unfold require at h
  split at h
  case h_1 hget =>
      cases h
      exact hget
  case h_2 => cases h

/-- A dimension is added to an address by its index and its stride, unless it is a broadcast. -/
def addressStep (p : LoopPlan) (t : ValueId) (m : AxisIndices) (address : Scalar) :
    AxisId × Nat → Except LowerError Scalar :=
  fun (a, dim) =>
    if (p.fusion.axis a).isBroadcast then .ok address
    else do
      let i ← require t m a
      return address.add (i.mul (.stride t dim))

theorem globalIndex_eq {m : AxisIndices} :
    p.globalIndex t m = (p.fusion.shape t).zipIdx.foldlM (p.addressStep t m) .zero :=
  rfl

/-- An address that has a value is the offset that the indices of its dimensions lead to. -/
theorem offset_of_foldlM {m : AxisIndices} {x : AxisId → Int} {as cs : List AxisId} {dim : Nat}
    {address s : Scalar} {n : Int} {c : Constant} (hlength : as.length = cs.length)
    (hstrides : strides.length = cs.length)
    (hkinds : ∀ q ∈ as.zip cs, (p.fusion.axis q.1).isBroadcast = (p.fusion.axis q.2).isBroadcast)
    (hindex : ∀ q ∈ as.zip cs, (p.fusion.axis q.1).isBroadcast = false → ∀ i, m.get? q.1 = some i →
      i.evaluate env = some (.int (x q.2)))
    (hstrided : ∀ i < strides.length, env.stride t (dim + i) = strides[i]?)
    (h : (as.zipIdx dim).foldlM (p.addressStep t m) address = .ok s)
    (haddress : ∀ c, address.evaluate env = some c → c = .int n) (hs : s.evaluate env = some c) :
    c = .int (n + offset (isConcrete p.fusion) x (cs.zip strides)) := by
  induction as generalizing cs strides dim address n with
  | nil =>
      obtain rfl : cs = [] := List.length_eq_zero_iff.1 hlength.symm
      cases h
      simpa [offset] using haddress c hs
  | cons a as ih =>
      obtain ⟨b, cs, rfl⟩ := List.exists_cons_of_length_eq_add_one hlength.symm
      obtain ⟨stride, strides, rfl⟩ := List.exists_cons_of_length_eq_add_one hstrides
      rw [List.zip_cons_cons] at hkinds hindex
      rw [List.zipIdx_cons, List.foldlM_cons] at h
      obtain ⟨next, hnext, h⟩ := Results.bind_eq_ok.1 h
      have htail : ∀ i < strides.length, env.stride t (dim + 1 + i) = strides[i]? := by
        intro i hi
        have hstride := hstrided (i + 1) (by simpa using hi)
        rwa [List.getElem?_cons_succ, Nat.add_comm i, ← Nat.add_assoc] at hstride
      have hrest : ∀ n : Int, (∀ c, next.evaluate env = some c → c = .int n) →
          c = .int (n + offset (isConcrete p.fusion) x (cs.zip strides)) := fun n =>
        ih (by simpa using hlength) (by simpa using hstrides)
          (fun q hq => hkinds q (List.mem_cons_of_mem _ hq))
          (fun q hq => hindex q (List.mem_cons_of_mem _ hq)) htail h
      have hkind := hkinds (a, b) List.mem_cons_self
      dsimp only at hkind
      rw [addressStep] at hnext
      rw [List.zip_cons_cons, offset, List.map_cons, List.sum_cons]
      split at hnext
      case isTrue hbroadcast =>
          cases hnext
          rw [hkind] at hbroadcast
          simpa [isConcrete, hbroadcast, offset] using hrest n haddress
      case isFalse hconcrete =>
          obtain ⟨i, hi, hnext⟩ := Results.bind_eq_ok.1 hnext
          cases hnext
          have hvalue := hindex (a, b) List.mem_cons_self (by simpa using hconcrete) i
            (get?_of_require hi)
          have hstride := hstrided 0 (by simp)
          rw [hkind] at hconcrete
          rw [if_pos (by simpa [isConcrete] using hconcrete), ← Int.add_assoc]
          refine hrest _ fun c hc => ?_
          obtain ⟨⟨c₁, hc₁⟩, c₂, hc₂⟩ := Scalar.evaluate_operands_of_add hc
          have hmul := Scalar.evaluate_mkBinary_eq (exactInt?_mul _ _) hvalue
            (n := stride) (by simpa [Scalar.evaluate] using hstride) hc₂
          rw [haddress c₁ hc₁] at hc₁
          rw [hmul] at hc₂
          exact Scalar.evaluate_mkBinary_eq (exactInt?_add _ _) hc₁ hc₂ hc

/-- Root indices of a producer are those of its consumer. -/
def rootStep (p : LoopPlan) (v : ValueId) (m roots : AxisIndices) :
    AxisId × AxisId → Except LowerError AxisIndices :=
  fun (a, c) => do
    let index ← if (p.fusion.axis a).isBroadcast then .ok .zero else require v m c
    return roots.set a index

theorem rootStep_eq {m acc roots : AxisIndices} {q : AxisId × AxisId}
    (h : p.rootStep v m acc q = .ok roots) : ∃ index, roots = acc.set q.1 index ∧
      ((p.fusion.axis q.1).isBroadcast = false → m.get? q.2 = some index) := by
  unfold rootStep at h
  dsimp only at h
  split at h
  case isTrue hbroadcast =>
      obtain ⟨index, -, h⟩ := Results.bind_eq_ok.1 h
      cases h
      exact ⟨index, rfl, fun hconcrete => by simp [hbroadcast] at hconcrete⟩
  case isFalse =>
      obtain ⟨index, hindex, h⟩ := Results.bind_eq_ok.1 h
      cases h
      exact ⟨index, rfl, fun _ => get?_of_require hindex⟩

theorem rootStep_get? {m roots acc : AxisIndices} {pairs : List (AxisId × AxisId)}
    (hnodup : (pairs.map Prod.fst).Nodup) (h : pairs.foldlM (p.rootStep v m) acc = .ok roots) :
    (∀ a ∉ pairs.map Prod.fst, roots.get? a = acc.get? a) ∧
      ∀ q ∈ pairs, (p.fusion.axis q.1).isBroadcast = false → roots.get? q.1 = m.get? q.2 := by
  induction pairs generalizing acc with
  | nil =>
      cases h
      simp
  | cons q pairs ih =>
      rw [List.map_cons, List.nodup_cons] at hnodup
      rw [List.foldlM_cons] at h
      obtain ⟨next, hnext, h⟩ := Results.bind_eq_ok.1 h
      obtain ⟨hkeep, hset⟩ := ih hnodup.2 h
      obtain ⟨index, rfl, hindex⟩ := rootStep_eq hnext
      refine ⟨fun a ha => ?_, fun r hr hconcrete => ?_⟩
      · simp only [List.map_cons, List.mem_cons, not_or] at ha
        rw [hkeep a ha.2, AxisIndices.get?_set, if_neg ha.1]
      · rcases List.mem_cons.1 hr with rfl | hr
        · rw [hkeep _ hnodup.1, AxisIndices.get?_set, if_pos rfl]
          exact (hindex hconcrete).symm
        · exact hset r hr hconcrete

/-- Where the computation of a tensor accesses a tensor: it writes the one and reads the others. -/
def accessIndex (p : LoopPlan) (t v : ValueId) (frames : List LoopFrame) :
    Except LowerError Scalar :=
  if t = v then p.consumerIndex v frames else p.producerIndex t v frames

/-- The root axes of a copy correspond to the dimensions of what it copies. -/
theorem Checked.rootPairs {pairs : List (AxisId × AxisId)} (hc : p.Checked v leaf access)
    (h : p.fusion.rootPairs? access.tensor v = .ok pairs) :
    pairs = (p.fusion.shape access.tensor).zip (p.fusion.view v).domain.root := by
  obtain ⟨x, hx, hkind, -⟩ := hc.copied
  unfold rootPairs? at h
  split at h
  case isFalse => cases h
  case isTrue hproducer =>
      cases h
      rw [List.contains_iff_mem, producers, hx, mem_foldl_addNew] at hproducer
      have hmem := (List.mem_filter.1 (hproducer.resolve_left (List.not_mem_nil))).1
      unfold Fusion.rootPairs
      rw [hx]
      dsimp only
      rw [if_neg (by simpa using hmem), hkind]

variable {frames : List LoopFrame}

/-- A carried index of a root that is no broadcast is what addresses are made of. -/
theorem evaluate_backward {a : AxisId} {s : Scalar}
    (hconcrete : (p.fusion.axis a).isBroadcast = false)
    (hvalued : Valued env (p.carried v leaves) (pointOf env (p.carried v leaves)) a)
    (hs : (p.backward v leaves).get? a = some s) :
    s.evaluate env = some (.int (pointOf env (p.carried v leaves) a)) := by
  rw [backward_get?, if_neg (by simp [hconcrete])] at hs
  exact hvalued.evaluate hs

/-- The address of an access is the offset that the root indices lead to. -/
theorem Checked.address_eq (hc : p.Checked v leaf access) (hv : p.Vectorizable v leaf e)
    (harg : p.Argument v access.tensor e sizes strides env)
    (hleaves : p.leafIndices v frames = .ok leaves)
    (hvalued : ∀ a ∈ p.fusion.axesOf v,
      Valued env (p.carried v leaves) (pointOf env (p.carried v leaves)) a)
    {s : Scalar} {c : Constant} (h : p.accessIndex access.tensor v frames = .ok s)
    (hs : s.evaluate env = some c) :
    c = .int (offset (isConcrete p.fusion) (pointOf env (p.carried v leaves))
      ((p.fusion.view v).domain.root.zip strides)) := by
  have hstrides : strides.length = (p.fusion.view v).domain.root.length := by
    have hmap := congrArg List.length harg.extents
    rw [harg.length]
    simpa using hmap.symm
  have hback : p.consumerIndices v frames = .ok (p.backward v leaves) := by
    rw [consumerIndices, hleaves]
    rfl
  have hoffset : ∀ m, p.globalIndex access.tensor m = .ok s →
      (∀ q ∈ (p.fusion.shape access.tensor).zip (p.fusion.view v).domain.root,
        (p.fusion.axis q.1).isBroadcast = false → m.get? q.1 = (p.backward v leaves).get? q.2) →
      c = .int (offset (isConcrete p.fusion) (pointOf env (p.carried v leaves))
        ((p.fusion.view v).domain.root.zip strides)) := by
    intro m hm hget
    rw [globalIndex_eq] at hm
    rw [← Int.zero_add (offset _ _ _)]
    refine offset_of_foldlM harg.rank hstrides harg.kinds (fun q hq hconcrete i hi => ?_)
      (fun i hi => by rw [Nat.zero_add]; exact harg.strided i hi) hm (fun c hc => ?_) hs
    · rw [hget q hq hconcrete] at hi
      refine evaluate_backward (harg.kinds q hq ▸ hconcrete) (hvalued q.2 ?_) hi
      exact List.mem_append_left _ (List.of_mem_zip hq).2
    · cases hc
      rfl
  unfold accessIndex at h
  split at h
  case isTrue heq =>
      have hmemory := hc.memory
      rw [heq] at hmemory
      rw [consumerIndex, hmemory] at h
      obtain ⟨m, hm, h⟩ := Results.bind_eq_ok.1 h
      rw [hback] at hm
      cases hm
      refine hoffset (p.backward v leaves) (by rw [heq]; exact h) fun q hq _ => ?_
      rw [heq, hv.shape_eq] at hq
      obtain ⟨i, hi, rfl⟩ := List.mem_iff_getElem.1 hq
      simp
  case isFalse =>
      rw [producerIndex] at h
      obtain ⟨m, hm, h⟩ := Results.bind_eq_ok.1 h
      rw [hback] at hm
      cases hm
      obtain ⟨roots, hroots, h⟩ := Results.bind_eq_ok.1 h
      rw [hc.memory] at h
      obtain ⟨pairs, hpairs, hroots⟩ := Results.bind_eq_ok.1 hroots
      have hzip : pairs = (p.fusion.shape access.tensor).zip (p.fusion.view v).domain.root := by
        cases hfound : p.fusion.rootPairs? access.tensor v with
        | error err =>
            rw [hfound] at hpairs
            cases hpairs
        | ok found =>
            rw [hfound] at hpairs
            cases hpairs
            exact hc.rootPairs hfound
      subst hzip
      refine hoffset roots h fun q hq hconcrete => ?_
      refine (rootStep_get? ?_ hroots).2 q hq hconcrete
      rw [List.map_fst_zip (by rw [harg.rank])]
      exact harg.nodup

/-! ## One aligned run of elements -/

/-- The lanes of an access lie side by side, behind an aligned first lane, and pass the guard that
the first lane passes. -/
structure Contiguous (p : LoopPlan) (t v : ValueId) (frames : List LoopFrame) (e : AxisId → Int)
    (leaves : AxisIndices) (env env' : Scalar.Env) (w l : Int) : Prop where
  beside : ∀ s c c', p.accessIndex t v frames = .ok s → s.evaluate env = some c →
    s.evaluate env' = some c' → ∃ n, c = .int n ∧ c' = .int (n + l)
  aligned : ∀ withReductions,
    (p.bounds v (p.backward v leaves) withReductions).evaluate env = some (.bool true) →
    (∀ a ∈ p.fusion.leaf v, (p.fusion.axis a).kind = .iteration →
      Inside e (pointOf env (p.carried v leaves)) a) →
    ∀ s n, p.accessIndex t v frames = .ok s → s.evaluate env = some (.int n) → w ∣ n
  guarded : ∀ withReductions,
    (p.bounds v (p.backward v leaves) withReductions).evaluate env = some (.bool true) →
    (p.bounds v (p.backward v leaves) withReductions).evaluate env' = some (.bool true)

section Contiguity

variable (hf : Sound p.fusion) (hc : p.Checked v leaf access) (hv : p.Vectorizable v leaf e)
  (haligned : access.misaligned = false) (hfits : access.check sizes strides = .ok ())
  (harg : p.Argument v access.tensor e sizes strides env)
  (hlanes : p.Lanes v leaf e leaves env env' l) (hlow : 0 ≤ l) (hhigh : l < access.width)

include hf hc hv haligned hfits harg hlanes hlow hhigh

/-- Lanes move along the innermost dimensions and nowhere else. -/
theorem Checked.lanes_offset :
    offset (isConcrete p.fusion) (pointOf env' (p.carried v leaves))
        ((p.fusion.view v).domain.root.zip strides) =
      offset (isConcrete p.fusion) (pointOf env (p.carried v leaves))
        ((p.fusion.view v).domain.root.zip strides) + l ∧
    ((∀ a ∈ (p.fusion.view v).domain.root, isConcrete p.fusion a = true → e a = 1 →
        pointOf env (p.carried v leaves) a = 0) →
      (access.width : Int) ∣ offset (isConcrete p.fusion) (pointOf env (p.carried v leaves))
        ((p.fusion.view v).domain.root.zip strides)) ∧
    ∀ a ∈ (p.fusion.view v).domain.root, isConcrete p.fusion a = true →
      pointOf env (p.carried v leaves) a < e a → pointOf env' (p.carried v leaves) a < e a := by
  obtain ⟨-, -, input, o, k, roots, hsplit, hroots, hcount⟩ := vectorizedRoots_eq hc.merged
  obtain ⟨hrun, hlisted⟩ := hlanes.run hf hv hlow hc hhigh hsplit hroots
  by_cases hwide : 1 < access.width
  · have hpacked := hc.packed hv harg haligned hwide hfits hsplit hroots hlisted hcount
    exact ⟨hrun.offset_eq hpacked, hrun.dvd_offset hpacked, fun a ha hq => hrun.below hpacked ha hq⟩
  · -- a single lane is the first one
    have hpos := (vectorWidth_eq hc.width).2
    have hzero : l = 0 := by omega
    have hone : (access.width : Int) = 1 := by omega
    have hsame : ∀ a ∈ (p.fusion.view v).domain.root,
        pointOf env' (p.carried v leaves) a = pointOf env (p.carried v leaves) a := by
      obtain ⟨htraced, -⟩ := hlanes.traced hf hv hlow
      intro a ha
      refine hv.upright.balanced.eq_of_leaves hf (fun t ht => (htraced t ht).2)
        (fun t ht => (htraced t ht).1) (fun b hb => ?_) a (List.mem_append_left _ ha)
      by_cases hleaf : b = leaf
      · rw [hleaf, hlanes.first, hlanes.lane, hzero]
      · exact hlanes.others b hb hleaf
    refine ⟨?_, fun _ => hone ▸ one_dvd _, fun a ha _ hlt => hsame a ha ▸ hlt⟩
    rw [hzero, Int.add_zero]
    exact offset_congr fun d hd _ => hsame d.1 (List.of_mem_zip hd).1

/-- Guards that hold at the first lane hold at every lane. -/
theorem Checked.guarded (withReductions : Bool)
    (h : (p.bounds v (p.backward v leaves) withReductions).evaluate env = some (.bool true)) :
    (p.bounds v (p.backward v leaves) withReductions).evaluate env' = some (.bool true) := by
  obtain ⟨-, -, hbelow⟩ := hc.lanes_offset hf hv haligned hfits harg hlanes hlow hhigh
  obtain ⟨terms, heq, hterms⟩ := p.bounds_eq_all v (p.backward v leaves) withReductions
  have hconditions : ∀ t ∈ terms, Scalar.IsCondition t := by
    intro t ht
    obtain ⟨a, -, -, -, s, -, rfl⟩ := hterms t ht
    exact .lt s _
  rw [heq, Scalar.evaluate_all_iff hconditions] at h ⊢
  intro t ht
  obtain ⟨a, hboundable, hconcrete, -, s, hs, rfl⟩ := hterms t ht
  have hroot : a ∈ (p.fusion.view v).domain.root := by
    rcases List.mem_append.1 hboundable with hroot | hshape
    · exact hroot
    · exact hv.shape_eq ▸ hshape
  have ha : a ∈ p.fusion.axesOf v := List.mem_append_left _ hroot
  have hlt := Scalar.lt_of_evaluate (evaluate_backward hconcrete (hlanes.valued a ha) hs)
    (hlanes.sized a ha) (h _ ht)
  exact Scalar.evaluate_lt_of_lt (hv.upright.floatFree a ha)
    (evaluate_backward hconcrete (hlanes.valued' a ha) hs) (hlanes.sized' a ha)
    (hbelow a hroot (by simp [isConcrete, hconcrete]) hlt)

end Contiguity

variable {lane : Int}

/-- The lanes of an accepted access that is not misaligned are one aligned run of elements, where
the vectorized leaf was merged from root axes in order. -/
theorem checkVectorized_contiguous (hf : Sound p.fusion)
    (hcheck : p.checkVectorized v = .ok accesses) (hmem : access ∈ accesses)
    (haligned : access.misaligned = false) (hleaf : p.vectorLeaf? v = some leaf)
    (hv : p.Vectorizable v leaf e) (hfits : access.check sizes strides = .ok ())
    (harg : p.Argument v access.tensor e sizes strides env)
    (harg' : p.Argument v access.tensor e sizes strides env')
    (hleaves : p.leafIndices v frames = .ok leaves)
    (hlanes : p.Lanes v leaf e leaves env env' lane) (hlow : 0 ≤ lane)
    (hhigh : lane < access.width) :
    p.Contiguous access.tensor v frames e leaves env env' access.width lane := by
  obtain ⟨leaf', hc⟩ := checkVectorized_checked hcheck hmem
  obtain rfl : leaf' = leaf := Option.some.inj (hc.vector.symm.trans hleaf)
  obtain ⟨hoffset, hdvd, -⟩ := hc.lanes_offset hf hv haligned hfits harg hlanes hlow hhigh
  refine ⟨fun s c c' hs hc₁ hc₂ => ?_, fun withReductions hbounds hinside s n hs hn => ?_,
    hc.guarded hf hv haligned hfits harg hlanes hlow hhigh⟩
  · have hfirst := hc.address_eq hv harg hleaves hlanes.valued hs hc₁
    have hlater := hc.address_eq hv harg' hleaves hlanes.valued' hs hc₂
    rw [hoffset] at hlater
    exact ⟨_, hfirst, hlater⟩
  · have hfirst := hc.address_eq hv harg hleaves hlanes.valued hs hn
    rw [Constant.int.inj hfirst]
    refine hdvd fun a ha hconcrete hone => ?_
    have hin := rootIndex_inside hf hv.upright hlanes.sized hlanes.valued hlanes.nonneg hinside
      hbounds a (hv.shape_eq ▸ ha)
    obtain ⟨s, hs, hval⟩ := hlanes.valued a (List.mem_append_left _ ha)
    have hbroadcast : (p.fusion.axis a).isBroadcast = false := by simpa [isConcrete] using hconcrete
    have hget := backward_get? p v leaves a
    rw [if_neg (by simp [hbroadcast])] at hget
    rw [Inside, pointOf_eq (hget.trans hs) hval] at hin
    omega

/-- A copy of a matrix in rows, which are merged and cut into groups of four vectors of four
lanes. -/
def rowVectors : List Call :=
  [.tensor [3, 8] [true, true] .float, .input ⟨0⟩, .copy (.value ⟨0⟩), .output ⟨7⟩,
    .merge ⟨7⟩ 0 1, .split ⟨7⟩ 0 (.const 4) true, .split ⟨7⟩ 0 (.const 4) true,
    .parallelize ⟨7⟩ 2 .vectorize]

/-- One loop over each leaf of a tensor. -/
def leafLoops (p : LoopPlan) (v : ValueId) : List LoopFrame :=
  (p.fusion.leaf v).zipIdx.map fun (a, i) => ⟨p.groups.name a, .loop ⟨i⟩, p.concreteExtent a, none⟩

/-- A lane of the last vector, where rows have eight elements. -/
def lastVector (lane : Int) : Scalar.Env where
  stride := fun _ dim => [8, 1][dim]?
  loop := fun l => [1, 1, lane][l.index]?

theorem rowVectors_contiguous :
    ∃ f groups accesses leaves, applyAll Schedule.replay rowVectors {} = some f ∧
      LoopGroups.build f = .ok groups ∧ checkVectorized ⟨f, groups⟩ ⟨7⟩ = .ok accesses ∧
      leafIndices ⟨f, groups⟩ ⟨7⟩ (leafLoops ⟨f, groups⟩ ⟨7⟩) = .ok leaves ∧
      ∃ access ∈ accesses, access.width = 4 ∧ access.tensor ≠ ⟨7⟩ ∧
        Contiguous ⟨f, groups⟩ access.tensor ⟨7⟩ (leafLoops ⟨f, groups⟩ ⟨7⟩) (f.extentsAt {}) leaves
          (lastVector 0) (lastVector 3) access.width 3 := by
  have hrun : ((applyAll Schedule.replay rowVectors {}).any fun f =>
      (LoopGroups.build f).toOption.any fun groups =>
        let p : LoopPlan := ⟨f, groups⟩
        (p.checkVectorized ⟨7⟩).toOption.any fun accesses =>
          (p.leafIndices ⟨7⟩ (p.leafLoops ⟨7⟩)).toOption.any fun leaves =>
            (p.vectorLeaf? ⟨7⟩).any fun leaf => decide (
              p.Vectorizable ⟨7⟩ leaf (f.extentsAt {}) ∧
              p.Lanes ⟨7⟩ leaf (f.extentsAt {}) leaves (lastVector 0) (lastVector 3) 3 ∧
              ∃ access ∈ accesses, access.width = 4 ∧ access.tensor ≠ ⟨7⟩ ∧
                access.misaligned = false ∧ (access.check [3, 8] [8, 1]).toOption = some () ∧
                p.Argument ⟨7⟩ access.tensor (f.extentsAt {}) [3, 8] [8, 1] (lastVector 0) ∧
                p.Argument ⟨7⟩ access.tensor (f.extentsAt {}) [3, 8] [8, 1] (lastVector 3))) =
                  true := by
    decide +kernel
  obtain ⟨f, hf, hgroups⟩ := (Option.any_eq_true _ _).1 hrun
  obtain ⟨groups, hgroups, haccesses⟩ := (Option.any_eq_true _ _).1 hgroups
  obtain ⟨accesses, haccesses, hleaves⟩ := (Option.any_eq_true _ _).1 haccesses
  obtain ⟨leaves, hleaves, hleaf⟩ := (Option.any_eq_true _ _).1 hleaves
  obtain ⟨leaf, hleaf, hchecks⟩ := (Option.any_eq_true _ _).1 hleaf
  obtain ⟨hv, hlanes, access, hmem, hwidth, hread, haligned, hfits, harg, harg'⟩ :=
    of_decide_eq_true hchecks
  have hcheck := Results.ok_of_toOption haccesses
  have hindices := Results.ok_of_toOption hleaves
  refine ⟨f, groups, accesses, leaves, hf, Results.ok_of_toOption hgroups, hcheck, hindices, access,
    hmem, hwidth, hread, ?_⟩
  exact checkVectorized_contiguous (applyAll_sound hf) hcheck hmem haligned hleaf hv
    (Results.ok_of_toOption hfits) harg harg' hindices hlanes (by decide) (by simp [hwidth])

/-- A copy of a matrix whose rows are merged into its columns, two lanes of a column at a time. -/
def columnVectors : List Call :=
  [.tensor [2, 2] [true, true] .float, .input ⟨0⟩, .copy (.value ⟨0⟩), .output ⟨7⟩,
    .merge ⟨7⟩ 1 0, .split ⟨7⟩ 0 (.const 2) true, .parallelize ⟨7⟩ 1 .vectorize]

/-- The vectorized loop inside one other loop, and where the copy in it writes and reads. -/
def innerLanes? : List Stmt → Option (LoopHeader × Element × Element)
  | [.loop _ [.loop h body]] =>
    if h.parallel = .vectorize then (Device.laneCopy? body).map fun (_, out, x) => (h, out, x)
    else none
  | _ => none

/-- A lane of the first column, where rows have two elements. -/
def firstColumn (lanes : LoopId) (lane : Int) : Scalar.Env where
  stride := fun _ dim => [2, 1][dim]?
  loop := fun l => if l = lanes then some lane else some 0

/-- The two lanes of a column are a row apart. -/
theorem columnVectors_not_contiguous :
    ∃ f l h out x, applyAll Schedule.replay columnVectors {} = some f ∧
      Lowered.make f = .ok l ∧ innerLanes? l.kernel.body = some (h, out, x) ∧
      (∃ a ∈ l.kernel.summary.vectorized, a.tensor = out.tensor ∧ a.width = 2 ∧
        a.misaligned = false ∧ a.check [2, 2] [2, 1] = .ok ()) ∧
      out.index.evaluate (firstColumn h.index 0) = some (.int 0) ∧
      out.index.evaluate (firstColumn h.index 1) = some (.int 2) := by
  have hrun : ((applyAll Schedule.replay columnVectors {}).any fun f =>
      (Lowered.make f).toOption.any fun (l : Lowered) =>
        (innerLanes? l.kernel.body).any fun (h, out, _) => decide (
          (∃ a ∈ l.kernel.summary.vectorized, a.tensor = out.tensor ∧ a.width = 2 ∧
            a.misaligned = false ∧ (a.check [2, 2] [2, 1]).toOption = some ()) ∧
          out.index.evaluate (firstColumn h.index 0) = some (.int 0) ∧
          out.index.evaluate (firstColumn h.index 1) = some (.int 2))) = true := by
    decide +kernel
  obtain ⟨f, hf, hl⟩ := (Option.any_eq_true _ _).1 hrun
  obtain ⟨l, hl, hlanes⟩ := (Option.any_eq_true _ _).1 hl
  obtain ⟨⟨h, out, x⟩, hlanes, hchecks⟩ := (Option.any_eq_true _ _).1 hlanes
  obtain ⟨⟨a, ha, htensor, hwidth, haligned, hfits⟩, hvalues⟩ := of_decide_eq_true hchecks
  exact ⟨f, l, h, out, x, hf, Results.ok_of_toOption hl, hlanes,
    ⟨a, ha, htensor, hwidth, haligned, Results.ok_of_toOption hfits⟩, hvalues⟩

end LoopPlan
end FusionCompiler
