import FusionCompiler.Proofs.Lower.Addresses
import FusionCompiler.Proofs.Lower.KeptAxes
import FusionCompiler.Proofs.Lower.OwnLoops
import FusionCompiler.Proofs.Schedule.ConsistentGraphs

/-!
# Reading what has been written

A tensor is written at the indices of its own loops.  What is computed from it
reads it at an address that is found the other way around: from the loops of the
consumer back through its history to its root, across to the root of the producer,
and forward through the history of the producer to the leaves that its storage
spans.

For one element of the root both ways meet.  The element belongs to one point of
the index space of the producer, whatever splits pad on the way, and the address is
the number of this point: the producer writes it there, and the consumer reads it
there, in every iteration that is at the element.

Main results:

- Theorem `LoopPlan.Standing.exists_element`: every element of the root belongs to a
  point that stays inside all extents.
- Theorem `LoopPlan.Element.written`: an iteration at that point is at the element,
  passes the bounds and writes the cell of the point.
- Theorem `LoopPlan.Element.read`: an iteration of the consumer at the element reads
  the cell of the point.
- Theorem `LoopPlan.exists_cell`: a consumer reads the cell that its producer wrote,
  which no other iteration of the producer writes.
-/

namespace FusionCompiler

/-- An element of a list without repetitions is found at its own position. -/
theorem idxOf_of_mem_zipIdx {α : Type} [DecidableEq α] {l : List α} (h : l.Nodup) {q : α × Nat}
    (hq : q ∈ l.zipIdx) : l.idxOf q.1 = q.2 := by
  obtain ⟨hlt, heq⟩ := List.getElem?_eq_some_iff.1 (List.mem_zipIdx_iff_getElem?.1 hq)
  rw [← heq]
  exact h.idxOf_getElem q.2 hlt

/-- Every element has a position. -/
theorem exists_mem_zipIdx {α : Type} {l : List α} {a : α} (h : a ∈ l) : ∃ i, (a, i) ∈ l.zipIdx := by
  obtain ⟨i, hi⟩ := List.mem_iff_getElem?.1 h
  exact ⟨i, List.mem_zipIdx_iff_getElem?.2 hi⟩

namespace Fusion

variable {f : Fusion} {v producer consumer : ValueId}

/-- A tensor over balanced leaves that is iterated in serial loops of its own, without broadcasts
and reductions. -/
structure Freestanding (f : Fusion) (v : ValueId) : Prop where
  balanced : f.Balanced (f.view v).domain.root (f.history v) (f.leaf v)
  unfactored : (f.view v).domain.rfactor = none
  iterated : ∀ a ∈ (f.view v).domain.root, (f.axis a).kind = .iteration
  detached : f.Detached v
  serial : ∀ a ∈ f.leaf v, (f.axis a).parallel.isLaunch = false

instance (f : Fusion) (v : ValueId) : Decidable (f.Freestanding v) :=
  decidable_of_iff (f.Balanced (f.view v).domain.root (f.history v) (f.leaf v) ∧
      (f.view v).domain.rfactor = none ∧
      (∀ a ∈ (f.view v).domain.root, (f.axis a).kind = .iteration) ∧ f.Detached v ∧
      ∀ a ∈ f.leaf v, (f.axis a).parallel.isLaunch = false)
    ⟨fun h => ⟨h.1, h.2.1, h.2.2.1, h.2.2.2.1, h.2.2.2.2⟩,
      fun h => ⟨h.balanced, h.unfactored, h.iterated, h.detached, h.serial⟩⟩

/-- All axes of a tensor are iterations if those of its root are. -/
theorem Freestanding.iteration (h : f.Freestanding v) (hw : WellKinded f) :
    ∀ a ∈ f.axesOf v, (f.axis a).kind = .iteration := by
  apply h.balanced.forward_induction hw.sound h.iterated
  intro t ht hin b hb
  have hkinds := hw.history h.unfactored ht
  cases hx : f.transform t with
  | split a o i k innerSplit =>
      rw [hx] at hkinds hin hb
      have ha := hin a (by simp [Transform.inputs])
      rcases List.mem_pair.1 hb with rfl | rfl
      · exact hkinds.1.trans ha
      · exact hkinds.2.trans ha
  | merge o i out =>
      rw [hx] at hkinds hin hb
      have ho := hin o (by simp [Transform.inputs])
      have hi := hin i (by simp [Transform.inputs])
      rw [KindsFollow, ho, hi] at hkinds
      rw [List.mem_singleton.1 hb]
      exact (Option.some.inj hkinds).symm

/-- A tensor that is computed element by element from another one. -/
structure ElementWise (f : Fusion) (producer consumer : ValueId) : Prop where
  computed : ∃ x ∈ f.definingExpr? consumer, producer ∈ x.inputs ∧ x.kind.isBroadcast = false
  tensor : f.isTensor producer = true
  rank : (f.view producer).domain.root.length = (f.view consumer).domain.root.length

instance (f : Fusion) (producer consumer : ValueId) : Decidable (f.ElementWise producer consumer) :=
  decidable_of_iff
    ((∃ x ∈ f.definingExpr? consumer, producer ∈ x.inputs ∧ x.kind.isBroadcast = false) ∧
      f.isTensor producer = true ∧
      (f.view producer).domain.root.length = (f.view consumer).domain.root.length)
    ⟨fun h => ⟨h.1, h.2.1, h.2.2⟩, fun h => ⟨h.computed, h.tensor, h.rank⟩⟩

namespace ElementWise

/-- Root axes correspond in order. -/
theorem rootPairs?_eq (h : f.ElementWise producer consumer)
    (hshape : f.shape producer = (f.view producer).domain.root) :
    f.rootPairs? producer consumer =
      .ok ((f.view producer).domain.root.zip (f.view consumer).domain.root) := by
  obtain ⟨x, hx, hmem, hkind⟩ := h.computed
  have hproducer : producer ∈ f.producers consumer := by
    rw [producers, Option.mem_def.1 hx, mem_foldl_addNew]
    exact .inr (List.mem_filter.2 ⟨hmem, h.tensor⟩)
  have hpairs : f.rootPairs producer consumer =
      (f.view producer).domain.root.zip (f.view consumer).domain.root := by
    unfold rootPairs
    rw [Option.mem_def.1 hx]
    dsimp only
    rw [if_neg (by simpa using hmem), hshape]
    split
    next flags heq => simp [heq, ExprKind.isBroadcast] at hkind
    next => rfl
  rw [rootPairs?, if_pos (by simpa using hproducer), hpairs]

/-- No expression computes both a value and what is computed from it. -/
theorem not_kin (h : f.ElementWise producer consumer) (hr : Regular f) :
    ¬ f.Kin consumer producer := by
  obtain ⟨rank, hrank⟩ := hr.wired.ranked
  obtain ⟨x, hx, hmem, -⟩ := h.computed
  have hself : ¬ f.ComputedFrom producer producer :=
    fun hc => Nat.lt_irrefl _ (hr.sound.rank_lt hrank hc)
  rintro (rfl | ⟨e, hconsumer, hproducer⟩)
  · exact hself ⟨x, hx, hmem⟩
  · apply hself
    refine ⟨x, ?_, hmem⟩
    rw [← Option.mem_def.1 hx, definingExpr?, definingExpr?, hproducer, hconsumer]

end ElementWise
end Fusion

open Fusion Scalar

namespace LoopPlan

variable {p : LoopPlan} {v producer consumer : ValueId} {e x y : AxisId → Int} {r : Nat → Int}
  {env env' : Scalar.Env} {frames : List LoopFrame} {leaves m : AxisIndices} {a : AxisId}

/-! ## Loops and storage -/

/-- A tensor over balanced leaves that is neither factored nor broadcast, the loops of which run
over its own axes; its storage spans all its leaves. -/
structure Standing (p : LoopPlan) (v : ValueId) : Prop where
  balanced : p.fusion.Balanced (p.fusion.view v).domain.root (p.fusion.history v) (p.fusion.leaf v)
  unfactored : (p.fusion.view v).domain.rfactor = none
  concrete : ∀ a ∈ p.fusion.axesOf v, (p.fusion.axis a).isBroadcast = false
  name : ∀ a ∈ p.fusion.axesOf v, p.groups.name a = a
  own : ∀ a ∈ p.fusion.axesOf v, p.concreteExtent a = p.fusion.ownExtent a
  shape : p.fusion.shape v = (p.fusion.view v).domain.root
  spanned : p.fusion.memoryOf v ≠ .global → p.allocatedLeaves v = p.fusion.leaf v

/-- A freestanding tensor has loops and storage of its own. -/
theorem standing_of_freestanding (hw : WellKinded p.fusion) (hr : Regular p.fusion)
    (hbuild : LoopGroups.build p.fusion = .ok p.groups) (h : p.fusion.Freestanding v) :
    p.Standing v := by
  have hf := hw.toRooted
  have hdescends : ∀ a ∈ p.fusion.axesOf v,
      p.fusion.Descends (p.fusion.view v).domain.root a := fun a => hf.axesOf_descends
  have hkind := h.iteration hw
  have hconcrete : ∀ a ∈ p.fusion.axesOf v, (p.fusion.axis a).isBroadcast = false := by
    intro a ha
    simp [Axis.isBroadcast, hkind a ha]
  have hkept : ∀ a ∈ p.fusion.axesOf v, (p.fusion.axis a).isReduction = false := by
    intro a ha
    simp [Axis.isReduction, hkind a ha]
  refine ⟨h.balanced, h.unfactored, hconcrete,
    fun a ha => h.detached.name_eq hf hr hbuild (hdescends a ha), fun a ha => ?_, ?_,
    fun hmemory => ?_⟩
  · unfold concreteExtent
    rw [h.detached.concrete_eq hf hr hbuild (hdescends a ha)]
  · unfold Fusion.shape TensorDomain.logical
    rw [h.unfactored, Option.getD_none]
    apply List.filter_eq_self.2
    intro a ha
    simp [hkept a (List.mem_append_left _ ha)]
  · have hserial : ∀ a ∈ p.fusion.leaf v, (p.groups.parallel a).isLaunch = false := by
      intro a ha
      have hax := h.balanced.leaf_mem_axes ha
      rcases h.detached.parallel_cases hf hr hbuild (hdescends a hax) with heq | heq
      · rw [heq]
        rfl
      · rw [heq]
        exact h.serial a ha
    have hall : ∀ q ∈ (p.fusion.leaf v).zipIdx,
        p.spans (p.fusion.memoryOf v) (p.fusion.view v).computeAt q.2 q.1 = true := by
      intro q hq
      have hq := List.mem_of_getElem? (List.mem_zipIdx_iff_getElem?.1 hq)
      have hax := h.balanced.leaf_mem_axes hq
      have hblock : (p.groups.parallel q.1).isBlock = false := by
        have hlaunch := hserial q.1 hq
        rw [ParallelType.isLaunch, Bool.or_eq_false_iff] at hlaunch
        exact hlaunch.1
      cases hm : p.fusion.memoryOf v with
      | global => exact absurd hm hmemory
      | «local» => simp [spans, hkept q.1 hax, hconcrete q.1 hax, h.detached.computeAt, hserial q.1 hq]
      | shared => simp [spans, hkept q.1 hax, hconcrete q.1 hax, h.detached.computeAt, hblock]
    unfold allocatedLeaves
    dsimp only
    rw [List.filter_eq_self.2 hall]
    exact List.zipIdx_map_fst 0 _

/-- Extents whose addresses are 64-bit integers: the storage of a tensor has so many cells, or the
strides in global memory reach no further. -/
structure Addressable (p : LoopPlan) (v : ValueId) (env : Scalar.Env) (e : AxisId → Int) : Prop where
  storage : p.fusion.memoryOf v ≠ .global → Fits64 (volume e (p.fusion.leaf v))
  strides : p.fusion.memoryOf v = .global → ∀ q ∈ (p.fusion.view v).domain.root.zipIdx,
    (env.stride v q.2).isSome = true
  reach : p.fusion.memoryOf v = .global → Fits64 (((p.fusion.view v).domain.root.zipIdx.map
    fun q => (e q.1 - 1) * |(env.stride v q.2).getD 0|).sum)

instance (p : LoopPlan) (v : ValueId) (env : Scalar.Env) (e : AxisId → Int) :
    Decidable (p.Addressable v env e) :=
  decidable_of_iff ((p.fusion.memoryOf v ≠ .global → Fits64 (volume e (p.fusion.leaf v))) ∧
      (p.fusion.memoryOf v = .global → ∀ q ∈ (p.fusion.view v).domain.root.zipIdx,
        (env.stride v q.2).isSome = true) ∧
      (p.fusion.memoryOf v = .global → Fits64 (((p.fusion.view v).domain.root.zipIdx.map
        fun q => (e q.1 - 1) * |(env.stride v q.2).getD 0|).sum)))
    ⟨fun h => ⟨h.1, h.2.1, h.2.2⟩, fun h => ⟨h.storage, h.strides, h.reach⟩⟩

/-- The cell of a point of the index space: its number in storage, or its offset in global
memory. -/
def cellAddress (p : LoopPlan) (v : ValueId) (env : Scalar.Env) (e x : AxisId → Int) : Int :=
  if p.fusion.memoryOf v = .global then
    ((p.fusion.view v).domain.root.zipIdx.map fun q => x q.1 * (env.stride v q.2).getD 0).sum
  else radix e x (p.fusion.leaf v).reverse

/-- A point that stays inside all extents and belongs to an element of the root. -/
structure Element (p : LoopPlan) (v : ValueId) (e : AxisId → Int) (r : Nat → Int)
    (x : AxisId → Int) : Prop where
  inside : ∀ a ∈ p.fusion.axesOf v, Inside e x a
  fits : ∀ a ∈ p.fusion.axesOf v, Fits64 (x a)
  traced : ∀ t ∈ p.fusion.history v, Traced e x (p.fusion.transform t)
  root : ∀ q ∈ (p.fusion.view v).domain.root.zipIdx, x q.1 = r q.2

/-! ## Iterations -/

/-- Every leaf of a tensor has an enclosing loop that is at the given index. -/
structure At (p : LoopPlan) (v : ValueId) (frames : List LoopFrame) (env : Scalar.Env)
    (x : AxisId → Int) : Prop where
  leaf : ∀ a ∈ p.fusion.leaf v, ∃ s, p.loopIndex? frames a = some s ∧
    s.evaluate env = some (.int (x a))
  counter : ∀ fr ∈ frames, fr.index.IsCounter

/-- Loops that are all over leaves of the tensor. -/
def LoopsOver (p : LoopPlan) (v : ValueId) (frames : List LoopFrame) : Prop :=
  ∀ fr ∈ frames, ∃ a ∈ p.fusion.leaf v, fr.group = p.groups.name a

/-- The enclosing loops are at an element of the root of the tensor. -/
def AtElement (p : LoopPlan) (v : ValueId) (frames : List LoopFrame) (env : Scalar.Env)
    (r : Nat → Int) : Prop :=
  ∃ m, p.consumerIndices v frames = .ok m ∧
    ∀ q ∈ (p.fusion.view v).domain.root.zipIdx, Valued env m (fun _ => r q.2) q.1

instance (p : LoopPlan) (v : ValueId) (frames : List LoopFrame) (env : Scalar.Env)
    (r : Nat → Int) : Decidable (p.AtElement v frames env r) :=
  match h : p.consumerIndices v frames with
  | .ok m => decidable_of_iff
      (∀ q ∈ (p.fusion.view v).domain.root.zipIdx, Valued env m (fun _ => r q.2) q.1)
      (by simp [AtElement, h])
  | .error _ => .isFalse (by simp [AtElement, h])

/-- The enclosing loops pass the bounds of the tensor. -/
def PassesBounds (p : LoopPlan) (v : ValueId) (frames : List LoopFrame) (env : Scalar.Env) : Prop :=
  ∃ m, p.consumerIndices v frames = .ok m ∧ (p.bounds v m true).evaluate env = some (.bool true)

/-- Indices at which a tensor is depend on its leaves only. -/
theorem At.congr (h : p.At v frames env x) (heq : ∀ a ∈ p.fusion.leaf v, y a = x a) :
    p.At v frames env y := by
  refine ⟨fun a ha => ?_, h.counter⟩
  rw [heq a ha]
  exact h.leaf a ha

/-- The leaf indices of such an iteration. -/
theorem At.exists_leaves (h : p.At v frames env x) :
    ∃ leaves, p.leafIndices v frames = .ok leaves ∧ (∀ a ∈ p.fusion.leaf v, Valued env leaves x a) ∧
      ∀ a s, leaves.get? a = some s → Counted s := by
  obtain ⟨leaves, hleaves, hget, hcounted⟩ := exists_leafIndices h.counter fun a ha => by
    obtain ⟨s, hs, -⟩ := h.leaf a ha
    exact ⟨s, hs⟩
  refine ⟨leaves, hleaves, fun a ha => ?_, hcounted⟩
  obtain ⟨s, hs, hval⟩ := h.leaf a ha
  exact ⟨s, (hget a ha).trans hs, hval⟩

/-- The indices of a consumer follow from those of its leaves. -/
theorem consumerIndices_eq (h : p.leafIndices v frames = .ok leaves) :
    p.consumerIndices v frames = .ok (p.backward v leaves) := by
  rw [consumerIndices, h]
  rfl

/-- What a consumer outside global memory writes lies where its leaves say. -/
theorem consumerIndex_storage (h : p.fusion.memoryOf v ≠ .global)
    (hleaves : p.leafIndices v frames = .ok leaves) :
    p.consumerIndex v frames = p.allocationIndex v leaves := by
  unfold consumerIndex
  split
  case h_1 heq => exact absurd heq h
  case h_2 =>
      rw [hleaves]
      rfl

/-- What a consumer in global memory writes lies where its root says. -/
theorem consumerIndex_global (h : p.fusion.memoryOf v = .global)
    (hleaves : p.leafIndices v frames = .ok leaves) :
    p.consumerIndex v frames = p.globalIndex v (p.backward v leaves) := by
  rw [consumerIndex, h]
  dsimp only
  rw [consumerIndices_eq hleaves]
  rfl

/-- What is read outside global memory lies where the leaves of the producer say. -/
theorem producerIndex_storage {roots : AxisIndices} (h : p.fusion.memoryOf producer ≠ .global)
    (hm : p.consumerIndices consumer frames = .ok m)
    (hroots : p.producerRoots producer consumer m = .ok roots) :
    p.producerIndex producer consumer frames =
      p.allocationIndex producer (p.producerLeaves producer frames roots) := by
  simp only [producerIndex, hm, hroots, bind, Except.bind]

/-- What is read in global memory lies where the root of the producer says. -/
theorem producerIndex_global {roots : AxisIndices} (h : p.fusion.memoryOf producer = .global)
    (hm : p.consumerIndices consumer frames = .ok m)
    (hroots : p.producerRoots producer consumer m = .ok roots) :
    p.producerIndex producer consumer frames = p.globalIndex producer roots := by
  rw [producerIndex, hm]
  dsimp only [bind, Except.bind]
  rw [hroots]
  dsimp only
  rw [h]

/-! ## Writing -/

section Writing

variable (hf : Sound p.fusion) (hs : p.Standing v) (hsizes : p.fusion.Sizes v e)
  (hsized : p.fusion.Sized env (p.fusion.axesOf v) e) (hroom : p.Addressable v env e)

include hs hsized

/-- Storage is addressed by the number of the leaf indices. -/
theorem Standing.computes_storage (hmemory : p.fusion.memoryOf v ≠ .global)
    (hfits : Fits64 (volume e (p.fusion.leaf v))) (hinside : ∀ a ∈ p.fusion.leaf v, Inside e x a)
    (hvalued : ∀ a ∈ p.fusion.leaf v, Valued env m x a) :
    Computes (p.allocationIndex v m) env (radix e x (p.fusion.leaf v).reverse) := by
  have hmem : ∀ a ∈ (p.fusion.leaf v).reverse, a ∈ p.fusion.leaf v := fun a => List.mem_reverse.1
  have hextent : ∀ a ∈ p.fusion.leaf v, (p.concreteExtent a).evaluate env = some (.int (e a)) := by
    intro a ha
    have hax := hs.balanced.leaf_mem_axes ha
    rw [hs.own a hax]
    exact hsized a hax
  have hvolume : 1 * volume e (p.fusion.leaf v).reverse = volume e (p.fusion.leaf v) := by
    simp [volume, List.prod_reverse]
  obtain ⟨q, hq, hval⟩ := foldlM_storageStep
    (fun a ha => hvalued a (hmem a ha)) (fun a ha => hinside a (hmem a ha))
    (fun a ha => hextent a (hmem a ha)) (show Scalar.zero.evaluate env = some (.int 0) from rfl)
    (show Scalar.one.evaluate env = some (.int 1) from rfl) (by decide) (by decide) (hvolume ▸ hfits)
  rw [← hs.spanned hmemory] at hq
  refine ⟨q.1, allocationIndex_eq hq, ?_⟩
  simpa using hval

/-- The number of cells of a storage. -/
theorem Standing.evaluate_allocationSize (hmemory : p.fusion.memoryOf v ≠ .global)
    (hpos : ∀ a ∈ p.fusion.leaf v, 0 < e a) (hfits : Fits64 (volume e (p.fusion.leaf v))) :
    (p.allocationSize v).evaluate env = some (.int (volume e (p.fusion.leaf v))) := by
  have hextent : ∀ a ∈ p.fusion.leaf v, (p.concreteExtent a).evaluate env = some (.int (e a)) := by
    intro a ha
    have hax := hs.balanced.leaf_mem_axes ha
    rw [hs.own a hax]
    exact hsized a hax
  have hsize := evaluate_storageSize hpos hextent
    (show Scalar.one.evaluate env = some (.int 1) from rfl) (by decide) (by rwa [Int.one_mul])
  rw [Int.one_mul] at hsize
  rwa [allocationSize, hs.spanned hmemory]

omit hsized in
include hroom in
/-- Global memory is addressed by the root indices. -/
theorem Standing.computes_global (hmemory : p.fusion.memoryOf v = .global)
    (halike : env.Alike env') (hinside : ∀ a ∈ (p.fusion.view v).domain.root, Inside e x a)
    (hvalued : ∀ a ∈ (p.fusion.view v).domain.root, Valued env' m x a) :
    Computes (p.globalIndex v m) env' (p.cellAddress v env e x) := by
  have hmem : ∀ q ∈ (p.fusion.view v).domain.root.zipIdx, q.1 ∈ (p.fusion.view v).domain.root :=
    fun q hq => List.mem_of_getElem? (List.mem_zipIdx_iff_getElem?.1 hq)
  have hoffset : ∀ q ∈ (p.fusion.view v).domain.root.zipIdx,
      |x q.1 * (env.stride v q.2).getD 0| ≤ (e q.1 - 1) * |(env.stride v q.2).getD 0| := by
    intro q hq
    obtain ⟨hlow, hhigh⟩ := hinside q.1 (hmem q hq)
    rw [abs_mul, abs_of_nonneg hlow]
    exact mul_le_mul_of_nonneg_right (by omega) (abs_nonneg _)
  have hreach := (hroom.reach hmemory).of_le
    (List.sum_nonneg fun n hn => by
      obtain ⟨q, -, rfl⟩ := List.mem_map.1 hn
      exact abs_nonneg (x q.1 * (env.stride v q.2).getD 0))
    (List.sum_le_sum hoffset)
  have hstride : ∀ q ∈ (p.fusion.view v).domain.root.zipIdx,
      env'.stride v q.2 = some ((env.stride v q.2).getD 0) := by
    intro q hq
    obtain ⟨n, hn⟩ := Option.isSome_iff_exists.1 (hroom.strides hmemory q hq)
    rw [halike.stride, hn, Option.getD_some]
  rw [globalIndex_eq, hs.shape, cellAddress, if_pos hmemory]
  have haddress := foldlM_addressStep (w := fun d => (env.stride v d).getD 0)
    (fun q hq => hs.concrete q.1 (List.mem_append_left _ (hmem q hq)))
    (fun q hq => hvalued q.1 (hmem q hq)) hstride
    (show Scalar.zero.evaluate env' = some (.int 0) from rfl) (by simpa using hreach)
  rwa [Int.zero_add] at haddress

/-- Indices that lead to a root index inside its extent pass the bounds. -/
theorem Standing.evaluate_bounds
    (hinside : ∀ a ∈ (p.fusion.view v).domain.root, Inside e x a)
    (hvalued : ∀ a ∈ (p.fusion.view v).domain.root, Valued env (p.backward v leaves) x a)
    (hcounted : ∀ a s, leaves.get? a = some s → Counted s) :
    (p.bounds v (p.backward v leaves) true).evaluate env = some (.bool true) := by
  obtain ⟨terms, heq, hterms⟩ := p.bounds_eq_all v (p.backward v leaves) true
  have hconditions : ∀ t ∈ terms, IsCondition t := by
    intro t ht
    obtain ⟨a, -, -, -, s, -, rfl⟩ := hterms t ht
    exact .lt s _
  rw [heq, evaluate_all_iff hconditions]
  intro t ht
  obtain ⟨a, hmem, hconcrete, -, s, hget, rfl⟩ := hterms t ht
  have hroot : a ∈ (p.fusion.view v).domain.root := by
    rcases List.mem_append.1 hmem with hmem | hmem
    · exact hmem
    · exact hs.shape ▸ hmem
  have hval := (hvalued a hroot).evaluate hget
  rw [backward_get?, if_neg (by simp [hconcrete])] at hget
  exact (carried_counted hcounted a s hget).evaluate_lt (p.fusion.counts_ownExtent a) hval
    (hsized a (List.mem_append_left _ hroot)) (hinside a hroot).2

include hf hsizes

/-- Every element of the root belongs to a point that stays inside all extents. -/
theorem Standing.exists_element
    (hr : ∀ q ∈ (p.fusion.view v).domain.root.zipIdx, 0 ≤ r q.2 ∧ r q.2 < e q.1) :
    ∃ x, p.Element v e r x := by
  have hnodup : (p.fusion.view v).domain.root.Nodup := (List.nodup_append.1 hs.balanced.nodup).1
  obtain ⟨hreach, htraced, hpoint⟩ := carriedForth_reaches
    (r := fun a => r ((p.fusion.view v).domain.root.idxOf a)) hf hs.balanced hsizes hsized
    fun a ha => by
      obtain ⟨i, hi⟩ := exists_mem_zipIdx ha
      have hindex : (p.fusion.view v).domain.root.idxOf a = i := idxOf_of_mem_zipIdx hnodup hi
      refine ⟨valued_literalIndices ha, ?_⟩
      rw [Inside, hindex]
      exact hr (a, i) hi
  refine ⟨_, fun a ha => (hreach a ha).inside, fun a ha => (hreach a ha).fits, htraced,
    fun q hq => ?_⟩
  rw [hpoint q.1 (List.mem_of_getElem? (List.mem_zipIdx_iff_getElem?.1 hq)),
    idxOf_of_mem_zipIdx hnodup hq]

end Writing

/-! ## One element -/

namespace Element

section Cells

variable (hel : p.Element v e r x) (hf : Sound p.fusion) (hs : p.Standing v)
  (hsizes : p.fusion.Sizes v e) (hsized : p.fusion.Sized env (p.fusion.axesOf v) e)
  (hroom : p.Addressable v env e) (halike : env.Alike env')

include hel

/-- Root indices are inside. -/
theorem inside_root : ∀ a ∈ (p.fusion.view v).domain.root, Inside e x a :=
  fun a ha => hel.inside a (List.mem_append_left _ ha)

include hs in
/-- Leaf indices are inside. -/
theorem inside_leaf : ∀ a ∈ p.fusion.leaf v, Inside e x a :=
  fun a ha => hel.inside a (hs.balanced.leaf_mem_axes ha)

include hs in
/-- The cell of an element is one of its storage. -/
theorem cellAddress_inside (hmemory : p.fusion.memoryOf v ≠ .global) :
    0 ≤ p.cellAddress v env e x ∧ p.cellAddress v env e x < volume e (p.fusion.leaf v) := by
  have hvolume : volume e (p.fusion.leaf v).reverse = volume e (p.fusion.leaf v) := by
    simp [volume, List.prod_reverse]
  rw [cellAddress, if_neg hmemory, ← hvolume]
  apply radix_inside
  intro a ha
  exact hel.inside_leaf hs a (List.mem_reverse.1 ha)

include hf hs hsizes hsized hroom halike

/-- An iteration at the point of an element is at the element, passes the bounds and writes the cell
of the point. -/
theorem written (hat : p.At v frames env' x) :
    p.AtElement v frames env' r ∧ p.PassesBounds v frames env' ∧
      Computes (p.consumerIndex v frames) env' (p.cellAddress v env e x) := by
  obtain ⟨leaves, hleaves, hvalued, hcounted⟩ := hat.exists_leaves
  have hsized' : p.fusion.Sized env' (p.fusion.axesOf v) e :=
    fun a ha => (p.fusion.evaluate_ownExtent_congr halike a).trans (hsized a ha)
  have hcarried := carried_valued hf hs.balanced hsizes hs.own hsized' hel.traced
    (fun a ha => ⟨hel.inside a ha, hel.fits a ha⟩) hvalued
  have hback : ∀ a ∈ (p.fusion.view v).domain.root,
      Valued env' (p.backward v leaves) x a := by
    intro a ha
    have hax : a ∈ p.fusion.axesOf v := List.mem_append_left _ ha
    obtain ⟨s, hget, hval⟩ := hcarried a hax
    refine ⟨s, ?_, hval⟩
    rwa [backward_get?, if_neg (by simp [hs.concrete a hax])]
  have hpasses := hs.evaluate_bounds hsized' hel.inside_root hback hcounted
  refine ⟨⟨_, consumerIndices_eq hleaves, fun q hq => ?_⟩, ⟨_, consumerIndices_eq hleaves, hpasses⟩,
    ?_⟩
  · rw [← hel.root q hq]
    exact hback q.1 (List.mem_of_getElem? (List.mem_zipIdx_iff_getElem?.1 hq))
  · by_cases hmemory : p.fusion.memoryOf v = .global
    · rw [consumerIndex_global hmemory hleaves]
      exact hs.computes_global hroom hmemory halike hel.inside_root hback
    · rw [consumerIndex_storage hmemory hleaves, cellAddress, if_neg hmemory]
      exact hs.computes_storage hsized' hmemory (hroom.storage hmemory) (hel.inside_leaf hs) hvalued

omit hf hsizes in
/-- No other iteration inside the extents of the leaves writes the cell of a point in storage. -/
theorem eq_of_written (hmemory : p.fusion.memoryOf v ≠ .global) (hat : p.At v frames env' y)
    (hinside : ∀ a ∈ p.fusion.leaf v, Inside e y a)
    (hwrites : Computes (p.consumerIndex v frames) env' (p.cellAddress v env e x)) :
    ∀ a ∈ p.fusion.leaf v, y a = x a := by
  obtain ⟨leaves, hleaves, hvalued, -⟩ := hat.exists_leaves
  have hsized' : p.fusion.Sized env' (p.fusion.axesOf v) e :=
    fun a ha => (p.fusion.evaluate_ownExtent_congr halike a).trans (hsized a ha)
  have hcell := hs.computes_storage hsized' hmemory (hroom.storage hmemory) hinside hvalued
  rw [consumerIndex_storage hmemory hleaves, cellAddress, if_neg hmemory] at hwrites
  have hdigits : ∀ z, (∀ a ∈ p.fusion.leaf v, Inside e z a) →
      Digits e z (p.fusion.leaf v).reverse := by
    intro z hz
    apply Digits.of_inside
    intro a ha
    exact hz a (List.mem_reverse.1 ha)
  have hsame := (hdigits x (hel.inside_leaf hs)).eq_of_radix_eq (hdigits y hinside)
    (hcell.unique hwrites)
  exact fun a ha => hsame a (List.mem_reverse.2 ha)

end Cells

/-! ## Reading -/

/-- Points of one element agree. -/
theorem eq_of_element (hel : p.Element v e r x) (hel' : p.Element v e r y) (hf : Sound p.fusion)
    (hs : p.Standing v) : ∀ a ∈ p.fusion.axesOf v, x a = y a := by
  apply hs.balanced.eq_of_roots hf hel.traced hel'.traced
  · exact fun a ha => ⟨hel.inside a ha, hel'.inside a ha⟩
  · intro a ha
    obtain ⟨i, hi⟩ := exists_mem_zipIdx ha
    exact (hel.root (a, i) hi).trans (hel'.root (a, i) hi).symm

end Element

/-- The root indices that a consumer at an element gives its producer. -/
theorem exists_producerRoots (hpair : p.fusion.ElementWise producer consumer)
    (hs : p.Standing producer) (hat : p.AtElement consumer frames env r) :
    ∃ m roots, p.consumerIndices consumer frames = .ok m ∧
      p.producerRoots producer consumer m = .ok roots ∧
      ∀ q ∈ (p.fusion.view producer).domain.root.zipIdx,
        Valued env roots (fun _ => r q.2) q.1 := by
  obtain ⟨m, hm, hvalue⟩ := hat
  have hpairs := hpair.rootPairs?_eq hs.shape
  have hrank := hpair.rank
  have hconcrete : ∀ a ∈ (p.fusion.view producer).domain.root,
      (p.fusion.axis a).isBroadcast = false :=
    fun a ha => hs.concrete a (List.mem_append_left _ ha)
  have hnodup : (p.fusion.view producer).domain.root.Nodup :=
    (List.nodup_append.1 hs.balanced.nodup).1
  generalize (p.fusion.view producer).domain.root = as at hpairs hrank hconcrete hnodup ⊢
  generalize (p.fusion.view consumer).domain.root = cs at hpairs hrank hvalue
  obtain ⟨roots, hroots⟩ : ∃ roots, (as.zip cs).foldlM (p.rootStep consumer m) .empty = .ok roots := by
    apply Results.foldlM_of_all
    intro q hq acc
    obtain ⟨hq₁, hq₂⟩ := List.of_mem_zip hq
    obtain ⟨i, hi⟩ := exists_mem_zipIdx hq₂
    obtain ⟨s, hget, -⟩ := hvalue (q.2, i) hi
    refine ⟨acc.set q.1 s, ?_⟩
    unfold rootStep
    dsimp only
    rw [if_neg (by simp [hconcrete q.1 hq₁]), require_of_get? hget]
    rfl
  refine ⟨m, roots, hm, by rw [producerRoots, hpairs]; exact hroots, fun q hq => ?_⟩
  have hget := List.mem_zipIdx_iff_getElem?.1 hq
  obtain ⟨hlt, heq⟩ := List.getElem?_eq_some_iff.1 hget
  have hzip : (q.1, cs[q.2]) ∈ as.zip cs := by
    apply List.mem_of_getElem? (i := q.2)
    simp [List.getElem?_zip_eq_some, hget]
  have hfound := (rootStep_get? (by rwa [List.map_fst_zip (by omega)]) hroots).2 (q.1, cs[q.2]) hzip
    (hconcrete q.1 (List.of_mem_zip hzip).1)
  rw [Valued, hfound]
  exact hvalue (cs[q.2], q.2) (List.mem_zipIdx_iff_getElem?.2 (by simp))

/-- No loop over leaves of a consumer is one of a detached producer. -/
theorem loopIndex?_eq_none (hf : Rooted p.fusion) (hr : Regular p.fusion)
    (hbuild : LoopGroups.build p.fusion = .ok p.groups) (hd : p.fusion.Detached producer)
    (hpair : p.fusion.ElementWise producer consumer) (hloops : p.LoopsOver consumer frames)
    (ha : a ∈ p.fusion.leaf producer) : p.loopIndex? frames a = none := by
  have hproducer := (hf.grounded producer).leaf a ha
  unfold loopIndex?
  dsimp only
  rw [Option.map_eq_none_iff, List.find?_eq_none]
  intro fr hfr hgroup
  obtain ⟨b, hb, heq⟩ := hloops fr hfr
  have hconsumer := (hf.grounded consumer).leaf b hb
  have hapart := hd.not_descends_name hf hr hbuild (a := b) fun hdesc =>
    hpair.not_kin hr (hf.kin_of_descends hconsumer hdesc)
  rw [heq, hd.name_eq hf hr hbuild hproducer] at hgroup
  exact hapart (eq_of_beq hgroup ▸ hproducer)

/-- An iteration of a consumer that is at an element reads the cell of its point. -/
theorem Element.read (hel : p.Element producer e r x) (hf : Sound p.fusion)
    (hs : p.Standing producer) (hsizes : p.fusion.Sizes producer e)
    (hsized : p.fusion.Sized env (p.fusion.axesOf producer) e)
    (hroom : p.Addressable producer env e) (halike : env.Alike env')
    (hpair : p.fusion.ElementWise producer consumer)
    (hframes : ∀ a ∈ p.fusion.leaf producer, p.loopIndex? frames a = none)
    (hat : p.AtElement consumer frames env' r) :
    Computes (p.producerIndex producer consumer frames) env' (p.cellAddress producer env e x) := by
  obtain ⟨m, roots, hm, hroots, hvalue⟩ := exists_producerRoots hpair hs hat
  have hsized' : p.fusion.Sized env' (p.fusion.axesOf producer) e :=
    fun a ha => (p.fusion.evaluate_ownExtent_congr halike a).trans (hsized a ha)
  have hvalued : ∀ a ∈ (p.fusion.view producer).domain.root, Valued env' roots x a := by
    intro a ha
    obtain ⟨i, hi⟩ := exists_mem_zipIdx ha
    rw [Valued, hel.root (a, i) hi]
    exact hvalue (a, i) hi
  by_cases hmemory : p.fusion.memoryOf producer = .global
  · rw [producerIndex_global hmemory hm hroots]
    exact hs.computes_global hroom hmemory halike hel.inside_root hvalued
  · -- what the root indices lead to is the point itself
    obtain ⟨hreach, htraced, hpoint⟩ := carriedForth_reaches hf hs.balanced hsizes hsized'
      fun a ha => ⟨hvalued a ha, hel.inside_root a ha⟩
    have hsame := hel.eq_of_element (y := pointOf env' _) ⟨fun a ha => (hreach a ha).inside,
      fun a ha => (hreach a ha).fits, htraced, fun q hq => by
        rw [hpoint q.1 (List.mem_of_getElem? (List.mem_zipIdx_iff_getElem?.1 hq)), hel.root q hq]⟩
      hf hs
    rw [producerIndex_storage hmemory hm hroots, producerLeaves_eq hs.unfactored hframes, cellAddress,
      if_neg hmemory]
    apply hs.computes_storage hsized' hmemory (hroom.storage hmemory) (hel.inside_leaf hs)
    intro a ha
    have hax := hs.balanced.leaf_mem_axes ha
    rw [Valued, hsame a hax]
    exact (hreach a hax).valued

/-! ## Cells -/

/-- The loops over the leaves of a tensor, at the indices of a point. -/
def atPoint (p : LoopPlan) (v : ValueId) (env : Scalar.Env) (x : AxisId → Int) : Scalar.Env :=
  { env with loop := fun l => (p.fusion.leaf v)[l.index]?.map x }

/-- Each leaf has its own loop. -/
theorem loopIndex?_leafLoops (hname : ∀ a ∈ p.fusion.leaf v, p.groups.name a = a)
    (ha : a ∈ p.fusion.leaf v) :
    ∃ i, (p.fusion.leaf v)[i]? = some a ∧ p.loopIndex? (p.leafLoops v) a = some (.loop ⟨i⟩) := by
  have hmem : ∀ fr ∈ p.leafLoops v, ∃ b i, (p.fusion.leaf v)[i]? = some b ∧ fr.group = b ∧
      fr.index = .loop ⟨i⟩ := by
    intro fr hfr
    obtain ⟨⟨b, i⟩, hq, rfl⟩ := List.mem_map.1 hfr
    have hget := List.mem_zipIdx_iff_getElem?.1 hq
    exact ⟨b, i, hget, hname b (List.mem_of_getElem? hget), rfl⟩
  obtain ⟨i, hi⟩ := exists_mem_zipIdx ha
  unfold loopIndex?
  dsimp only
  cases hfind : (p.leafLoops v).find? (·.group == p.groups.name a) with
  | none =>
      have hnone := List.find?_eq_none.1 hfind _ (List.mem_map.2 ⟨(a, i), hi, rfl⟩)
      simp at hnone
  | some fr =>
      obtain ⟨b, j, hget, hgroup, hindex⟩ := hmem fr (List.mem_of_find?_eq_some hfind)
      have hsame : fr.group = p.groups.name a := by
        have hbeq := List.find?_some hfind
        exact eq_of_beq hbeq
      rw [hgroup, hname a ha] at hsame
      exact ⟨j, hsame ▸ hget, congrArg some hindex⟩

/-- The loops over the leaves of a tensor are loops over this tensor. -/
theorem loopsOver_leafLoops (p : LoopPlan) (v : ValueId) : p.LoopsOver v (p.leafLoops v) := by
  intro fr hfr
  obtain ⟨q, hq, rfl⟩ := List.mem_map.1 hfr
  exact ⟨q.1, List.mem_of_getElem? (List.mem_zipIdx_iff_getElem?.1 hq), rfl⟩

/-- Some iteration of the loops over the leaves is at every point. -/
theorem Standing.at_leafLoops (hs : p.Standing v) (env : Scalar.Env) (x : AxisId → Int) :
    p.At v (p.leafLoops v) (p.atPoint v env x) x := by
  refine ⟨fun a ha => ?_, fun fr hfr => ?_⟩
  · obtain ⟨i, hi, hindex⟩ := loopIndex?_leafLoops
      (fun b hb => hs.name b (hs.balanced.leaf_mem_axes hb)) ha
    refine ⟨_, hindex, ?_⟩
    simp [Scalar.evaluate, atPoint, hi]
  · obtain ⟨q, -, rfl⟩ := List.mem_map.1 hfr
    exact .loop _

/-- The iteration of a producer that is at an element of its root writes a cell at an address, which
the consumer reads in every iteration that is at the element.  In storage the cell is one of those
allocated, and no other iteration writes it. -/
structure Cell (p : LoopPlan) (producer consumer : ValueId) (e : AxisId → Int) (env : Scalar.Env)
    (r : Nat → Int) (x : AxisId → Int) (address : Int) : Prop where
  inside : ∀ a ∈ p.fusion.leaf producer, Inside e x a
  reached : ∃ frames env', env.Alike env' ∧ p.LoopsOver producer frames ∧ p.At producer frames env' x
  written : ∀ frames env', env.Alike env' → p.At producer frames env' x →
    p.AtElement producer frames env' r ∧ p.PassesBounds producer frames env' ∧
      Computes (p.consumerIndex producer frames) env' address
  read : ∀ frames env', env.Alike env' → p.LoopsOver consumer frames →
    p.AtElement consumer frames env' r →
      Computes (p.producerIndex producer consumer frames) env' address
  alone : p.fusion.memoryOf producer ≠ .global → ∀ frames env' y, env.Alike env' →
    p.At producer frames env' y → (∀ a ∈ p.fusion.leaf producer, Inside e y a) →
      Computes (p.consumerIndex producer frames) env' address →
        ∀ a ∈ p.fusion.leaf producer, y a = x a
  allocated : p.fusion.memoryOf producer ≠ .global → ∃ n,
    (p.allocationSize producer).evaluate env = some (.int n) ∧ 0 ≤ address ∧ address < n

/-- A consumer reads the cell that its producer wrote. -/
theorem exists_cell {calls : List Call} (hcalls : attemptAll calls {} = p.fusion)
    (hbuild : LoopGroups.build p.fusion = .ok p.groups)
    (hpair : p.fusion.ElementWise producer consumer) (hproducer : p.fusion.Freestanding producer)
    (hsizes : p.fusion.Sizes producer e)
    (hsized : p.fusion.Sized env (p.fusion.axesOf producer) e)
    (hroom : p.Addressable producer env e)
    (hr : ∀ q ∈ (p.fusion.view producer).domain.root.zipIdx, 0 ≤ r q.2 ∧ r q.2 < e q.1) :
    ∃ x address, p.Cell producer consumer e env r x address := by
  have hw : WellKinded p.fusion := hcalls ▸ attemptAll_wellKinded calls wellKinded_empty regular_empty
  have hregular : Regular p.fusion := hcalls ▸ (attemptAll_freezes calls regular_empty).regular
  have hf := hw.sound
  have hs := standing_of_freestanding hw hregular hbuild hproducer
  obtain ⟨x, hel⟩ := hs.exists_element hf hsizes hsized hr
  refine ⟨x, p.cellAddress producer env e x, hel.inside_leaf hs, ?_, ?_, ?_, ?_, ?_⟩
  · exact ⟨p.leafLoops producer, p.atPoint producer env x, ⟨rfl, rfl, rfl, rfl⟩,
      p.loopsOver_leafLoops producer, hs.at_leafLoops env x⟩
  · intro frames env' halike hat
    exact hel.written hf hs hsizes hsized hroom halike hat
  · intro frames env' halike hloops hat
    apply hel.read hf hs hsizes hsized hroom halike hpair _ hat
    intro a ha
    exact loopIndex?_eq_none hw.toRooted hregular hbuild hproducer.detached hpair hloops ha
  · intro hmemory frames env' y halike hat hinside hwrites
    exact hel.eq_of_written hs hsized hroom halike hmemory hat hinside hwrites
  · intro hmemory
    have hpos : ∀ a ∈ p.fusion.leaf producer, 0 < e a := by
      intro a ha
      obtain ⟨hlow, hhigh⟩ := hel.inside_leaf hs a ha
      omega
    refine ⟨_, hs.evaluate_allocationSize hsized hmemory hpos (hroom.storage hmemory), ?_⟩
    exact hel.cellAddress_inside hs hmemory

/-- Two negations of a matrix.  The first one goes over both axes at once, in blocks of four, the last
of which is padded; the second one pads its columns. -/
def paddedNegations : List Call :=
  [.tensor [5, 6] [true, true] .float, .input ⟨0⟩, .unary .neg (.value ⟨0⟩),
    .unary .neg (.value ⟨7⟩), .output ⟨10⟩, .merge ⟨7⟩ 0 1, .split ⟨7⟩ 0 (.const 4) true,
    .reorder ⟨7⟩ [(0, 1)], .split ⟨10⟩ 1 (.const 4) true]

/-- The sixth element of the fourth row. -/
def lateElement (i : Nat) : Int :=
  [3, 5].getD i 0

/-- Three loops, at the fourth row, the second block of columns and the second column in it. -/
def lateIteration : Scalar.Env :=
  { loop := fun l => [3, 1, 1][l.index]? }

/-- Both negations meet the sixth element of the fourth row at one address, in storage with 32 cells
for 30 elements. -/
theorem paddedNegations_cell :
    ∃ p : LoopPlan, attemptAll paddedNegations {} = p.fusion ∧
      LoopGroups.build p.fusion = .ok p.groups ∧ p.fusion.memoryOf ⟨7⟩ = .local ∧
      (∃ x, p.Cell ⟨7⟩ ⟨10⟩ (p.fusion.extentsAt {}) {} lateElement x 29) ∧
      p.AtElement ⟨10⟩ (p.leafLoops ⟨10⟩) lateIteration lateElement ∧
      (p.allocationSize ⟨7⟩).evaluate {} = some (.int 32) := by
  have hrun : (LoopGroups.build (attemptAll paddedNegations {})).toOption.any (fun groups =>
      let p : LoopPlan := ⟨attemptAll paddedNegations {}, groups⟩
      let e := p.fusion.extentsAt {}
      decide (p.fusion.ElementWise ⟨7⟩ ⟨10⟩ ∧ p.fusion.Freestanding ⟨7⟩ ∧ p.fusion.Sizes ⟨7⟩ e ∧
        p.fusion.Sized {} (p.fusion.axesOf ⟨7⟩) e ∧ p.Addressable ⟨7⟩ {} e ∧
        (∀ q ∈ (p.fusion.view ⟨7⟩).domain.root.zipIdx,
          0 ≤ lateElement q.2 ∧ lateElement q.2 < e q.1) ∧
        p.fusion.memoryOf ⟨7⟩ = .local ∧
        p.AtElement ⟨10⟩ (p.leafLoops ⟨10⟩) lateIteration lateElement ∧
        Computes (p.producerIndex ⟨7⟩ ⟨10⟩ (p.leafLoops ⟨10⟩)) lateIteration 29 ∧
        (p.allocationSize ⟨7⟩).evaluate {} = some (.int 32))) = true := by
    decide +kernel
  generalize hcalls : attemptAll paddedNegations {} = f at hrun
  obtain ⟨groups, hgroups, hchecks⟩ := (Option.any_eq_true _ _).1 hrun
  obtain ⟨hpair, hproducer, hsizes, hsized, hroom, hr, hmemory, hat, hread, hsize⟩ :=
    of_decide_eq_true hchecks
  have hbuild := Results.ok_of_toOption hgroups
  obtain ⟨x, address, hcell⟩ := exists_cell (p := ⟨f, groups⟩) hcalls hbuild hpair hproducer hsizes
    hsized hroom hr
  have hreads := hcell.read _ lateIteration ⟨rfl, rfl, rfl, rfl⟩ (loopsOver_leafLoops _ _) hat
  rw [hreads.unique hread] at hcell
  exact ⟨⟨f, groups⟩, rfl, hbuild, hmemory, ⟨x, hcell⟩, hat, hsize⟩

/-- Two negations of a matrix.  Both axes of the first one are split by `2 ^ 16`, a 32-bit number, and
the inner halves are merged: the extent of the merged axis wraps around to zero. -/
def wrappedNegations : List Call :=
  [.tensor [2, 3] [true, true] .float, .input ⟨0⟩, .unary .neg (.value ⟨0⟩),
    .unary .neg (.value ⟨7⟩), .output ⟨10⟩, .constantTyped (.int 65536) .int32,
    .split ⟨7⟩ 0 (.value ⟨11⟩) true, .split ⟨7⟩ 2 (.value ⟨11⟩) true, .merge ⟨7⟩ 1 3]

/-- No element has a cell in storage of size zero. -/
theorem wrappedNegations_no_cell :
    ∃ p : LoopPlan, attemptAll wrappedNegations {} = p.fusion ∧
      LoopGroups.build p.fusion = .ok p.groups ∧ p.fusion.ElementWise ⟨7⟩ ⟨10⟩ ∧
      p.fusion.Freestanding ⟨7⟩ ∧ p.fusion.Sized {} (p.fusion.axesOf ⟨7⟩) (p.fusion.extentsAt {}) ∧
      (∀ q ∈ (p.fusion.view ⟨7⟩).domain.root.zipIdx, 0 < p.fusion.extentsAt {} q.1) ∧
      p.fusion.memoryOf ⟨7⟩ = .local ∧ (p.allocationSize ⟨7⟩).evaluate {} = some (.int 0) ∧
      ¬ ∃ x address, p.Cell ⟨7⟩ ⟨10⟩ (p.fusion.extentsAt {}) {} (fun _ => 0) x address := by
  have hrun : (LoopGroups.build (attemptAll wrappedNegations {})).toOption.any (fun groups =>
      let p : LoopPlan := ⟨attemptAll wrappedNegations {}, groups⟩
      let e := p.fusion.extentsAt {}
      decide (p.fusion.ElementWise ⟨7⟩ ⟨10⟩ ∧ p.fusion.Freestanding ⟨7⟩ ∧
        p.fusion.Sized {} (p.fusion.axesOf ⟨7⟩) e ∧
        (∀ q ∈ (p.fusion.view ⟨7⟩).domain.root.zipIdx, 0 < e q.1) ∧
        p.fusion.memoryOf ⟨7⟩ = .local ∧
        (p.allocationSize ⟨7⟩).evaluate {} = some (.int 0))) = true := by
    decide +kernel
  generalize attemptAll wrappedNegations {} = f at hrun
  obtain ⟨groups, hgroups, hchecks⟩ := (Option.any_eq_true _ _).1 hrun
  obtain ⟨hpair, hproducer, hsized, hpos, hmemory, hsize⟩ := of_decide_eq_true hchecks
  refine ⟨⟨f, groups⟩, rfl, Results.ok_of_toOption hgroups, hpair, hproducer, hsized, hpos, hmemory,
    hsize, fun ⟨x, address, hcell⟩ => ?_⟩
  obtain ⟨n, hn, hlow, hhigh⟩ := hcell.allocated (by simp [hmemory])
  cases hsize.symm.trans hn
  omega

end LoopPlan
end FusionCompiler
