import FusionCompiler.Proofs.Lower.SharedLoops
import FusionCompiler.Proofs.Schedule.InheritedKinds

/-!
# Loops of its own

A tensor that is inlined nowhere, and that nothing is inlined into, shares none of
its loops.  Loop groups are joined along inlined edges, and no such edge meets the
axes of the tensor: an axis that descends from the roots of two tensors would make
one expression compute both of them, and then both would be inlined alike.

Main results:

- Theorem `Fusion.Rooted.kin_of_descends`: an axis descends from the roots of kin
  tensors only.
- Theorem `LoopGroups.build_apart`: groups join the axes of a detached tensor with
  nothing.
- Theorems `Fusion.Detached.concrete_eq` and `Fusion.Detached.parallel_cases`: a
  loop of a detached tensor runs over its own axis and is executed like it.
-/

namespace FusionCompiler

namespace Fusion

variable {f : Fusion} {u v : ValueId} {a b : AxisId}

/-- A tensor that is inlined nowhere, and that nothing is inlined into. -/
structure Detached (f : Fusion) (v : ValueId) : Prop where
  computeAt : (f.view v).computeAt = 0
  edges : ∀ x ∈ LoopGroups.inlinedEdges f, x.2 ≠ v

instance (f : Fusion) (v : ValueId) : Decidable (f.Detached v) :=
  decidable_of_iff ((f.view v).computeAt = 0 ∧ ∀ x ∈ LoopGroups.inlinedEdges f, x.2 ≠ v)
    ⟨fun h => ⟨h.1, h.2⟩, fun h => ⟨h.computeAt, h.edges⟩⟩

/-! ## Axes of different tensors -/

/-- An axis descends from the roots of kin tensors only. -/
theorem Rooted.kin_of_descends (h : Rooted f) (hu : f.Descends (f.view u).domain.root a)
    (hv : f.Descends (f.view v).domain.root a) : f.Kin u v := by
  -- back from the axis, both descents pass the same transforms
  obtain ⟨b, hbu, hbv⟩ := hu.exists_root (P := f.Descends (f.view v).domain.root)
    (fun t ht b hb hdesc => (h.unmade v).inputs_descend h.sound ht hb hdesc) hv
  cases hbv with
  | root hbv => exact h.own.apart u v b hbu hbv
  | made ht hb _ => exact absurd ⟨_, ht, hb⟩ (h.unmade u b hbu)

theorem Rooted.axesOf_descends (h : Rooted f) (ha : a ∈ f.axesOf v) :
    f.Descends (f.view v).domain.root a := by
  rcases List.mem_append.1 ha with ha | ha
  · exact .root ha
  · obtain ⟨t, ht, ha⟩ := List.mem_flatMap.1 ha
    apply (h.unmade v).history_descends h.sound (h.grounded v).leaf ht a
    exact List.mem_append_right _ ha

/-- Tensors that one expression computes are placed and inlined alike. -/
theorem Regular.view_eq (hr : Regular f) (hc : Computed f) (hu : f.isTensor u = true)
    (h : f.Kin u v) : f.isTensor v = true ∧ f.view v = f.view u := by
  rcases h with rfl | ⟨e, hue, hve⟩
  · exact ⟨hu, rfl⟩
  have humem := (hc.defines u e).1 hue
  have hvmem := (hc.defines v e).1 hve
  obtain ⟨x, hx, -⟩ := hr.sound.defined u e hue
  have hex : f.expr e = x := by rw [expr, hx]; rfl
  rw [hex] at humem hvmem
  have hv : f.isTensor v = true := by
    rcases (hr.sound.exprs e x hx).kinds with htensors | ⟨w, hw, -⟩
    · exact htensors v hvmem
    · rw [hw, List.mem_singleton] at humem hvmem
      rwa [hvmem, ← humem]
  refine ⟨hv, ?_⟩
  by_cases huv : v = u
  · rw [huv]
  · apply hr.together u hu v
    have hdef : f.definingExpr? u = some x := by simp [definingExpr?, hue, hex]
    simp [siblings, hdef, hvmem, huv, hv]

/-! ## What is matched -/

/-- What holds of the axes that pairs come from, and of all that the history of the source makes,
holds of every axis that has a counterpart. -/
theorem bestEffortMap_keys {P : AxisId → Prop} {source target : ValueId}
    {pairs : List (AxisId × AxisId)} (hpairs : ∀ q ∈ pairs, P q.1)
    (hhistory : ∀ t ∈ f.history source, ∀ b ∈ (f.transform t).outputs, P b)
    (h : (f.bestEffortMap source target pairs).get? a = some b) : P a := by
  have hinsert : ∀ (m : AxisMap) (c d : AxisId), (∀ a b, m.get? a = some b → P a) → P c →
      ∀ a b, (f.mapThrough (f.history target) m c d).get? a = some b → P a := by
    intro m c d hm hc a b hget
    rw [mapThrough_get?] at hget
    split at hget
    case isTrue heq => rwa [heq]
    case isFalse => exact hm a b hget
  refine List.foldlRecOn (motive := fun m : AxisMap => ∀ a b, m.get? a = some b → P a) _ _
    (List.foldlRecOn (motive := fun m : AxisMap => ∀ a b, m.get? a = some b → P a) _ _ ?_
      fun m hm q hq => hinsert m q.1 q.2 hm (hpairs q hq)) (fun m hm t ht => ?_) a b h
  · simp [AxisMap.get?]
  · have hout := hhistory t ht
    cases hx : f.transform t with
    | split input outer inner factor innerSplit =>
        rw [hx] at hout
        have ho := hout outer (by simp [Transform.outputs])
        have hi := hout inner (by simp [Transform.outputs])
        rw [matchTransform]
        split
        · split
          · exact hinsert _ inner _ (hinsert m outer _ hm ho) hi
          · exact hm
        · exact hm
    | merge outer inner output =>
        rw [hx] at hout
        have ho := hout output (by simp [Transform.outputs])
        rw [matchTransform]
        split
        · exact hinsert m output _ hm ho
        · exact hm

end Fusion

open Fusion

namespace LoopGroups

open DisjointSets Results

variable {f : Fusion} {m : LoopGroups} {v : ValueId} {a : AxisId}

/-! ## Groups of a detached tensor -/

/-- The same axis, or two axes that do not descend from the root of the tensor. -/
def ApartFrom (f : Fusion) (v : ValueId) (a b : AxisId) : Prop :=
  a = b ∨ ¬ f.Descends (f.view v).domain.root a ∧ ¬ f.Descends (f.view v).domain.root b

theorem apartFrom_equivalence (f : Fusion) (v : ValueId) : Equivalence (ApartFrom f v) where
  refl a := .inl rfl
  symm h := h.imp Eq.symm And.symm
  trans := by
    rintro a b c (rfl | ⟨ha, hb⟩) (rfl | ⟨hb', hc⟩)
    · exact .inl rfl
    · exact .inr ⟨hb', hc⟩
    · exact .inr ⟨ha, hb⟩
    · exact .inr ⟨ha, hc⟩

theorem ApartFrom.eq {b : AxisId} (h : ApartFrom f v a b)
    (ha : f.Descends (f.view v).domain.root a) : b = a := by
  rcases h with rfl | ⟨hnot, -⟩
  · rfl
  · exact absurd ha hnot

/-- Neither end of an inlined edge is kin to a detached tensor. -/
theorem not_kin_of_mem_inlinedEdges (hr : Regular f) (hc : Computed f) (hd : f.Detached v)
    {x : ValueId × ValueId} (hx : x ∈ inlinedEdges f) : ¬ f.Kin x.1 v ∧ ¬ f.Kin x.2 v := by
  obtain ⟨u, w⟩ := x
  obtain ⟨e, he, hin⟩ := List.mem_flatMap.1 hx
  obtain ⟨u', hu, hw⟩ := List.mem_flatMap.1 hin
  obtain ⟨w', hw, heq⟩ := List.mem_map.1 hw
  cases heq
  obtain ⟨hinput, hcompute⟩ := List.mem_filter.1 hu
  obtain ⟨hout, hwt⟩ := List.mem_filter.1 hw
  have hut : f.isTensor u = true := by
    simp only [tensorInputs, mem_foldl_addNew, List.mem_filter] at hinput
    exact (hinput.resolve_left List.not_mem_nil).2
  constructor
  · intro hkin
    have hview := (hr.view_eq hc hut hkin).2
    rw [← hview, hd.computeAt] at hcompute
    cases hcompute
  · -- the producer is inlined into all results of the expression
    intro hkin
    have hvt := (hr.view_eq hc hwt hkin).1
    have hmem : v ∈ (f.expr e).outputs := by
      rcases hkin with rfl | ⟨d, hwd, hvd⟩
      · exact hout
      · have hde := ((hc.defines w e).2 hout).symm.trans hwd
        cases hde
        exact (hc.defines v e).1 hvd
    refine hd.edges (u, v) (List.mem_flatMap.2 ⟨e, he, List.mem_flatMap.2 ⟨u, hu, ?_⟩⟩) rfl
    exact List.mem_map.2 ⟨v, List.mem_filter.2 ⟨hmem, hvt⟩, rfl⟩

section Apart

variable (hf : Rooted f) (hr : Regular f) (hd : f.Detached v)

include hf hr hd

/-- Joining an inlined edge joins the axes of a detached tensor with nothing. -/
theorem joinEdge_apart {s s' : DisjointSets AxisId} {x : ValueId × ValueId}
    (hx : x ∈ inlinedEdges f) (hs : Within (ApartFrom f v) s) (h : joinEdge f s x.1 x.2 = .ok s') :
    Within (ApartFrom f v) s' := by
  have hR := apartFrom_equivalence f v
  obtain ⟨hsource, htarget⟩ := not_kin_of_mem_inlinedEdges hr hf.own.computed hd hx
  unfold joinEdge at h
  obtain ⟨pairs, hpairs, h⟩ := bind_eq_ok.1 h
  obtain rfl := eq_of_rootPairs? hpairs
  -- counterparts descend from the roots of the two ends, and neither is kin to the tensor
  have himages : ∀ a b, (f.bestEffortMap x.1 x.2 (f.rootPairs x.1 x.2)).get? a = some b →
      ApartFrom f v a b := by
    intro a b hget
    have ha : f.Descends (f.view x.1).domain.root a := by
      refine bestEffortMap_keys (fun q hq => ?_) (fun t ht c hc => ?_) hget
      · exact (hf.grounded x.1).logical q.1 (List.mem_filter.1 (mem_of_mem_rootPairs hq).1).1
      · exact (hf.unmade x.1).history_descends hf.sound (hf.grounded x.1).leaf ht c
          (List.mem_append_right _ hc)
    have hb : f.Descends (f.view x.2).domain.root b := by
      refine bestEffortMap_images (fun t ht c hc => ?_) (fun q hq => ?_) b
        (AxisMap.mem_images_of_get? hget)
      · exact (hf.unmade x.2).history_descends hf.sound (hf.grounded x.2).leaf ht c
          (List.mem_append_right _ hc)
      · exact .root (mem_of_mem_rootPairs hq).2
    exact .inr ⟨fun hdesc => hsource (hf.kin_of_descends ha hdesc),
      fun hdesc => htarget (hf.kin_of_descends hb hdesc)⟩
  refine foldlM_keeps (fun q _ s s' hs hstep => ?_) hs h
  dsimp only at hstep
  split at hstep
  case h_2 => cases hstep
  case h_1 target hget =>
      cases hstep
      have hleaf := himages q.1 target (Option.filter_eq_some_iff.1 hget).1
      unfold joinLeaf
      refine List.foldlRecOn (motive := Within (ApartFrom f v)) _ _ (hs.union hR hleaf)
        fun s hs a _ => ?_
      split
      next b hb => exact hs.union hR (himages a b hb)
      next => exact hs

/-- Groups join the axes of a detached tensor with nothing. -/
theorem build_apart (h : build f = .ok m) : Within (ApartFrom f v) m.sets ∧
    ∀ g ∈ m.groups, (∀ a ∈ g.members, ApartFrom f v a g.name) ∧ ApartFrom f v g.concrete g.name :=
  build_within (apartFrom_equivalence f v)
    (fun _ hx _ _ hs hjoin => joinEdge_apart hf hr hd hx hs hjoin) h

end Apart

/-- The binding of axes that are executed alike is theirs, unless they are serial. -/
theorem commonBinding_cases {name : AxisId} {members : List AxisId} {q r : ParallelType}
    (hmembers : ∀ a ∈ members, (f.axis a).parallel = q)
    (h : commonBinding f name members = .ok r) : r = .serial ∨ r = q := by
  refine foldlM_keeps (P := fun bound => bound = .serial ∨ bound = q)
    (fun a ha bound bound' hbound hstep => ?_) (.inl rfl) h
  dsimp only at hstep
  rw [hmembers a ha] at hstep
  split at hstep
  · cases hstep
    exact hbound
  · split at hstep
    · cases hstep
      exact .inr rfl
    · cases hstep

end LoopGroups

namespace Fusion.Detached

open LoopGroups DisjointSets Results

variable {f : Fusion} {m : LoopGroups} {v : ValueId} {a : AxisId}
  (hd : f.Detached v) (hf : Rooted f) (hr : Regular f) (h : LoopGroups.build f = .ok m)

include hd hf hr h

theorem name_eq (ha : f.Descends (f.view v).domain.root a) : m.name a = a :=
  ((build_apart hf hr hd h).1.find (apartFrom_equivalence f v) a).eq ha

/-- Axes of other tensors are in other groups. -/
theorem not_descends_name (ha : ¬ f.Descends (f.view v).domain.root a) :
    ¬ f.Descends (f.view v).domain.root (m.name a) := by
  intro hname
  have hapart := (build_apart hf hr hd h).1.find (apartFrom_equivalence f v) a
  have heq := ((apartFrom_equivalence f v).symm hapart).eq hname
  exact ha (heq ▸ hname)

/-- The group of an axis of a detached tensor is named by the axis. -/
theorem group_cases (ha : f.Descends (f.view v).domain.root a) {g : LoopGroup}
    (hget : m.get? a = some g) : g ∈ m.groups ∧ g.name = a := by
  refine ⟨List.mem_of_find?_eq_some hget, ?_⟩
  have hname := List.find?_some hget
  rw [hd.name_eq hf hr h ha] at hname
  exact eq_of_beq hname

/-- The loop of an axis of a detached tensor runs over the axis. -/
theorem concrete_eq (ha : f.Descends (f.view v).domain.root a) : m.concrete a = a := by
  unfold concrete
  cases hget : m.get? a with
  | none => rfl
  | some g =>
      obtain ⟨hmem, hname⟩ := hd.group_cases hf hr h ha hget
      have hconcrete := ((build_apart hf hr hd h).2 g hmem).2
      rw [hname] at hconcrete
      exact ((apartFrom_equivalence f v).symm hconcrete).eq ha

/-- The loop of an axis of a detached tensor is executed like the axis. -/
theorem parallel_cases (ha : f.Descends (f.view v).domain.root a) :
    m.parallel a = .serial ∨ m.parallel a = (f.axis a).parallel := by
  unfold parallel
  cases hget : m.get? a with
  | none => exact .inl rfl
  | some g =>
      obtain ⟨hmem, hname⟩ := hd.group_cases hf hr h ha hget
      obtain ⟨name, -, hgroup⟩ := mem_mapM (build_cases h).2 hmem
      obtain ⟨bound, hbound, heq⟩ := bind_eq_ok.1 hgroup
      cases heq
      apply commonBinding_cases _ hbound
      intro b hb
      have hapart := ((build_apart hf hr hd h).2 _ hmem).1 b hb
      rw [hname] at hapart
      rw [((apartFrom_equivalence f v).symm hapart).eq ha]

end Fusion.Detached
end FusionCompiler
