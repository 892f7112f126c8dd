import FusionCompiler.Proofs.Schedule.FactoredShapes
import FusionCompiler.Proofs.Schedule.FailedCalls

/-!
# Inherited kinds

A split gives the kind of its input to both outputs, and a merge makes the kind of
its output of those of its inputs.  Kinds of axes never change afterwards, but for
the iterations that the partial tensor of a factored reduction gets in the place of
reductions.  So the axes of every tensor that is not factored have the kinds that
its transforms give them.  No tensor can be factored twice, which is why factoring
may rely on it.

Main results:

- Theorem `Fusion.WellKinded.advance`: new transforms that give their axes the right
  kinds keep a fusion well-kinded.
- Theorem `Schedule.replay_keepsKinds`: replays transform axes so.
- Theorem `Schedule.rfactor_wellKinded`: factoring a reduction keeps a fusion
  well-kinded.
- Theorem `Fusion.attemptAll_wellKinded`: every sequence of calls leads to a
  well-kinded fusion.
- Theorem `Fusion.WellKinded.history`: the history of a tensor that is not factored
  gives its axes their kinds.
-/

namespace FusionCompiler

namespace Fusion

variable {f f' f₁ f₂ : Fusion} {root : List AxisId} {a : AxisId} {v : ValueId} {x : Transform}

/-! ## Kinds and descent -/

/-- Axes that keep their kinds. -/
theorem KindsFollow.congr (h : f.KindsFollow x)
    (hkind : ∀ a ∈ x.inputs ++ x.outputs, (f'.axis a).kind = (f.axis a).kind) :
    f'.KindsFollow x := by
  cases x with
  | split a o i k innerSplit =>
      simp only [Transform.inputs, Transform.outputs, List.cons_append, List.nil_append,
        List.mem_cons, List.not_mem_nil, or_false, forall_eq_or_imp, forall_eq] at hkind
      simpa only [KindsFollow, hkind] using h
  | merge o i out =>
      simp only [Transform.inputs, Transform.outputs, List.cons_append, List.nil_append,
        List.mem_cons, List.not_mem_nil, or_false, forall_eq_or_imp, forall_eq] at hkind
      simpa only [KindsFollow, hkind] using h

/-- The axes of a recorded transform exist. -/
theorem Recorded.hasAxis (h : f.Recorded x) (ha : a ∈ x.inputs ++ x.outputs) : f.HasAxis a := by
  rcases List.mem_append.1 ha with ha | ha
  · exact h.hasAxis_input ha
  · exact h.hasAxis_output ha

namespace Descends

/-- What passes from the outputs of a transform to its inputs comes from a root axis. -/
theorem exists_root {P : AxisId → Prop} (h : f.Descends root a)
    (hback : ∀ t, f.HasTransform t → ∀ b ∈ (f.transform t).outputs, P b →
      ∀ a ∈ (f.transform t).inputs, P a) (ha : P a) : ∃ b ∈ root, P b := by
  induction h with
  | root hmem => exact ⟨_, hmem, ha⟩
  | @made t b ht hb _ ih =>
      obtain ⟨c, hc⟩ := List.exists_mem_of_ne_nil _ (f.transform t).inputs_ne_nil
      exact ih c hc (hback t ht b hb ha c hc)

/-- Two roots that no transform makes share an axis if one axis descends from both. -/
theorem exists_shared {root' : List AxisId} (hf : Sound f) (hroot : f.Unmade root)
    (hroot' : f.Unmade root') (h : f.Descends root a) (h' : f.Descends root' a) :
    ∃ b ∈ root, b ∈ root' := by
  obtain ⟨b, hb, hdescends⟩ := h.exists_root
    (fun t ht b hb hd => hroot'.inputs_descend hf ht hb hd) h'
  cases hdescends with
  | root hmem => exact ⟨b, hb, hmem⟩
  | made ht hout _ => exact absurd ⟨_, ht, hout⟩ (hroot b hb)

/-- Where new transforms make new axes, an old axis descends as it did before. -/
theorem before (h : f'.Descends root a) (hf : Sound f) (hext : Extends f f')
    (hmakes : ∀ t, ¬ f.HasTransform t → f'.HasTransform t →
      ∀ b ∈ (f'.transform t).outputs, ¬ f.HasAxis b) (ha : f.HasAxis a) : f.Descends root a := by
  induction h with
  | root hmem => exact .root hmem
  | @made t b ht hb _ ih =>
      by_cases hold : f.HasTransform t
      · rw [hext.transform t hold] at hb ih
        exact .made hold hb fun c hc => ih c hc ((hf.recorded t hold).hasAxis_input hc)
      · exact absurd ha (hmakes t hold ht b hb)

end Descends

/-- Tensors that share a root axis have one view. -/
theorem OwnAxes.view_eq {u : ValueId} (hown : OwnAxes f []) (hf : Regular f)
    (hv : a ∈ (f.view v).domain.root) (hu : a ∈ (f.view u).domain.root) :
    f.view v = f.view u := by
  rcases hown.apart v u a hv hu with rfl | ⟨e, hve, hue⟩
  · rfl
  · obtain ⟨y, hy, hmem⟩ := hf.sound.defined v e hve
    obtain ⟨z, hz, hmem'⟩ := hf.sound.defined u e hue
    rw [hy] at hz
    cases hz
    exact hf.shares hy hmem' hmem

/-! ## Well-kinded fusions -/

/-- What steps do that leave the kinds of the axes there are alone and make new axes only.  Every
tensor has the root of an earlier tensor, or a root of new axes. -/
structure LeavesKinds (f f' : Fusion) : Prop where
  ext : Extends f f'
  kind : ∀ a, f.HasAxis a → (f'.axis a).kind = (f.axis a).kind
  makes : ∀ t, ¬ f.HasTransform t → f'.HasTransform t →
    ∀ b ∈ (f'.transform t).outputs, ¬ f.HasAxis b
  root : ∀ v, (∃ u, (f'.view v).domain.root = (f.view u).domain.root ∧
      (f'.view v).domain.rfactor = (f.view u).domain.rfactor) ∨
    ∀ a ∈ (f'.view v).domain.root, ¬ f.HasAxis a

/-- Steps one after another leave kinds alone. -/
protected theorem LeavesKinds.trans (h : LeavesKinds f f₁) (h' : LeavesKinds f₁ f') :
    LeavesKinds f f' where
  ext := h.ext.trans h'.ext
  kind a ha := (h'.kind a (h.ext.hasAxis ha)).trans (h.kind a ha)
  makes t hnot ht b hb hold := by
    by_cases ht₁ : f₁.HasTransform t
    · rw [h'.ext.transform t ht₁] at hb
      exact h.makes t hnot ht₁ b hb hold
    · exact h'.makes t ht₁ ht b hb (h.ext.hasAxis hold)
  root v := by
    rcases h'.root v with ⟨u, hroot, hrfactor⟩ | hnew
    · rcases h.root u with ⟨w, hroot', hrfactor'⟩ | hnew
      · exact .inl ⟨w, hroot.trans hroot', hrfactor.trans hrfactor'⟩
      · rw [hroot]
        exact .inr hnew
    · exact .inr fun a ha hold => hnew a ha (h.ext.hasAxis hold)

/-- The transforms of such steps give their axes the right kinds and extents. -/
structure KeepsKinds (f f' : Fusion) : Prop extends LeavesKinds f f' where
  sound : Sound f'
  new : ∀ t, ¬ f.HasTransform t → f'.HasTransform t →
    f'.KindsFollow (f'.transform t) ∧ f'.Measured (f'.transform t)

namespace KeepsKinds

/-- Steps without transforms. -/
theorem ofTransforms (hf : Sound f') (hext : Extends f f')
    (htransforms : f'.transforms = f.transforms)
    (hkind : ∀ a, f.HasAxis a → (f'.axis a).kind = (f.axis a).kind)
    (hroot : ∀ v, (∃ u, (f'.view v).domain.root = (f.view u).domain.root ∧
        (f'.view v).domain.rfactor = (f.view u).domain.rfactor) ∨
      ∀ a ∈ (f'.view v).domain.root, ¬ f.HasAxis a) : KeepsKinds f f' := by
  have hnone : ∀ t, ¬ f.HasTransform t → ¬ f'.HasTransform t := by
    intro t hnot ht
    rw [HasTransform, htransforms] at ht
    exact hnot ht
  exact ⟨⟨hext, hkind, fun t hnot ht => absurd ht (hnone t hnot), hroot⟩, hf,
    fun t hnot ht => absurd ht (hnone t hnot)⟩

/-- Steps without transforms after which every tensor shows an earlier view. -/
theorem ofViews (hf : Sound f') (hext : Extends f f') (htransforms : f'.transforms = f.transforms)
    (hkind : ∀ a, f.HasAxis a → (f'.axis a).kind = (f.axis a).kind)
    (hview : ∀ v, ∃ u, f'.view v = f.view u) : KeepsKinds f f' :=
  .ofTransforms hf hext htransforms hkind fun v => by
    obtain ⟨u, hu⟩ := hview v
    exact .inl ⟨u, by rw [hu], by rw [hu]⟩

/-- Changes of axes that leave their kinds alone. -/
theorem ofSameExtents (hf : Sound f) (h : SameExtents f f')
    (hkind : ∀ a, f.HasAxis a → (f'.axis a).kind = (f.axis a).kind) : KeepsKinds f f' :=
  .ofViews (hf.sameExtents h) h.toExtends h.transforms hkind fun v => ⟨v, h.view v⟩

/-- Doing nothing keeps kinds. -/
protected theorem refl (hf : Sound f) : KeepsKinds f f :=
  .ofViews hf (.refl f) rfl (fun _ _ => rfl) fun v => ⟨v, rfl⟩

/-- Steps one after another keep kinds. -/
protected theorem trans (h : KeepsKinds f f₁) (h' : KeepsKinds f₁ f') : KeepsKinds f f' where
  toLeavesKinds := h.toLeavesKinds.trans h'.toLeavesKinds
  sound := h'.sound
  new t hnot ht := by
    by_cases ht₁ : f₁.HasTransform t
    · obtain ⟨hkinds, hmeasured⟩ := h.new t hnot ht₁
      have hrecorded := h.sound.recorded t ht₁
      rw [h'.ext.transform t ht₁]
      exact ⟨hkinds.congr fun a ha => h'.kind a (hrecorded.hasAxis ha),
        hmeasured.mono h.sound.extents hrecorded h'.ext⟩
    · exact h'.new t ht₁ ht

/-- Recording a transform. -/
theorem ofRecords (h : Records f f' x) : KeepsKinds f f' := by
  have hlast : ∀ t, ¬ f.HasTransform t → f'.HasTransform t → f'.transform t = x := by
    intro t hnot ht
    rw [HasTransform, h.transforms, Array.size_push] at ht
    have hindex : t = ⟨f.transforms.size⟩ := by
      cases t
      simp only [HasTransform, TransformId.mk.injEq] at hnot ht ⊢
      omega
    rw [hindex, h.transform_last]
  refine ⟨⟨h.ext, fun a ha => by rw [h.axis a ha], fun t hnot ht => ?_,
    fun v => .inl ⟨v, by rw [h.view], by rw [h.view]⟩⟩, h.sound, fun t hnot ht => ?_⟩
  · rw [hlast t hnot ht]
    exact h.fresh
  · rw [hlast t hnot ht]
    exact ⟨h.kinds, h.measured⟩

/-- A change of a view and its siblings that leaves the root alone. -/
theorem modify_sync {g : TensorView → TensorView} (hf : Sound f)
    (hlisted : ∀ a ∈ (g (f.view v)).domain.listed, f.HasAxis a)
    (hroot : (g (f.view v)).domain.root = (f.view v).domain.root)
    (hrfactor : (g (f.view v)).domain.rfactor = (f.view v).domain.rfactor) :
    KeepsKinds f ((f.modifyView v g).syncSiblings v) := by
  obtain ⟨hsound, hext⟩ := hf.modify_sync hlisted
  have hsame := sameGraph_modify_sync f v g
  refine .ofTransforms hsound hext hsame.transforms (fun a _ => ?_) fun w => .inl ?_
  · rw [Fusion.axis, hsame.axes, Fusion.axis]
  · rcases view_modify_sync_cases f v w g with ⟨u, hu⟩ | hu
    · exact ⟨u, by rw [hu], by rw [hu]⟩
    · exact ⟨v, by rw [hu, hroot], by rw [hu, hrfactor]⟩

/-- Building steps that keep axes apart, and leave the tensors there are alone.  A new tensor whose
root has an old axis would have it from a tensor with the same definition: any other old axis could
as well have been spare. -/
theorem ofOwns (hf' : Regular f') (hext : Extends f f') (hown : OwnAxes f [])
    (howns : ∀ spare, OwnAxes f spare → OwnAxes f' spare)
    (htransforms : f'.transforms = f.transforms)
    (hkind : ∀ a, f.HasAxis a → (f'.axis a).kind = (f.axis a).kind)
    (hview : ∀ v, f.HasValue v → f'.view v = f.view v) : KeepsKinds f f' := by
  refine .ofTransforms hf'.sound hext htransforms hkind fun v => ?_
  by_cases hv : f.HasValue v
  · exact .inl ⟨v, by rw [hview v hv], by rw [hview v hv]⟩
  by_cases hnew : ∀ a ∈ (f'.view v).domain.root, ¬ f.HasAxis a
  · exact .inr hnew
  left
  simp only [not_forall, not_not] at hnew
  obtain ⟨a, ha, hold⟩ := hnew
  have hown' := howns [] hown
  have hunmade : ¬ f.Made a := fun hmade => (hown'.root v a ha).2.1 (hmade.mono hext)
  by_cases htaken : ∃ u, a ∈ (f.view u).domain.root
  · obtain ⟨u, hu⟩ := htaken
    have hhas : f.HasValue u := by
      by_contra hnot
      rw [view_of_not_hasValue hnot] at hu
      cases hu
    have hu' : a ∈ (f'.view u).domain.root := by rwa [hview u hhas]
    have hsame := hown'.view_eq hf' ha hu'
    exact ⟨u, by rw [hsame, hview u hhas], by rw [hsame, hview u hhas]⟩
  · have hspare : OwnAxes f [a] := by
      refine ⟨fun w b hb => ?_, List.nodup_singleton a, ?_, hown.made, hown.apart, hown.logical,
        hown.computed⟩
      · obtain ⟨hhas, hnot, -⟩ := hown.root w b hb
        refine ⟨hhas, hnot, fun hmem => htaken ⟨w, ?_⟩⟩
        rwa [← List.mem_singleton.1 hmem]
      · intro b hb
        rw [List.mem_singleton.1 hb]
        exact ⟨hold, hunmade⟩
    exact absurd (List.mem_singleton_self a) ((howns [a] hspare).root v a ha).2.2

end KeepsKinds

/-- A rooted fusion in which transforms compute the extents they stand for, and in which the axes of
a tensor that is not factored have the kinds that its transforms give them. -/
structure WellKinded (f : Fusion) : Prop extends Rooted f where
  measured : ∀ t, f.HasTransform t → f.Measured (f.transform t)
  kinds : ∀ v, (f.view v).domain.rfactor = none → ∀ t, f.HasTransform t →
    ∀ a ∈ (f.transform t).inputs, f.Descends (f.view v).domain.root a →
      f.KindsFollow (f.transform t)

namespace WellKinded

/-- The history of a tensor that is not factored gives its axes their kinds. -/
theorem history (h : WellKinded f) (hrfactor : (f.view v).domain.rfactor = none) {t : TransformId}
    (ht : t ∈ f.history v) : f.KindsFollow (f.transform t) := by
  obtain ⟨a, ha⟩ := List.exists_mem_of_ne_nil _ (f.transform t).inputs_ne_nil
  refine h.kinds v hrfactor t (hasTransform_of_mem_transformsBetween ht) a ha ?_
  exact (h.unmade v).history_descends h.sound (h.grounded v).leaf ht a (List.mem_append_left _ ha)

/-- Steps the new transforms of which give their axes the right kinds, or are about axes that descend
from the root of factored tensors only. -/
theorem advance (h : WellKinded f) (hf' : Rooted f') (hl : LeavesKinds f f')
    (hmeasured : ∀ t, ¬ f.HasTransform t → f'.HasTransform t → f'.Measured (f'.transform t))
    (hroot : f'.Unmade root)
    (hapart : ∀ v, (f'.view v).domain.rfactor = none → ∀ a ∈ (f'.view v).domain.root, a ∉ root)
    (hkinds : ∀ t, ¬ f.HasTransform t → f'.HasTransform t → f'.KindsFollow (f'.transform t) ∨
      ∀ a ∈ (f'.transform t).inputs, f'.Descends root a) : WellKinded f' := by
  refine ⟨hf', fun t ht => ?_, fun v hrfactor t ht a ha hdescends => ?_⟩
  · by_cases hold : f.HasTransform t
    · rw [hl.ext.transform t hold]
      exact (h.measured t hold).mono h.sound.extents (h.sound.recorded t hold) hl.ext
    · exact hmeasured t hold ht
  by_cases hold : f.HasTransform t
  · have hrecorded := h.sound.recorded t hold
    rw [hl.ext.transform t hold] at ha ⊢
    have hhas := hrecorded.hasAxis_input ha
    rcases hl.root v with ⟨u, hu, hru⟩ | hnew
    · rw [hu] at hdescends
      rw [hru] at hrfactor
      have hbefore := hdescends.before h.sound hl.ext hl.makes hhas
      exact (h.kinds u hrfactor t hold a ha hbefore).congr fun b hb =>
        hl.kind b (hrecorded.hasAxis hb)
    · -- what descends from new axes is new
      obtain ⟨b, hb, hhasb⟩ := hdescends.exists_root (P := f.HasAxis) (fun s hs b hb hhas c hc => by
        by_cases hsold : f.HasTransform s
        · rw [hl.ext.transform s hsold] at hc
          exact (h.sound.recorded s hsold).hasAxis_input hc
        · exact absurd hhas (hl.makes s hsold hs b hb)) hhas
      exact absurd hhasb (hnew b hb)
  · rcases hkinds t hold ht with hfollow | hfactored
    · exact hfollow
    · obtain ⟨b, hb, hb'⟩ := hdescends.exists_shared hf'.sound (hf'.unmade v) hroot (hfactored a ha)
      exact absurd hb' (hapart v hrfactor b hb)

/-- Steps the transforms of which give their axes the right kinds. -/
theorem keeps (h : WellKinded f) (hf' : Rooted f') (hk : KeepsKinds f f') : WellKinded f' :=
  h.advance hf' hk.toLeavesKinds (fun t hnot ht => (hk.new t hnot ht).2)
    (show f'.Unmade [] by simp [Unmade]) (by simp) fun t hnot ht => .inl (hk.new t hnot ht).1

end WellKinded
end Fusion

open Fusion

namespace Schedule

variable {f f' f₁ f₂ : Fusion} {tensor v : ValueId} {m m' : AxisMap} {ts : List TransformId}
  {root leaf : List AxisId} {p : Factoring} {d : TensorDomain}

/-! ## Leaves -/

/-- A split factor is new, or was there. -/
theorem resolveFactor_keepsKinds {factor : SplitFactor} {k : ValueId} (hf : Sound f)
    (h : (resolveFactor tensor factor).Returns f k f') : KeepsKinds f f' := by
  obtain ⟨hb, -, hview, haxes, -⟩ := resolveFactor_builds hf h
  refine .ofViews hb.sound hb.ext hb.transforms (fun a _ => ?_) fun v => ⟨v, hview v⟩
  rw [Fusion.axis, haxes, Fusion.axis]

/-- Other leaves are no other kinds. -/
theorem setLeaf_keepsKinds {u : Unit} (hf : Sound f) (hleaf : ∀ a ∈ leaf, f.HasAxis a)
    (h : Edit.Gives (setLeaf v leaf) f u f') : KeepsKinds f f' := by
  obtain rfl := Edit.gives_modify.1 h
  refine .modify_sync (g := (·.withLeaf leaf)) hf (fun a ha => ?_) rfl rfl
  rcases List.mem_append.1 ha with ha | ha
  · exact hf.domains v a (List.mem_append_left _ ha)
  · exact hleaf a ha

/-- Recording a transform of leaves and putting its outputs in the place of its inputs. -/
theorem record_keepsKinds {x : Transform} {u : Unit} (hf : Sound f) (hrec : Records f f₁ x)
    (hperm : (leaf ++ x.inputs).Perm (f.leaf v ++ x.outputs))
    (hset : Edit.Gives (setLeaf v leaf) f₁ u f') : KeepsKinds f f' := by
  refine (KeepsKinds.ofRecords hrec).trans (setLeaf_keepsKinds hrec.sound (fun a ha => ?_) hset)
  rcases List.mem_append.1 (hperm.mem_iff.1 (List.mem_append_left _ ha)) with hold | hout
  · exact hrec.ext.hasAxis (hf.domains v a (List.mem_append_right _ hold))
  · exact hrec.recorded.hasAxis_output hout

/-- A split gives both halves the kind of the axis that it splits. -/
theorem split_keepsKinds {axis : Int} {factor : SplitFactor} {innerSplit : Bool} (hf : Sound f)
    (h : (split tensor axis factor innerSplit).Leaves f f') : KeepsKinds f f' := by
  obtain ⟨u, h⟩ | h := EditE.leaves_iff.1 h
  · obtain ⟨p, k, f₁, f₂, a, o, i, -, -, hk, hget, hrec, hset⟩ := returns_split hf h
    have hfactor := resolveFactor_keepsKinds hf hk
    exact hfactor.trans (record_keepsKinds hfactor.sound hrec (split_perm hget) hset)
  · obtain rfl | ⟨k, hk⟩ := fails_split h
    · exact .refl hf
    · exact resolveFactor_keepsKinds hf hk

/-- A merge gives its output the kind that its halves have together. -/
theorem merge_keepsKinds {outer inner : Int} (hf : Sound f)
    (h : (merge tensor outer inner).Leaves f f') : KeepsKinds f f' := by
  obtain ⟨u, h⟩ | h := EditE.leaves_iff.1 h
  · obtain ⟨p, q, f₁, a, b, out, -, -, -, hne, ha, hb, hrec, hset⟩ := returns_merge hf h
    exact record_keepsKinds hf hrec (placeMerged_perm_of_ne hne ha hb) hset
  · rw [← merge_atomic _ _ _ f f' h]
    exact .refl hf

/-- Another order of leaves is no other kind. -/
theorem reorder_keepsKinds {moves : List (Int × Int)} (hf : Sound f)
    (h : (reorder tensor moves).Leaves f f') : KeepsKinds f f' := by
  obtain ⟨u, h⟩ | h := EditE.leaves_iff.1 h
  · obtain ⟨positions, -, -, hvalid, hset⟩ := returns_reorder h
    refine setLeaf_keepsKinds hf (fun a ha => ?_) hset
    exact hf.domains tensor a (List.mem_append_right _ ((applyMoves_perm hvalid).mem_iff.1 ha))
  · rw [← reorder_atomic _ _ f f' h]
    exact .refl hf

/-! ## Replays -/

section Replay

variable {g : ReplayGoal} {prog prog' : Progress} {source target : ValueId}
  {pairs : List (AxisId × AxisId)} {pos n : Nat} {mode : ReplayMode}
  {unmappable : AxisId → ScheduleError}

/-- A replayed transform gives its outputs the kinds that its inputs make. -/
theorem Replayed.keepsKinds {steady : Prop} {x : Transform}
    (h : Replayed steady g f prog x f' prog') (hf : Sound f) : KeepsKinds f f' := by
  cases h with
  | idle _ | passed _ _ _ => exact .refl hf
  | recorded _ _ _ _ hrec _ _ => exact .ofRecords hrec

/-- Replaying transforms one after another. -/
theorem replayTransforms_keepsKinds (hf : Sound f) (hroot : ∀ a ∈ g.root, f.HasAxis a)
    (hts : ∀ t ∈ ts, f.HasTransform t) (hleaf : ∀ a ∈ prog.leaf, f.HasAxis a)
    (himages : f.Images prog.images)
    (h : (replayTransforms g ts prog).Returns f prog' f') : KeepsKinds f f' := by
  induction ts generalizing f prog with
  | nil =>
      obtain ⟨-, rfl⟩ := EditE.returns_pure.1 h
      exact .refl hf
  | cons t ts ih =>
      obtain ⟨prog₁, f₁, hstep, h⟩ := EditE.returns_bind.1 h
      have hone : Replayed False g f prog (f.transform t) f₁ prog₁ :=
        replayTransform_replayed hf (hts t List.mem_cons_self) hleaf himages False.elim hstep
      have hruns := hone.replays hf hroot hleaf himages
      exact (hone.keepsKinds hf).trans (ih hruns.sound (fun a ha => hruns.ext.hasAxis (hroot a ha))
        (fun s hs => hruns.ext.hasTransform (hts s (List.mem_cons_of_mem t hs))) hruns.leaf
        hruns.images h)

/-- The first transforms of a replay. -/
theorem replayed_start_keepsKinds {done : List TransformId} (hf : Sound f)
    (hpairs : ∀ q ∈ pairs, f.HasAxis q.2) (hdone : done <+: neededTransforms f source target pos)
    (h : (replayTransforms (.of f source target mode unmappable) done
      (.start f source target pairs)).Returns f prog f') : KeepsKinds f f' := by
  refine replayTransforms_keepsKinds hf (fun a ha => ?_)
    (fun t ht => hasTransform_of_mem_transformsBetween (hdone.subset ht))
    (fun a ha => hf.domains target a (List.mem_append_right _ ha))
    (Images.bestEffortMap hf hpairs) h
  exact hf.domains target a (List.mem_append_left _ (List.mem_append_left _ ha))

/-- A replay keeps kinds, whether it returns or fails. -/
theorem replay_keepsKinds (hf : Sound f) (hpairs : ∀ q ∈ pairs, f.HasAxis q.2)
    (h : (replay source target pairs pos mode unmappable).Leaves f f') : KeepsKinds f f' := by
  obtain ⟨n, h⟩ | h := EditE.leaves_iff.1 h
  · obtain ⟨prog, f₁, leaf, leading, f₂, newLeaf, hrun, hcollect, rfl, -, -, rfl⟩ :=
      returns_replay.1 h
    have hruns := replayTransforms_start hf hpairs False.elim hrun
    obtain ⟨hexpose, hleading, -, rfl⟩ := returns_collectLeading.1 hcollect
    refine (replayed_start_keepsKinds hf hpairs (List.prefix_refl _) hrun).trans ?_
    refine setLeaf_keepsKinds (u := ()) hruns.sound (fun a ha => ?_) (Edit.gives_modify.2 rfl)
    rcases List.mem_append.1 ha with ha | ha
    · rw [show leading = _ from hleading] at ha
      obtain ⟨b, -, hget⟩ :=
        List.mem_filterMap.1 ((mem_foldl_addNew.1 ha).resolve_left List.not_mem_nil)
      exact hruns.images.get? hget
    · exact exposeAll_hasAxis hruns.sound hruns.leaf hexpose a (List.mem_filter.1 ha).1
  · obtain ⟨done, prog, hdone, hrun⟩ := run_of_fails_replay h
    exact replayed_start_keepsKinds hf hpairs hdone hrun

/-- A replay from consumer to producer keeps kinds. -/
theorem replayOntoProducer_keepsKinds {roots : Option RootMap} {producer consumer : ValueId}
    (hf : Sound f) (h : (replayOntoProducer replay roots producer consumer pos mode).Leaves f f') :
    KeepsKinds f f' := by
  unfold replayOntoProducer at h
  obtain rfl | ⟨g, hget, h⟩ := EditE.Reads.get.leaves_bind h
  · exact .refl hf
  obtain ⟨rfl, -⟩ := EditE.returns_get.1 hget
  obtain rfl | ⟨_, -, h⟩ := (EditE.Reads.ensure _ _).leaves_bind h
  · exact .refl hf
  refine replay_keepsKinds hf (fun q hq => ?_) h
  obtain ⟨r, hr, rfl⟩ := List.mem_map.1 hq
  exact (hasAxis_seedPairs hf hr).1

/-- A replay from producer to consumer keeps kinds. -/
theorem replayOntoConsumer_keepsKinds {roots : Option RootMap} {consumer producer : ValueId}
    (hf : Sound f) (h : (replayOntoConsumer replay roots consumer producer pos mode).Leaves f f') :
    KeepsKinds f f' := by
  have hpairs : ∀ q ∈ seedPairs f roots producer consumer, f.HasAxis q.2 := fun q hq =>
    (hasAxis_seedPairs hf hq).2
  obtain ⟨n, h⟩ | h := EditE.leaves_iff.1 h
  · exact replay_keepsKinds hf hpairs (returns_replayOntoConsumer.1 h).2.2.leaves
  · obtain rfl | h := fails_replayOntoConsumer h
    · exact .refl hf
    · exact replay_keepsKinds hf hpairs h.leaves

end Replay

/-- Raising positions leaves domains alone. -/
theorem updateView_keepsKinds {g : TensorView → TensorView} {u : Unit} (hf : Sound f)
    (hg : ∀ x, (g x).domain = x.domain) (h : Edit.Gives (updateView v g) f u f') :
    KeepsKinds f f' := by
  obtain rfl := Edit.gives_modify.1 h
  refine .modify_sync hf (fun a ha => ?_) (by rw [hg]) (by rw [hg])
  rw [hg] at ha
  exact hf.domains v a ha

/-- Kinds that come from inputs stay so under replays. -/
theorem replays_wellKinded : KeptByReplays WellKinded where
  producer roots producer consumer pos mode f f' hf h :=
    hf.keeps (replayOntoProducer_rooted hf.toRooted h) (replayOntoProducer_keepsKinds hf.sound h)
  consumer roots consumer producer pos mode f f' hf h :=
    hf.keeps (replayOntoConsumer_rooted hf.toRooted h) (replayOntoConsumer_keepsKinds hf.sound h)
  raise v g hg f f' hf h := by
    refine hf.keeps (updateView_rooted v hg f f' hf.toRooted h) ?_
    obtain ⟨u, hu⟩ := EditE.leaves_lift.1 h
    exact updateView_keepsKinds hf.sound hg hu

/-! ## Execution, memory and copies -/

/-- Choosing an execution keeps kinds. -/
theorem parallelize_keepsKinds {axis : Int} {parallel : ParallelType} {u : Unit} (hf : Sound f)
    (h : (parallelize tensor axis parallel).Returns f u f') : KeepsKinds f f' := by
  have hmodify : ∀ a, KeepsKinds f (f.modifyAxis a fun x => { x with parallel }) := by
    intro a
    refine .ofSameExtents hf (SameExtents.modifyAxis f a (g := fun x => { x with parallel })
      fun _ => rfl) fun b _ => ?_
    rw [axis_modifyAxis]
    split
    case isTrue hb => rw [hb.1]
    case isFalse => rfl
  obtain ⟨a, rfl⟩ := returns_parallelize h
  exact hmodify a

/-- Copying executions keeps kinds. -/
theorem parallelizeLike_keepsKinds {reference : ValueId} {tensors : List ValueId}
    {types : ParallelSet} {u : Unit} (hf : Sound f)
    (h : (parallelizeLike reference tensors types).Returns f u f') : KeepsKinds f f' := by
  have hk : Keeps False f f' := parallelizeLike_keeps hf h
  obtain ⟨htransforms, hkind, hview⟩ := parallelizeLike_views h
  exact .ofViews hk.sound hk.ext htransforms (fun a _ => hkind a) hview

/-- Choosing a memory keeps kinds. -/
theorem setMemory_keepsKinds {memory : MemoryType} {u : Unit} (hf : Sound f)
    (h : (setMemory tensor memory).Returns f u f') : KeepsKinds f f' := by
  unfold setMemory at h
  simp only [EditE.returns_bind, EditE.returns_discard, returns_ensureView, EditE.returns_ensure,
    EditE.returns_get, EditE.returns_modify] at h
  obtain ⟨-, f₁, ⟨x, -, -, rfl⟩, f₀, f₂, ⟨rfl, rfl⟩, -, f₃, ⟨-, rfl⟩, rfl⟩ := h
  exact .modify_sync hf (hf.domains tensor) rfl rfl

/-- A copy behind a tensor has new axes, and other expressions read it. -/
theorem cacheAfter_keepsKinds {cache : ValueId} (hf : Rooted f) (hf' : Regular f')
    (h : (cacheAfter tensor).Returns f cache f') : KeepsKinds f f' := by
  have hk : Keeps False f f' := cacheAfter_keeps hf.sound h
  have howns : ∀ spare, OwnAxes f spare → OwnAxes f' spare := fun spare =>
    cacheAfter_owns tensor f cache f' spare h
  unfold cacheAfter at h
  simp only [EditE.returns_bind, returns_ensureView, EditE.returns_ensure, EditE.returns_get,
    EditE.returns_pure] at h
  obtain ⟨x, f₁, ⟨ht, -, rfl⟩, -, f₂, ⟨-, rfl⟩, f₀, f₃, ⟨rfl, rfl⟩, out, f₁, hcopy, _, f₂, hforM,
    rfl, rfl⟩ := h
  have hknown : Build.Known f (.value tensor) := hasValue_of_isTensor ht
  have hb := Build.copy_builds hf.sound hknown (EditE.returns_mapError.1 hcopy)
  obtain ⟨haxes, htransforms, -⟩ := replaceInputs_tables hforM
  refine .ofOwns hf' hk.ext hf.own howns (htransforms.trans hb.transforms) (fun a ha => ?_)
    fun v hv => ?_
  · rw [Fusion.axis, haxes]
    exact congrArg Axis.kind (hb.axis a ha)
  · rw [(replaceInputs_shares hforM).1, hb.view v hv]

/-- A copy of an output keeps kinds. -/
theorem cacheFork_keepsKinds {fork : ValueId} (hf : Rooted f) (hf' : Regular f')
    (h : (cacheFork tensor).Returns f fork f') : KeepsKinds f f' := by
  have hk : Keeps False f f' := cacheFork_keeps hf.sound h
  have howns : ∀ spare, OwnAxes f spare → OwnAxes f' spare := fun spare =>
    cacheFork_owns tensor f fork f' spare h
  unfold cacheFork at h
  simp only [EditE.returns_bind, EditE.returns_discard, returns_ensureView, EditE.returns_ensure,
    EditE.returns_get, EditE.returns_modify, EditE.returns_pure] at h
  obtain ⟨-, f₁, ⟨x, ht, -, rfl⟩, f₀, f₂, ⟨rfl, rfl⟩, -, f₃, ⟨-, rfl⟩, -, f₄, ⟨-, rfl⟩, out, f₁,
    hcopy, _, f₂, rfl, rfl, rfl⟩ := h
  have hknown : Build.Known f (.value tensor) := hasValue_of_isTensor ht
  have hb := Build.copy_builds hf.sound hknown (EditE.returns_mapError.1 hcopy)
  exact .ofOwns hf' hk.ext hf.own howns hb.transforms
    (fun a ha => congrArg Axis.kind (hb.axis a ha)) hb.view

/-- A copy in front of a tensor keeps kinds. -/
theorem cacheBefore_keepsKinds {cache : ValueId} (hf : Sound f)
    (h : (cacheBefore tensor).Returns f cache f') : KeepsKinds f f' := by
  have hk : Keeps False f f' := cacheBefore_keeps hf h
  obtain ⟨htransforms, haxis, root, -, -, hroot, hviews⟩ := cacheBefore_views hf h
  refine .ofTransforms hk.sound hk.ext htransforms (fun a ha => by rw [haxis a ha]) fun v => ?_
  rcases hviews v with ⟨hplain, -⟩ | ⟨hcopy, -⟩ | ⟨hold, -⟩
  · rw [hplain]
    exact .inr fun a ha => (hroot a ha).1
  · exact .inl ⟨tensor, by rw [hcopy], by rw [hcopy]⟩
  · exact .inl ⟨v, by rw [hold], by rw [hold]⟩

/-! ## The stages of a reduction -/

/-- Copies of axes that no transform makes may have any kind. -/
theorem copyAxes_keepsKinds {axes : List (AxisId × AxisKind)} {pairs : List (AxisId × AxisId)}
    (hf : Sound f) (haxes : ∀ q ∈ axes, f.HasAxis q.1)
    (h : Edit.Gives (copyAxes axes) f pairs f') : KeepsKinds f f' := by
  obtain ⟨hk, -⟩ := copyAxes_keeps hf haxes h
  obtain ⟨happends, -⟩ := copyAxes_appends h
  exact .ofViews hk.sound hk.ext (copyAxes_transforms h) (fun a ha => by rw [happends.axis a ha])
    fun v => ⟨v, happends.view v⟩

/-- Repeating transforms records transforms of images. -/
theorem repeatTransforms_keepsKinds (hf : Sound f) (hts : ∀ t ∈ ts, f.HasTransform t)
    (hm : f.Images m) (h : (repeatTransforms tensor ts m).Returns f m' f') : KeepsKinds f f' := by
  induction ts generalizing f m with
  | nil =>
      obtain ⟨rfl, rfl⟩ := EditE.returns_pure.1 h
      exact .refl hf
  | cons t ts ih =>
      obtain ⟨m₁, f₁, hstep, h⟩ := EditE.returns_bind.1 h
      have ht := hts t List.mem_cons_self
      obtain ⟨hkeeps, hm₁⟩ := repeatTransform_keeps hf ht hm hstep
      have hone : KeepsKinds f f₁ := by
        obtain ⟨rfl, rfl⟩ | ⟨x, hrec, -⟩ := repeatTransform_records hf ht hm hstep
        · exact .refl hf
        · exact .ofRecords hrec
      exact hone.trans (ih hkeeps.sound
        (fun s hs => hkeeps.ext.hasTransform (hts s (List.mem_cons_of_mem t hs))) hm₁ h)

/-- Where images descend from a root, so does what the repeated transforms consume. -/
theorem repeatTransforms_inputs (hf : Sound f) (hts : ∀ t ∈ ts, f.HasTransform t)
    (hm : f.Images m) (hdescends : ∀ b ∈ m.images, f.Descends root b)
    (h : (repeatTransforms tensor ts m).Returns f m' f') :
    ∀ t, ¬ f.HasTransform t → f'.HasTransform t → ∀ a ∈ (f'.transform t).inputs,
      f'.Descends root a := by
  induction ts generalizing f m with
  | nil =>
      obtain ⟨rfl, rfl⟩ := EditE.returns_pure.1 h
      exact fun t hnot ht => absurd ht hnot
  | cons t ts ih =>
      obtain ⟨m₁, f₁, hstep, h⟩ := EditE.returns_bind.1 h
      have ht := hts t List.mem_cons_self
      have hlater : ∀ s ∈ ts, f.HasTransform s := fun s hs => hts s (List.mem_cons_of_mem t hs)
      obtain ⟨hkeeps, hm₁⟩ := repeatTransform_keeps hf ht hm hstep
      have hlater₁ : ∀ s ∈ ts, f₁.HasTransform s := fun s hs => hkeeps.ext.hasTransform (hlater s hs)
      have hrest := (repeatTransforms_keeps hkeeps.sound hlater₁ hm₁ h).1.ext
      cases repeatTransform_repeated hf ht hm hstep with
      | idle _ => exact ih hf hlater hm hdescends h
      | @recorded y _ _ hrec hin hout himages =>
          have hdescends₁ : ∀ b ∈ m₁.images, f₁.Descends root b := by
            intro b hb
            rcases himages b hb with hb | hb
            · exact (hdescends b hb).mono hrec.ext
            · exact hrec.descends (fun a ha => hdescends a (hin a ha)) hb
          intro s hnot hs a ha
          by_cases hs₁ : f₁.HasTransform s
          · have hlast : f₁.transform s = y := by
              rw [HasTransform, hrec.transforms, Array.size_push] at hs₁
              have hindex : s = ⟨f.transforms.size⟩ := by
                cases s
                simp only [HasTransform, TransformId.mk.injEq] at hnot hs₁ ⊢
                omega
              rw [hindex, hrec.transform_last]
            rw [hrest.transform s hs₁, hlast] at ha
            exact (hdescends a (hin a ha)).mono (hrec.ext.trans hrest)
          · exact ih hkeeps.sound hlater₁ hm₁ hdescends₁ h s hs₁ hs a ha

/-- Copying executions to new axes changes no extent. -/
theorem copyParallel_sameExtents {pairs : List (AxisId × AxisId)} {u : Unit}
    (h : Edit.Gives (copyParallel pairs) f u f') : SameExtents f f' := by
  unfold copyParallel at h
  induction pairs generalizing f with
  | nil =>
      obtain ⟨-, rfl⟩ := Edit.gives_pure.1 h
      exact .refl f
  | cons q pairs ih =>
      obtain ⟨_, f₁, hstep, h⟩ := Edit.gives_bind.1 h
      obtain rfl := Edit.gives_modify.1 hstep
      exact (SameExtents.modifyAxis f q.2
        (g := fun x => { x with parallel := (f.axis q.1).parallel }) fun _ => rfl).trans (ih h)

/-- The second stage transforms copies as their kinds ask for, whether it succeeds or fails. -/
theorem finalDomain_keepsKinds (hf : Sound f) (hp : Planned f p)
    (h : (p.finalDomain tensor).Leaves f f') : KeepsKinds f f' := by
  obtain ⟨roots, f₁, ts, m, f₂, u, leaves, hcopy, hpre, hrepeat, -, hparallel⟩ :=
    leaves_finalDomain h
  obtain ⟨hk, hroots⟩ := copyAxes_keeps hf (hp.finalKinds hf) hcopy
  have hts : ∀ t ∈ ts, f₁.HasTransform t := fun t ht =>
    hk.ext.hasTransform (hp.history t (List.mem_filter.1 (hpre.subset ht)).1)
  have hrepeated := (copyAxes_keepsKinds hf (hp.finalKinds hf) hcopy).trans
    (repeatTransforms_keepsKinds hk.sound hts (images_ofPairs hroots) hrepeat)
  exact hrepeated.trans (.ofSameExtents hrepeated.sound (copyParallel_sameExtents hparallel)
    fun a _ => copyParallel_kind hparallel a)

section Stages

variable {positions : List Int}

/-- The first stage transforms copies of the root only.  The kinds of its axes are changed after
that. -/
theorem partialDomain_leavesKinds (hf : Rooted f) (hplan : Factoring.plan f tensor positions = .ok p)
    (h : (p.partialDomain tensor).Returns f d f') :
    LeavesKinds f f' ∧ (∀ t, ¬ f.HasTransform t → f'.HasTransform t →
      f'.Measured (f'.transform t) ∧
        ∀ a ∈ (f'.transform t).inputs, f'.Descends d.root a) := by
  have happends := (partialDomain_appends hf hplan h).1
  obtain ⟨-, hp⟩ := plan_planned hf.sound hplan
  obtain ⟨roots, f₁, m, f₂, u, hcopy, hrepeat, hparallel, rfl⟩ := returns_partialDomain h
  have haxes : ∀ q ∈ p.domain.root.map fun a => (a, (f.axis a).kind), f.HasAxis q.1 := by
    intro q hq
    obtain ⟨a, ha, rfl⟩ := List.mem_map.1 hq
    exact hp.root a ha
  obtain ⟨hk, hroots⟩ := copyAxes_keeps hf.sound haxes hcopy
  have hts := (hp.mono hk.ext).history
  have hcopies := copyAxes_keepsKinds hf.sound haxes hcopy
  have hrepeats := repeatTransforms_keepsKinds hk.sound hts (images_ofPairs hroots) hrepeat
  have hsame : SameExtents f₂ f' := (SameExtents.foldl (fun g a =>
    SameExtents.modifyAxis g (imageOf m a)
      (g := fun x => { x with kind := .iteration, isRFactor := true }) fun _ => rfl)
    p.rfactored f₂).trans (copyParallel_sameExtents hparallel)
  have hext := (hcopies.trans hrepeats).ext.trans hsame.toExtends
  have hback : ∀ t, f'.HasTransform t ↔ f₂.HasTransform t := by
    intro t
    rw [HasTransform, hsame.transforms, HasTransform]
  have htransform : ∀ t, f'.transform t = f₂.transform t := by
    intro t
    rw [transform, hsame.transforms, transform]
  refine ⟨⟨hext, fun a ha => by rw [happends.axis a ha], happends.makes, fun v => .inl ⟨v, ?_, ?_⟩⟩,
    fun t hnot ht => ?_⟩
  · rw [happends.view]
  · rw [happends.view]
  · rw [hback] at ht
    have hnot₁ : ¬ f₁.HasTransform t := by
      rw [HasTransform, copyAxes_transforms hcopy]
      exact hnot
    rw [htransform]
    refine ⟨((hcopies.trans hrepeats).new t hnot ht).2.mono hrepeats.sound.extents
      (hrepeats.sound.recorded t ht) hsame.toExtends, fun a ha => ?_⟩
    exact (repeatTransforms_inputs hk.sound hts (images_ofPairs hroots)
      (fun b hb => .root (AxisMap.mem_images_ofPairs hb)) hrepeat t hnot₁ ht a ha).mono
      hsame.toExtends

/-- If the first stage of a factored reduction cannot be made, kinds are kept. -/
theorem fails_partialDomain_keepsKinds (hf : Sound f) (hp : Planned f p)
    (h : (p.partialDomain tensor).Fails f f') : KeepsKinds f f' := by
  obtain ⟨roots, f₁, ts, m, hcopy, hpre, hrepeat⟩ := fails_partialDomain h
  have haxes : ∀ q ∈ p.domain.root.map fun a => (a, (f.axis a).kind), f.HasAxis q.1 := by
    intro q hq
    obtain ⟨a, ha, rfl⟩ := List.mem_map.1 hq
    exact hp.root a ha
  obtain ⟨hk, hroots⟩ := copyAxes_keeps hf haxes hcopy
  exact (copyAxes_keepsKinds hf haxes hcopy).trans (repeatTransforms_keepsKinds hk.sound
    (fun t ht => hk.ext.hasTransform (hp.history t (hpre.subset ht))) (images_ofPairs hroots) hrepeat)

end Stages

/-- If the second stage of a factored reduction cannot be made, kinds are kept. -/
theorem partialDomain_root (h : (p.partialDomain tensor).Returns f d f') :
    (∀ a ∈ d.root, ¬ f.HasAxis a) ∧ d.rfactor.isSome = true := by
  obtain ⟨roots, f₁, m, f₂, u, hcopy, -, -, rfl⟩ := returns_partialDomain h
  refine ⟨fun a ha => ?_, rfl⟩
  obtain ⟨q, hq, rfl⟩ := List.mem_map.1 ha
  exact (copyAxes_appends hcopy).2 q hq

/-- The root of the first stage is new, and its shape is factored. -/
theorem finalDomain_root (h : (p.finalDomain tensor).Returns f d f') :
    ∀ a ∈ d.root, ¬ f.HasAxis a := by
  obtain ⟨roots, f₁, m, f₂, u, hcopy, -, -, -, rfl⟩ := returns_finalDomain h
  intro a ha
  obtain ⟨q, hq, rfl⟩ := List.mem_map.1 ha
  exact (copyAxes_appends hcopy).2 q hq

/-- Factoring a reduction leaves kinds alone, whether it succeeds or fails.  The first stage
transforms axes of the partial tensors, which are factored; if there is no second stage, no tensor
has these axes. -/
theorem rfactor_wellKinded {positions : List Int} (hf : WellKinded f) (hf' : Regular f')
    (h : (rfactor tensor positions).Leaves f f') : WellKinded f' := by
  have hrooted' : Rooted f' := rfactor_rooted tensor positions f f' hf.toRooted h
  have hboth : ∀ {p : Factoring} {d : TensorDomain} {f₁ f₂ : Fusion},
      Factoring.plan f tensor positions = .ok p → (p.partialDomain tensor).Returns f d f₁ →
      (p.finalDomain tensor).Leaves f₁ f₂ → LeavesKinds f f₂ ∧
        (∀ t, ¬ f.HasTransform t → f₂.HasTransform t → f₂.Measured (f₂.transform t)) ∧
        (∀ t, ¬ f.HasTransform t → f₂.HasTransform t → f₂.KindsFollow (f₂.transform t) ∨
          ∀ a ∈ (f₂.transform t).inputs, f₂.Descends d.root a) := by
    intro p d f₁ f₂ hplan hpartial hfinal
    obtain ⟨-, hp⟩ := plan_planned hf.sound hplan
    have h₁ := (partialDomain_keeps hf.sound hp hpartial).1
    obtain ⟨hleaves, hnew⟩ := partialDomain_leavesKinds hf.toRooted hplan hpartial
    have h₂ := finalDomain_keepsKinds h₁.sound (hp.mono h₁.ext) hfinal
    refine ⟨hleaves.trans h₂.toLeavesKinds, fun t hnot ht => ?_, fun t hnot ht => ?_⟩
    · by_cases ht₁ : f₁.HasTransform t
      · rw [h₂.ext.transform t ht₁]
        exact (hnew t hnot ht₁).1.mono h₁.sound.extents (h₁.sound.recorded t ht₁) h₂.ext
      · exact (h₂.new t ht₁ ht).2
    · by_cases ht₁ : f₁.HasTransform t
      · rw [h₂.ext.transform t ht₁]
        exact .inr fun a ha => ((hnew t hnot ht₁).2 a ha).mono h₂.ext
      · exact .inl (h₂.new t ht₁ ht).1
  obtain ⟨out, h⟩ | h := EditE.leaves_iff.1 h
  · obtain ⟨p, d₁, f₁, d₂, f₂, x, partials, -, htensor, hplan, hpartial, hfinal, haxes,
      htransforms, hext, hapart, -⟩ := rfactor_takesApart hf.sound h
    obtain ⟨hleaves, hmeasured, hkinds⟩ := hboth hplan hpartial hfinal.leaves
    obtain ⟨-, hp⟩ := plan_planned hf.sound hplan
    have h₁ := (partialDomain_keeps hf.sound hp hpartial).1
    have h₂ := (finalDomain_keeps h₁.sound (hp.mono h₁.ext) hfinal).1
    obtain ⟨hnew₁, hfactored⟩ := partialDomain_root hpartial
    have hnew₂ := finalDomain_root hfinal
    have hhas : ∀ t, f'.HasTransform t ↔ f₂.HasTransform t := fun t => by
      rw [HasTransform, htransforms, HasTransform]
    have haxis : ∀ a, f'.axis a = f₂.axis a := fun a => by rw [Fusion.axis, haxes, Fusion.axis]
    obtain ⟨w, hw⟩ : ∃ w, w ∈ partials := by
      refine List.exists_mem_of_length_pos ?_
      rw [hapart.length]
      exact List.length_pos_of_mem htensor
    have hpartialView := hapart.firsts w hw
    have hroot : (f'.view w).domain.root = d₁.root := by rw [hpartialView]
    have hwhole : LeavesKinds f f' := by
      refine ⟨hleaves.ext.trans hext, fun a ha => by rw [haxis, hleaves.kind a ha],
        fun t hnot ht b hb => ?_, fun v => ?_⟩
      · rw [hhas] at ht
        rw [hext.transform t ht] at hb
        exact hleaves.makes t hnot ht b hb
      · by_cases hv : v ∈ partials
        · rw [hapart.firsts v hv]
          exact .inr hnew₁
        by_cases hv' : v ∈ x.outputs
        · rw [hapart.lasts v hv']
          exact .inr fun a ha hold => hnew₂ a ha (h₁.ext.hasAxis hold)
        · rw [hapart.others v hv hv']
          exact hleaves.root v
    have hunmade : f'.Unmade d₁.root := hroot ▸ hrooted'.unmade w
    refine hf.advance hrooted' hwhole (fun t hnot ht => ?_) hunmade
      (fun v hunfactored a ha hmem => ?_) fun t hnot ht => ?_
    · rw [hhas] at ht
      rw [hext.transform t ht]
      exact (hmeasured t hnot ht).mono h₂.sound.extents (h₂.sound.recorded t ht) hext
    · rw [← hroot] at hmem
      rw [hrooted'.own.view_eq hf' ha hmem, hpartialView] at hunfactored
      rw [hunfactored] at hfactored
      cases hfactored
    · rw [hhas] at ht
      rw [hext.transform t ht]
      refine (hkinds t hnot ht).imp (fun hfollow => ?_) fun hin a ha => (hin a ha).mono hext
      exact hfollow.congr fun a _ => by rw [haxis]
  · obtain rfl | ⟨p, hplan, hpartial | ⟨d, f₁, hpartial, hfinal⟩⟩ := fails_rfactor h
    · exact hf
    · obtain ⟨-, hp⟩ := plan_planned hf.sound hplan
      exact hf.keeps hrooted' (fails_partialDomain_keepsKinds hf.sound hp hpartial)
    · obtain ⟨hleaves, hmeasured, hkinds⟩ := hboth hplan hpartial hfinal.leaves
      obtain ⟨-, hp⟩ := plan_planned hf.sound hplan
      have h₁ := (partialDomain_keeps hf.sound hp hpartial).1
      have h₂ := finalDomain_keepsKinds h₁.sound (hp.mono h₁.ext) hfinal.leaves
      obtain ⟨hspare, -⟩ := partialDomain_spare hf.sound hp hpartial hf.own
      have hunmade : f'.Unmade d.root := by
        intro a ha
        obtain ⟨hold, hnone⟩ := hspare.spare a (List.mem_append_left _ ha)
        rintro ⟨t, ht, hout⟩
        by_cases ht₁ : f₁.HasTransform t
        · rw [h₂.ext.transform t ht₁] at hout
          exact hnone ⟨t, ht₁, hout⟩
        · exact h₂.makes t ht₁ ht a hout hold
      refine hf.advance hrooted' hleaves hmeasured hunmade (fun v _ a ha hd => ?_) hkinds
      rw [(fails_rfactor_appends hf.toRooted h).view] at ha
      exact (partialDomain_root hpartial).1 a hd (hf.hasAxis_root v a ha)

end Schedule

/-! ## Calls -/

namespace Call

variable {f f' : Fusion} {c : Call}

/-- The root of the second stage is new. -/
theorem perform_building_wellKinded (hscope : c.scope = .building) (hf : WellKinded f)
    (hf' : Regular f') (hknown : ∀ x ∈ c.operands, Build.Known f x)
    (h : (c.perform Schedule.replay).Leaves f f') : WellKinded f' := by
  refine hf.keeps (perform_building_rooted hscope hf.toRooted hknown h) ?_
  obtain ⟨u, h⟩ | h := EditE.leaves_iff.1 h
  · have hb := perform_builds hscope hf.sound hknown h
    exact .ofOwns hf' hb.ext hf.own
      (fun spare => perform_building_owns Schedule.replay hscope f u f' spare h) hb.transforms
      (fun a ha => by rw [hb.axis a ha]) hb.view
  · have hliterals := fails_addsLiterals hscope h
    have hb := hliterals.builds hf.sound
    exact .ofViews hb.sound hb.ext hb.transforms (fun a ha => by rw [hb.axis a ha])
      fun v => ⟨v, hliterals.appends.view v⟩

/-- A building call keeps kinds, whether it returns or fails. -/
theorem perform_scheduling_wellKinded (hscope : c.scope ≠ .building) (hf : WellKinded f)
    (hf' : Regular f') (h : (c.perform Schedule.replay).Leaves f f') : WellKinded f' := by
  have hrooted : Rooted f' := perform_scheduling_rooted hscope f f' hf.toRooted h
  have hatomic : ∀ {α : Type} {x : Schedule α}, EditE.Atomic x → x.Leaves f f' →
      (∀ a, x.Returns f a f' → KeepsKinds f f') → WellKinded f' := by
    intro α x hx h hreturns
    obtain ⟨a, h⟩ | h := EditE.leaves_iff.1 h
    · exact hf.keeps hrooted (hreturns a h)
    · rwa [← hx f f' h]
  cases c with
  | split tensor axis factor innerSplit =>
      exact hf.keeps hrooted (Schedule.split_keepsKinds hf.sound h)
  | merge tensor outer inner => exact hf.keeps hrooted (Schedule.merge_keepsKinds hf.sound h)
  | reorder tensor moves => exact hf.keeps hrooted (Schedule.reorder_keepsKinds hf.sound h)
  | computeAt producer consumer pos =>
      exact Schedule.replays_wellKinded.computeAt _ _ _ f f' hf h
  | propagate reference => exact Schedule.replays_wellKinded.propagateTransforms _ f f' hf h
  | replayProducer roots producer consumer pos mode =>
      exact (Schedule.replays_wellKinded.producer _ _ _ _ _).discard f f' hf h
  | replayConsumer roots consumer producer pos mode =>
      exact (Schedule.replays_wellKinded.consumer _ _ _ _ _).discard f f' hf h
  | parallelize tensor axis parallel =>
      exact hatomic (Schedule.parallelize_atomic _ _ _) h fun _ =>
        Schedule.parallelize_keepsKinds hf.sound
  | parallelizeLike reference vs types =>
      exact hatomic (Schedule.parallelizeLike_atomic _ _ _) h fun _ =>
        Schedule.parallelizeLike_keepsKinds hf.sound
  | rfactor tensor axes =>
      exact Schedule.rfactor_wellKinded hf hf' (EditE.leaves_discard.1 h)
  | cacheAfter tensor =>
      exact hatomic (Schedule.cacheAfter_atomic _) (EditE.leaves_discard.1 h) fun _ =>
        Schedule.cacheAfter_keepsKinds hf.toRooted hf'
  | cacheBefore tensor =>
      exact hatomic (Schedule.cacheBefore_atomic _) (EditE.leaves_discard.1 h) fun _ =>
        Schedule.cacheBefore_keepsKinds hf.sound
  | cacheFork tensor =>
      exact hatomic (Schedule.cacheFork_atomic _) (EditE.leaves_discard.1 h) fun _ =>
        Schedule.cacheFork_keepsKinds hf.toRooted hf'
  | setMemory tensor memory =>
      exact hatomic (Schedule.setMemory_atomic _ _) h fun _ => Schedule.setMemory_keepsKinds hf.sound
  | _ => exact absurd rfl hscope

/-- A call keeps a fusion well-kinded, whether it succeeds or fails. -/
theorem attempt_wellKinded (c : Call) (hf : WellKinded f) (hr : Regular f) :
    WellKinded (c.attempt f) := by
  have hf' : Regular (c.attempt f) := (c.attempt_freezes hr).regular
  unfold attempt at hf' ⊢
  split
  case isTrue hknown =>
      rw [if_pos hknown] at hf'
      by_cases hscope : c.scope = .building
      · exact perform_building_wellKinded hscope hf hf' (by simpa using hknown) rfl
      · exact perform_scheduling_wellKinded hscope hf hf' rfl
  case isFalse => exact hf

end Call

namespace Fusion

variable {f : Fusion}

/-- A scheduling call keeps kinds, whether it returns or fails. -/
theorem wellKinded_empty : WellKinded {} := by
  refine ⟨rooted_empty, fun t ht => ?_, fun v _ t ht => ?_⟩
  · cases ht
  · cases ht

/-- Every sequence of calls, each of which succeeds or fails, leads to a well-kinded fusion. -/
theorem attemptAll_wellKinded (calls : List Call) (hf : WellKinded f) (hr : Regular f) :
    WellKinded (attemptAll calls f) := by
  induction calls generalizing f with
  | nil => exact hf
  | cons c calls ih => exact ih (c.attempt_wellKinded hf hr) (c.attempt_freezes hr).regular

end Fusion
end FusionCompiler
