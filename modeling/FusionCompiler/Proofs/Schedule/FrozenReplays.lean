import FusionCompiler.Proofs.Fusion.Failing
import FusionCompiler.Proofs.Schedule.Freezing

/-!
# Frozen leaves under transforms and replays

Splits, merges and reorders refuse to touch frozen leaves, and a replay compares
them at its end.  So all of them freeze what is frozen, also when they fail on
the way.

Main results:

- Theorems `Schedule.split_freezes`, `Schedule.merge_freezes` and
  `Schedule.reorder_freezes`: transforming the leaves of a tensor freezes what is
  frozen.
- Theorem `Schedule.replay_rearranges`: a replay rearranges its target and gives a
  number of leaves of it.
-/

namespace FusionCompiler

open Fusion

namespace Schedule

variable {f f' f₁ : Fusion}

/-! ## Steps that fail -/

/-- Reading a position only reads. -/
theorem axisPosition_reads (axis : Int) (ndims : Nat) : EditE.Reads (axisPosition axis ndims) :=
  .mapError (.ofExcept _)

/-- Checking that a leaf is not fixed only reads. -/
theorem ensureUnfixed_reads (tensor : ValueId) (axis : Nat) :
    EditE.Reads (ensureUnfixed tensor axis) :=
  .bind .get fun _ => .ensure _ _

/-- A factor that is rejected has not been made. -/
theorem resolveFactor_atomic (tensor : ValueId) (factor : SplitFactor) :
    EditE.Atomic (resolveFactor tensor factor) := by
  cases factor with
  | const n => exact .bind (.ensure _ _) fun _ => .lift _
  | value v =>
      exact .ofReads (.bind .get fun f => .bind (.ensure _ _) fun _ =>
        .bind (.ensure _ _) fun _ => .pure _)

/-- A split of an axis cannot fail halfway. -/
theorem splitAxis_atomic (a : AxisId) (factor : ValueId) (innerSplit : Bool) :
    EditE.Atomic (splitAxis a factor innerSplit) := by
  unfold splitAxis build
  refine .bind .get fun f => .bind_lift (.mapError (Build.binaryOp_atomic _ _ _)) fun q g g' h => ?_
  simp at h

/-- A merge of axes cannot fail halfway. -/
theorem mergeAxes_atomic (outer inner : AxisId) : EditE.Atomic (mergeAxes outer inner) := by
  unfold mergeAxes
  refine .bind .get fun f => ?_
  dsimp only
  split
  · exact .ofReads (.throw _)
  · refine .bind_lift (.mapError (Build.binaryOp_atomic _ _ _)) fun e g g' h => ?_
    simp at h

/-! ## What checks find -/

/-- A position that is accepted is one of a leaf. -/
theorem returns_axisPosition {axis : Int} {ndims p : Nat}
    (h : (axisPosition axis ndims).Returns f p f') : p < ndims := by
  rw [axisPosition, build, EditE.returns_mapError, EditE.returns_ofExcept] at h
  exact normalizeAxis_lt h.1

/-- A leaf that is not fixed lies behind the fixed ones. -/
theorem returns_ensureUnfixed {tensor : ValueId} {axis : Nat} {u : Unit}
    (h : (ensureUnfixed tensor axis).Returns f u f') : (f.view tensor).fixedPosition ≤ axis := by
  simp only [ensureUnfixed, EditE.returns_bind, EditE.returns_get, EditE.returns_ensure,
    decide_eq_true_eq] at h
  obtain ⟨f₀, f₁, ⟨rfl, rfl⟩, hle, -⟩ := h
  exact hle

/-! ## Split, merge and reorder -/

/-- The frozen leaves are among the leaves before a later position. -/
theorem frozen_prefix_take {x : TensorView} {p : Nat} (h : x.fixedPosition ≤ p) :
    x.frozen <+: x.leaf.take p :=
  List.prefix_take_iff.2 ⟨List.take_prefix _ _, Nat.le_trans (List.length_take_le _ _) h⟩

/-- A factor is a new scalar at most. -/
theorem resolveFactor_adding (tensor : ValueId) (factor : SplitFactor) :
    EditE.Adding (resolveFactor tensor factor) := by
  cases factor with
  | const n => exact .bind (.ensure _ _) fun _ => .lift (Edit.newConst_adding _)
  | value v =>
      exact .get_bind fun f => .bind (.ensure _ _) fun _ => .bind (.ensure _ _) fun _ => .pure _

/-- A split freezes what is frozen, whether it succeeds or fails. -/
theorem split_freezes {tensor : ValueId} {axis : Int} {factor : SplitFactor} {innerSplit : Bool}
    (hf : Regular f) (h : (split tensor axis factor innerSplit).Leaves f f') : Freezes f f' := by
  unfold split at h
  obtain rfl | ⟨x, hx, h⟩ := (Build.ensureTensor_reads tensor).mapError.leaves_bind h
  · exact .refl hf
  obtain ⟨htensor, rfl, -⟩ := returns_ensureView.1 hx
  obtain rfl | ⟨p, hp, h⟩ := (axisPosition_reads _ _).leaves_bind h
  · exact .refl hf
  have hlt := returns_axisPosition hp
  obtain rfl | ⟨_, hfixed, h⟩ := (ensureUnfixed_reads _ _).leaves_bind h
  · exact .refl hf
  have hle := returns_ensureUnfixed hfixed
  obtain rfl | ⟨k, f₁, hk, h⟩ := (resolveFactor_atomic _ _).leaves_bind h
  · exact .refl hf
  obtain ⟨hb, hint, hviews, -⟩ := resolveFactor_builds hf.sound hk
  have h₁ : Freezes f f₁ := .ofAdds hf hb.keeps (resolveFactor_adding _ _ f f₁ hk.leaves)
  obtain rfl | ⟨g, hget, h⟩ := EditE.Reads.get.leaves_bind h
  · exact h₁
  obtain ⟨rfl, -⟩ := EditE.returns_get.1 hget
  obtain rfl | ⟨⟨o, i⟩, f₂, hsplit, h⟩ := (splitAxis_atomic _ _ _).leaves_bind h
  · exact h₁
  obtain ⟨_, hset⟩ := EditE.leaves_lift.1 h
  have hleaf : f₁.leaf tensor = (f.view tensor).leaf := congrArg TensorView.leaf (hviews tensor)
  rw [hleaf] at hsplit hset
  have hold : ∀ a ∈ (f.view tensor).leaf, f₁.HasAxis a := fun a ha =>
    hb.ext.hasAxis (hf.sound.domains tensor a (List.mem_append_right _ ha))
  have hrec := splitAxis_records hb.sound
    (hold _ (List.mem_of_getElem? (getElem?_eq_getD hlt))) hint hsplit
  have h₂ := h₁.trans (.ofRecords h₁.regular hrec)
  have hviews₂ : f₂.view tensor = f.view tensor := (hrec.view tensor).trans (hviews tensor)
  refine h₂.setLeaf ?_ (fun a ha => ?_) ?_ hset
  · rw [h₂.ext.isTensor tensor (hasValue_of_isTensor htensor)]
    exact htensor
  · simp only [List.append_assoc, List.mem_append] at ha
    rcases ha with ha | ha | ha
    · exact hrec.ext.hasAxis (hold a (List.mem_of_mem_take ha))
    · exact hrec.recorded.hasAxis_output ha
    · exact hrec.ext.hasAxis (hold a (List.mem_of_mem_drop ha))
  · rw [hviews₂, List.append_assoc]
    exact (frozen_prefix_take hle).trans (List.prefix_append _ _)

/-- A merge behind the frozen leaves. -/
theorem frozen_prefix_placeMerged {x : TensorView} {lo hi : Nat} (h : x.fixedPosition ≤ lo)
    (hlt : lo < hi) (a : AxisId) : x.frozen <+: placeMerged x.leaf lo hi a := by
  have htake : (placeMerged x.leaf lo hi a).take x.fixedPosition = x.frozen := by
    rw [placeMerged, List.take_set_of_le h, List.take_eraseIdx_eq_take_of_le]
    · rfl
    · omega
  rw [← htake]
  exact List.take_prefix _ _

/-- A merge freezes what is frozen, whether it succeeds or fails. -/
theorem merge_freezes {tensor : ValueId} {outer inner : Int} (hf : Regular f)
    (h : (merge tensor outer inner).Leaves f f') : Freezes f f' := by
  unfold merge at h
  obtain rfl | ⟨x, hx, h⟩ := (Build.ensureTensor_reads tensor).mapError.leaves_bind h
  · exact .refl hf
  obtain ⟨htensor, rfl, -⟩ := returns_ensureView.1 hx
  obtain rfl | ⟨p, hp, h⟩ := (axisPosition_reads _ _).leaves_bind h
  · exact .refl hf
  obtain rfl | ⟨q, hq, h⟩ := (axisPosition_reads _ _).leaves_bind h
  · exact .refl hf
  obtain rfl | ⟨_, hne, h⟩ := (EditE.Reads.ensure _ _).leaves_bind h
  · exact .refl hf
  have hne : p ≠ q := by simpa using (EditE.returns_ensure.1 hne).1
  dsimp only at h
  obtain rfl | ⟨_, hfixed, h⟩ := (ensureUnfixed_reads _ _).leaves_bind h
  · exact .refl hf
  have hle := returns_ensureUnfixed hfixed
  obtain rfl | ⟨g, hget, h⟩ := EditE.Reads.get.leaves_bind h
  · exact .refl hf
  obtain ⟨rfl, -⟩ := EditE.returns_get.1 hget
  obtain rfl | ⟨a, f₂, hmerge, h⟩ := (mergeAxes_atomic _ _).mapError.leaves_bind h
  · exact .refl hf
  obtain ⟨_, hset⟩ := EditE.leaves_lift.1 h
  have hold : ∀ a ∈ (f.view tensor).leaf, f.HasAxis a := fun a ha =>
    hf.sound.domains tensor a (List.mem_append_right _ ha)
  have hmem : ∀ r, r < (f.view tensor).ndims →
      (f.leaf tensor).getD r default ∈ (f.view tensor).leaf := fun r hr =>
    List.mem_of_getElem? (getElem?_eq_getD hr)
  have hrec := mergeAxes_records hf.sound (hold _ (hmem p (returns_axisPosition hp)))
    (hold _ (hmem q (returns_axisPosition hq))) (EditE.returns_mapError.1 hmerge)
  have h₂ : Freezes f f₂ := .ofRecords hf hrec
  refine h₂.setLeaf ?_ (fun b hb => ?_) ?_ hset
  · rw [hrec.isTensor]
    exact htensor
  · rcases mem_of_mem_placeMerged hb with hb | rfl
    · exact hrec.ext.hasAxis (hold b hb)
    · exact hrec.recorded.hasAxis_output (by simp [Transform.outputs])
  · rw [hrec.view]
    exact frozen_prefix_placeMerged hle (by omega) a

/-- Another order of leaves freezes what is frozen, whether it succeeds or fails. -/
theorem reorder_freezes {tensor : ValueId} {moves : List (Int × Int)} (hf : Regular f)
    (h : (reorder tensor moves).Leaves f f') : Freezes f f' := by
  unfold reorder at h
  obtain rfl | ⟨x, hx, h⟩ := (Build.ensureTensor_reads tensor).mapError.leaves_bind h
  · exact .refl hf
  obtain ⟨htensor, rfl, -⟩ := returns_ensureView.1 hx
  obtain rfl | ⟨positions, hmoves, h⟩ := (EditE.Reads.ofExcept _).leaves_bind h
  · exact .refl hf
  have hvalid : ValidMoves (f.view tensor).leaf.length positions :=
    readMoves_valid (.nil _) (EditE.returns_ofExcept.1 hmoves).1
  have hperm := applyMoves_perm hvalid
  dsimp only at h
  split at h
  · obtain rfl := EditE.Reads.throw _ f f' h
    exact .refl hf
  case h_2 hsame =>
      obtain ⟨_, hset⟩ := EditE.leaves_lift.1 h
      refine (Freezes.refl hf).setLeaf htensor (fun a ha => ?_) ?_ hset
      · exact hf.sound.domains tensor a (List.mem_append_right _ (hperm.mem_iff.1 ha))
      · have heq := (firstDifference_eq_none (by simp [hperm.length_eq])).1 hsame
        rw [TensorView.frozen, ← heq]
        exact List.take_prefix _ _

/-! ## Replays -/

/-- Exposing an axis only reads. -/
theorem expose_reads (g : ReplayGoal) (leaf : List AxisId) (a : AxisId) :
    EditE.Reads (expose g leaf a) := by
  unfold expose
  refine .bind .get fun f => ?_
  split
  · exact .pure _
  · exact .throw _

/-- A transform that cannot be replayed is not recorded. -/
theorem replayTransform_atomic (g : ReplayGoal) (p : Progress) (t : TransformId) :
    EditE.Atomic (replayTransform g p t) := by
  unfold replayTransform
  refine .bind .get fun f => ?_
  split
  · dsimp only
    split
    · exact .ofReads (.pure _)
    · split
      · exact .ofReads (.pure _)
      · refine .bind (expose_reads _ _ _) fun q => .bind (.ensure _ _) fun _ => ?_
        exact .bind_lift (splitAxis_atomic _ _ _) fun r g g' h => by simp at h
  · dsimp only
    split
    · exact .ofReads (.pure _)
    · split
      · refine .bind (expose_reads _ _ _) fun q => .bind (expose_reads _ _ _) fun r =>
          .bind (.ensure _ _) fun _ => ?_
        exact .bind_lift (mergeAxes_atomic _ _).mapError fun m g g' h => by simp at h
      all_goals exact .ofReads (.pure _)

/-- Where a replay of transforms fails, some of the first ones have been replayed. -/
theorem fails_replayTransforms {g : ReplayGoal} {ts : List TransformId} {p : Progress}
    (h : (replayTransforms g ts p).Fails f f') :
    ∃ done p', done <+: ts ∧ (replayTransforms g done p).Returns f p' f' := by
  induction ts generalizing f p with
  | nil => exact absurd h EditE.fails_pure
  | cons t ts ih =>
      obtain h | ⟨p₁, f₁, hstep, h⟩ := EditE.fails_bind.1 h
      · obtain rfl := replayTransform_atomic _ _ _ _ _ h
        exact ⟨[], p, List.nil_prefix, EditE.returns_pure.2 ⟨rfl, rfl⟩⟩
      · obtain ⟨done, p', hpre, hdone⟩ := ih h
        exact ⟨t :: done, p', List.cons_prefix_cons.2 ⟨rfl, hpre⟩,
          EditE.returns_bind.2 ⟨p₁, f₁, hstep, hdone⟩⟩

/-- Collecting the leading leaves only reads. -/
theorem collectLeading_reads (g : ReplayGoal) (images : AxisMap) (as leaf leading : List AxisId) :
    EditE.Reads (collectLeading g images as leaf leading) := by
  induction as generalizing leaf leading with
  | nil => exact .pure _
  | cons a as ih =>
      unfold collectLeading
      split
      · exact .bind (expose_reads _ _ _) fun q => ih _ _
      · exact .bind .get fun f => .bind (.ensure _ _) fun _ => ih _ _

/-- Replayed transforms freeze what is frozen. -/
theorem Replays.freezes {root : List AxisId} {p p' : Progress} (hf : Regular f)
    (h : Replays False root f p f' p') : Freezes f f' :=
  .ofViews hf ⟨Edits.ofViews h.sound h.ext h.view, h.wired⟩ h.view h.isTensor h.definingExpr

/-- What replaying onto a tensor or raising its positions does: it freezes what is frozen, and of
all views only those of the tensor and its siblings change. -/
structure Rearranges (v : ValueId) (f f' : Fusion) : Prop extends Freezes f f' where
  isTensor : ∀ w, f'.isTensor w = f.isTensor w
  definingExpr : ∀ w, f.HasValue w → f'.definingExpr? w = f.definingExpr? w
  axis : ∀ a, f.HasAxis a → f'.axis a = f.axis a
  others : ∀ w, ¬ (w = v ∨ w ∈ f.siblings v) → f'.view w = f.view w

/-- The siblings of a tensor depend on its definition. -/
theorem siblings_of_definingExpr (htensor : ∀ w, f₁.isTensor w = f.isTensor w)
    (hdef : ∀ w, f.HasValue w → f₁.definingExpr? w = f.definingExpr? w) {v : ValueId}
    (hv : f.HasValue v) : f₁.siblings v = f.siblings v := by
  unfold siblings
  rw [hdef v hv]
  simp only [htensor]

/-- Rearranging a tensor keeps the siblings of all tensors. -/
theorem Rearranges.siblings {v w : ValueId} (h : Rearranges v f f') (hw : f.HasValue w) :
    f'.siblings w = f.siblings w :=
  siblings_of_definingExpr h.isTensor h.definingExpr hw

/-- A change of a view and its siblings, after steps that change no axis, no view and no definition
of a tensor. -/
theorem Rearranges.modify_sync {v : ValueId} {g : TensorView → TensorView}
    (hview : ∀ w, f₁.view w = f.view w) (htensor : ∀ w, f₁.isTensor w = f.isTensor w)
    (hdef : ∀ w, f.HasValue w → f₁.definingExpr? w = f.definingExpr? w)
    (haxis : ∀ a, f.HasAxis a → f₁.axis a = f.axis a) (hv : f.isTensor v = true)
    (h : Freezes f ((f₁.modifyView v g).syncSiblings v)) :
    Rearranges v f ((f₁.modifyView v g).syncSiblings v) := by
  have hsame := sameGraph_modify_sync f₁ v g
  refine ⟨h, fun w => (hsame.isTensor w).trans (htensor w), fun w hw => ?_, fun a ha => ?_,
    fun w hw => ?_⟩
  · rw [← hdef w hw]
    exact hsame.definingExpr? w
  · rw [Fusion.axis, hsame.axes]
    exact haxis a ha
  · rw [view_modify_sync, siblings_of_definingExpr htensor hdef (hasValue_of_isTensor hv),
      if_neg hw, hview w]

section Replay

variable {source target : ValueId} {pairs : List (AxisId × AxisId)} {pos n : Nat}
  {mode : ReplayMode} {unmappable : AxisId → ScheduleError}

/-- The first transforms of a replay. -/
theorem replayTransforms_freezes {done : List TransformId} {p : Progress} (hf : Regular f)
    (hpairs : ∀ q ∈ pairs, f.HasAxis q.2) (hdone : done <+: neededTransforms f source target pos)
    (h : (replayTransforms (.of f source target mode unmappable) done
      (.start f source target pairs)).Returns f p f₁) : Freezes f f₁ := by
  refine Replays.freezes hf (replayTransforms_replays hf.sound (fun a ha => ?_)
    (fun t ht => hasTransform_of_mem_transformsBetween (hdone.subset ht))
    (fun a ha => hf.sound.domains target a (List.mem_append_right _ ha))
    (Images.bestEffortMap hf.sound hpairs) False.elim h)
  exact hf.sound.domains target a (List.mem_append_left _ (List.mem_append_left _ ha))

/-- A replay that fails has replayed the first ones of its transforms: the leaves of its target are
set last. -/
theorem run_of_fails_replay (h : (replay source target pairs pos mode unmappable).Fails f f') :
    ∃ done p, done <+: neededTransforms f source target pos ∧
      (replayTransforms (.of f source target mode unmappable) done
        (.start f source target pairs)).Returns f p f' := by
  unfold replay at h
  simp only [EditE.fails_bind, EditE.fails_get, EditE.returns_get, EditE.fails_ensure,
    EditE.fails_lift, EditE.fails_pure, and_false, exists_false, or_false, false_or] at h
  obtain ⟨f₀, f₁, ⟨rfl, rfl⟩, h⟩ := h
  obtain h | ⟨p, f₁, hrun, h⟩ := h
  · exact fails_replayTransforms h
  · refine ⟨_, p, List.prefix_refl _, ?_⟩
    obtain h | ⟨q, f₂, hcollect, -, rfl⟩ := h
    · rwa [← collectLeading_reads _ _ _ _ _ f₁ f' h.leaves]
    · rwa [← (collectLeading_reads _ _ _ _ _).eq_of_returns hcollect]

/-- A replay that fails freezes what is frozen. -/
theorem fails_replay (hf : Regular f) (hpairs : ∀ q ∈ pairs, f.HasAxis q.2)
    (h : (replay source target pairs pos mode unmappable).Fails f f') : Freezes f f' := by
  obtain ⟨done, p, hdone, hrun⟩ := run_of_fails_replay h
  exact replayTransforms_freezes hf hpairs hdone hrun

/-- A replay rearranges its target and gives a number of leaves of it. -/
theorem replay_rearranges (hf : Regular f) (htarget : f.isTensor target = true)
    (hpairs : ∀ q ∈ pairs, f.HasAxis q.2)
    (h : (replay source target pairs pos mode unmappable).Returns f n f') :
    Rearranges target f f' ∧ n ≤ (f'.view target).ndims := by
  obtain ⟨p, f₁, leaf, leading, f₂, newLeaf, hrun, hcollect, hnew, hfixed, rfl, rfl⟩ :=
    returns_replay.1 h
  have hruns := replayTransforms_start hf.sound hpairs False.elim hrun
  obtain ⟨hexpose, hleading, -, rfl⟩ := returns_collectLeading.1 hcollect
  have h₁ : Freezes f f₁ := Replays.freezes hf hruns
  have htarget₁ : f₁.isTensor target = true := (hruns.isTensor target).trans htarget
  constructor
  · refine .modify_sync hruns.view hruns.isTensor hruns.definingExpr hruns.axis htarget ?_
    refine h₁.setLeaf (u := ()) htarget₁ (fun a ha => ?_) ?_ (Edit.gives_modify.2 rfl)
    · rw [hnew] at ha
      rcases List.mem_append.1 ha with ha | ha
      · dsimp only at hleading
        rw [hleading] at ha
        obtain ⟨b, -, hget⟩ := List.mem_filterMap.1 ((mem_foldl_addNew.1 ha).resolve_left (by simp))
        exact hruns.images.get? hget
      · exact exposeAll_hasAxis hruns.sound hruns.leaf hexpose a (List.mem_filter.1 ha).1
    · have hmin : Min.min (f.view target).fixedPosition (f.leaf target).length =
          (f.view target).fixedPosition := Nat.min_eq_left (hf.within target)
      simp only [hmin, Bool.and_eq_true, beq_iff_eq] at hfixed
      rw [hruns.view target, TensorView.frozen]
      have htake := hfixed.2
      unfold Fusion.leaf at htake
      rw [← htake]
      exact List.take_prefix _ _
  · rw [view_modify_sync, if_pos (.inl rfl), if_pos htarget₁, hnew]
    simp [TensorView.ndims, TensorView.withLeaf]

end Replay

end Schedule
end FusionCompiler
