import FusionCompiler.Proofs.Fusion.OwningOperations
import FusionCompiler.Proofs.Schedule.FrozenCalls

/-!
# Transformed leaves and axes of their own

Transforming leaves and replaying them leaves all roots alone, and what a split or
a merge makes is new.

Main results:

- Theorems `Schedule.splitAxis_owns` and `Schedule.mergeAxes_owns`: a transform
  makes new axes.
- Theorems `Schedule.replay_owns` and `Schedule.computeAt_owns`: replays keep axes
  apart.
- Theorem `Schedule.setMemory_owns`: so does the choice of a memory.
-/

namespace FusionCompiler

open Fusion

namespace Fusion.OwnAxes

variable {f f' : Fusion} {spare rest : List AxisId}

/-- A change of a view that leaves the shape alone. -/
theorem modifyView (h : OwnAxes f spare) (v : ValueId) {g : TensorView → TensorView}
    (hroot : (g (f.view v)).domain.root = (f.view v).domain.root)
    (hrfactor : (g (f.view v)).domain.rfactor = (f.view v).domain.rfactor) :
    OwnAxes (f.modifyView v g) spare := by
  have hsame := SameGraph.modifyView f v g
  have hshape : ∀ w, ((f.modifyView v g).view w).domain.root = (f.view w).domain.root ∧
      ((f.modifyView v g).view w).domain.rfactor = (f.view w).domain.rfactor := by
    intro w
    rw [view_modifyView]
    split
    case isTrue hw =>
        rw [hw.1]
        exact ⟨hroot, hrfactor⟩
    case isFalse => exact ⟨rfl, rfl⟩
  refine h.inherit Eq (Nat.le_of_eq (by rw [hsame.axes]))
    hsame.transforms ?_ ?_ ?_ (h.computed.congr hsame.exprs hsame.definition)
  · intro w a ha
    rw [(hshape w).1] at ha
    exact ⟨w, rfl, ha⟩
  · rintro u w u' w' rfl rfl hkin
    exact hkin.congr (hsame.definition u) (hsame.definition u')
  · intro w a ha
    rw [TensorDomain.logical, (hshape w).1, (hshape w).2] at ha
    rw [(hshape w).1]
    exact h.logical w a ha

/-- Siblings take over a root that is theirs already. -/
theorem syncSiblings (h : OwnAxes f spare) (v : ValueId) : OwnAxes (f.syncSiblings v) spare := by
  have hsame := SameGraph.syncSiblings f v
  have hfrom : ∀ w, ∃ u, f.Kin u w ∧ (f.syncSiblings v).view w = f.view u := by
    intro w
    rw [view_syncSiblings]
    split
    case isTrue hw =>
        obtain ⟨x, hx, hmem, -, -⟩ := mem_siblings.1 hw
        obtain ⟨e, he, rfl⟩ := Option.map_eq_some_iff.1 hx
        exact ⟨v, .inr ⟨e, he, (h.computed.defines w e).2 hmem⟩, rfl⟩
    case isFalse => exact ⟨w, .refl f w, rfl⟩
  refine h.inherit f.Kin (Nat.le_of_eq (by rw [hsame.axes]))
    hsame.transforms ?_ ?_ ?_ (h.computed.congr hsame.exprs hsame.definition)
  · intro w a ha
    obtain ⟨u, hkin, hu⟩ := hfrom w
    rw [hu] at ha
    exact ⟨u, hkin, ha⟩
  · intro u w u' w' hw hw' hkin
    exact (hw.symm.trans (hkin.trans hw')).congr (hsame.definition w) (hsame.definition w')
  · intro w a ha
    obtain ⟨u, -, hu⟩ := hfrom w
    rw [hu] at ha ⊢
    exact h.logical u a ha

/-- A change of a view and its siblings that leaves the shape alone. -/
theorem modify_sync (h : OwnAxes f spare) (v : ValueId) {g : TensorView → TensorView}
    (hroot : (g (f.view v)).domain.root = (f.view v).domain.root)
    (hrfactor : (g (f.view v)).domain.rfactor = (f.view v).domain.rfactor) :
    OwnAxes ((f.modifyView v g).syncSiblings v) spare :=
  (h.modifyView v hroot hrfactor).syncSiblings v

end Fusion.OwnAxes

namespace Schedule

variable {f f' : Fusion} {spare : List AxisId}

/-! ## Leaves -/

/-- A building step within a schedule. -/
theorem build_owns {α : Type} {x : Build α} (hx : EditE.Owns x) : EditE.Owns (build x) :=
  .mapError hx

/-- Looking a tensor up. -/
theorem ensureView_owns (v : ValueId) : EditE.Owns (build (Build.ensureTensor v)) :=
  build_owns (Build.ensureTensor_owns v)

/-- Reading a position. -/
theorem axisPosition_owns (axis : Int) (ndims : Nat) : EditE.Owns (axisPosition axis ndims) :=
  build_owns (.ofExcept _)

/-- Checking that a leaf is not fixed. -/
theorem ensureUnfixed_owns (tensor : ValueId) (axis : Nat) :
    EditE.Owns (ensureUnfixed tensor axis) :=
  .get_bind fun _ => .ensure _ _

/-- Leaves are no roots, so other leaves change no root. -/
theorem setLeaf_owns (v : ValueId) (leaf : List AxisId) : Edit.Owns (setLeaf v leaf) :=
  .modify fun _ _ hf => hf.modify_sync v rfl rfl

/-- The two axes of a split are new. -/
theorem splitAxis_owns (a : AxisId) (factor : ValueId) (innerSplit : Bool) :
    EditE.Owns (splitAxis a factor innerSplit) := by
  unfold splitAxis
  refine .get_bind fun f => .bind (build_owns (Build.binaryOp_owns _ _ _)) fun q => ?_
  intro g p f' spare h hg
  simp only [EditE.returns_bind, EditE.returns_lift, EditE.returns_discard, EditE.returns_pure,
    Edit.gives_addAxis, Edit.gives_addTransform] at h
  obtain ⟨o, g₁, ⟨rfl, rfl⟩, i, g₂, ⟨rfl, rfl⟩, -, g₃, ⟨t, -, rfl⟩, -, rfl⟩ := h
  apply OwnAxes.pushTransform
  exact ((hg.pushAxis _).pushAxis _).perm (List.Perm.swap _ _ _)

/-- The axis of a merge is new. -/
theorem mergeAxes_owns (outer inner : AxisId) : EditE.Owns (mergeAxes outer inner) := by
  unfold mergeAxes
  refine .get_bind fun f => ?_
  dsimp only
  split
  · exact .throw _
  · refine .bind (.mapError (Build.binaryOp_owns _ _ _)) fun e => ?_
    intro g p f' spare h hg
    simp only [EditE.returns_bind, EditE.returns_lift, EditE.returns_discard, EditE.returns_pure,
      Edit.gives_addAxis, Edit.gives_addTransform] at h
    obtain ⟨o, g₁, ⟨rfl, rfl⟩, -, g₂, ⟨t, -, rfl⟩, -, rfl⟩ := h
    apply OwnAxes.pushTransform
    exact hg.pushAxis _

/-- A factor that is a number becomes a scalar. -/
theorem resolveFactor_owns (tensor : ValueId) (factor : SplitFactor) :
    EditE.Owns (resolveFactor tensor factor) := by
  cases factor with
  | const n => exact .bind (.ensure _ _) fun _ => .lift Edit.newScalar_owns
  | value v =>
      exact .get_bind fun _ => .bind (.ensure _ _) fun _ => .bind (.ensure _ _) fun _ => .pure _

/-- A split leaves all roots alone. -/
theorem split_owns (tensor : ValueId) (axis : Int) (factor : SplitFactor) (innerSplit : Bool) :
    EditE.Owns (split tensor axis factor innerSplit) := by
  unfold split
  exact .bind (ensureView_owns tensor) fun _ => .bind (axisPosition_owns _ _) fun _ =>
    .bind (ensureUnfixed_owns _ _) fun _ => .bind (resolveFactor_owns _ _) fun _ =>
    .get_bind fun _ => .bind (splitAxis_owns _ _ _) fun _ => .lift (setLeaf_owns _ _)

/-- A merge leaves all roots alone. -/
theorem merge_owns (tensor : ValueId) (outer inner : Int) :
    EditE.Owns (merge tensor outer inner) := by
  unfold merge
  exact .bind (ensureView_owns tensor) fun _ => .bind (axisPosition_owns _ _) fun _ =>
    .bind (axisPosition_owns _ _) fun _ => .bind (.ensure _ _) fun _ =>
    .bind (ensureUnfixed_owns _ _) fun _ => .get_bind fun _ =>
    .bind (.mapError (mergeAxes_owns _ _)) fun _ => .lift (setLeaf_owns _ _)

/-- Another order of leaves leaves all roots alone. -/
theorem reorder_owns (tensor : ValueId) (moves : List (Int × Int)) :
    EditE.Owns (reorder tensor moves) := by
  unfold reorder
  refine .bind (ensureView_owns tensor) fun view => .bind (.ofExcept _) fun moves => ?_
  dsimp only
  split
  · exact .throw _
  · exact .lift (setLeaf_owns _ _)

/-! ## Replays -/

/-- Exposing an axis only reads. -/
theorem expose_owns (g : ReplayGoal) (leaf : List AxisId) (a : AxisId) :
    EditE.Owns (expose g leaf a) := by
  unfold expose
  refine .get_bind fun f => ?_
  split
  · exact .pure _
  · exact .throw _

/-- Replaying a transform leaves all roots alone. -/
theorem replayTransform_owns (g : ReplayGoal) (p : Progress) (t : TransformId) :
    EditE.Owns (replayTransform g p t) := by
  unfold replayTransform
  refine .get_bind fun f => ?_
  split
  · dsimp only
    split
    · exact .pure _
    · split
      · exact .pure _
      · exact .bind (expose_owns _ _ _) fun _ => .bind (.ensure _ _) fun _ =>
          .bind (splitAxis_owns _ _ _) fun _ => .pure _
  · dsimp only
    split
    · exact .pure _
    · split
      · exact .bind (expose_owns _ _ _) fun _ => .bind (expose_owns _ _ _) fun _ =>
          .bind (.ensure _ _) fun _ => .bind (.mapError (mergeAxes_owns _ _)) fun _ => .pure _
      · exact .pure _
      · exact .pure _
      · exact .pure _

/-- Replaying several transforms leaves all roots alone. -/
theorem replayTransforms_owns (g : ReplayGoal) (ts : List TransformId) (p : Progress) :
    EditE.Owns (replayTransforms g ts p) := by
  induction ts generalizing p with
  | nil => exact .pure _
  | cons t ts ih => exact .bind (replayTransform_owns _ _ _) fun p => ih p

/-- Collecting the leading leaves only exposes axes. -/
theorem collectLeading_owns (g : ReplayGoal) (images : AxisMap) (as leaf leading : List AxisId) :
    EditE.Owns (collectLeading g images as leaf leading) := by
  induction as generalizing leaf leading with
  | nil => exact .pure _
  | cons a as ih =>
      unfold collectLeading
      split
      · exact .bind (expose_owns _ _ _) fun _ => ih _ _
      · exact .get_bind fun _ => .bind (.ensure _ _) fun _ => ih _ _

/-- A replay keeps axes apart. -/
theorem replay_owns (source target : ValueId) (pairs : List (AxisId × AxisId)) (pos : Nat)
    (mode : ReplayMode) (unmappable : AxisId → ScheduleError) :
    EditE.Owns (replay source target pairs pos mode unmappable) := by
  unfold replay
  exact .get_bind fun _ => .bind (replayTransforms_owns _ _ _) fun _ =>
    .bind (collectLeading_owns _ _ _ _ _) fun _ => .bind (.ensure _ _) fun _ =>
    .bind (.lift (setLeaf_owns _ _)) fun _ => .pure _

/-- A replay from consumer to producer leaves all roots alone. -/
theorem replayOntoProducer_owns (roots : Option RootMap) (producer consumer : ValueId) (pos : Nat)
    (mode : ReplayMode) : EditE.Owns (replayOntoProducer replay roots producer consumer pos mode) :=
  .get_bind fun _ => .bind (.ensure _ _) fun _ => replay_owns _ _ _ _ _ _

/-- A replay from producer to consumer leaves all roots alone. -/
theorem replayOntoConsumer_owns (roots : Option RootMap) (consumer producer : ValueId) (pos : Nat)
    (mode : ReplayMode) :
    EditE.Owns (replayOntoConsumer replay roots consumer producer pos mode) := by
  intro f n f' spare h hf
  obtain ⟨-, -, h⟩ := returns_replayOntoConsumer.1 h
  exact replay_owns _ _ _ _ _ _ f n f' spare h hf

/-- A change of a view that keeps the domain. -/
theorem updateView_owns (v : ValueId) {g : TensorView → TensorView}
    (hg : ∀ x, (g x).domain = x.domain) : Edit.Owns (updateView v g) :=
  .modify fun f _ hf => hf.modify_sync v (by rw [hg]) (by rw [hg])

/-- Walking back to producers replays and changes positions. -/
theorem backward_owns (roots : RootMap) (members vs : List ValueId)
    (positions : List (ValueId × Nat)) :
    EditE.Owns (backward replay roots members vs positions) := by
  induction vs generalizing positions with
  | nil => exact .pure _
  | cons v vs ih =>
      unfold backward
      refine .get_bind fun f => ?_
      dsimp only
      split
      · exact ih _
      · exact .bind (replayOntoProducer_owns _ _ _ _ _) fun _ =>
          .bind (.lift (updateView_owns _ fun _ => rfl)) fun _ =>
          .bind (.lift (updateView_owns _ fun _ => rfl)) fun _ => ih _

/-- Walking to the uses of a tensor replays and changes positions. -/
theorem forwardUses_owns (g : ForwardGoal) (v : ValueId) (vs : List ValueId) :
    EditE.Owns (forwardUses replay g v vs) := by
  induction vs with
  | nil => exact .pure _
  | cons next vs ih =>
      have hrest : ∀ pos, EditE.Owns (do
          let nextPos ← replayOntoConsumer replay (some g.roots) next v pos .computeAt
          updateView next (·.raiseMaxProducer nextPos)
          return next :: (← forwardUses replay g v vs) : Schedule (List ValueId)) := fun pos =>
        .bind (replayOntoConsumer_owns _ _ _ _ _) fun _ =>
          .bind (.lift (updateView_owns _ fun _ => rfl)) fun _ => .bind ih fun _ => .pure _
      unfold forwardUses
      refine .get_bind fun f => ?_
      split
      · exact ih
      · dsimp only
        split
        · exact .bind (.lift (updateView_owns _ fun _ => rfl)) fun _ => hrest _
        · exact hrest _

/-- Walking forward to consumers replays and changes positions. -/
theorem forward_owns (g : ForwardGoal) (vs active : List ValueId) :
    EditE.Owns (forward replay g vs active) := by
  induction vs generalizing active with
  | nil => exact .pure _
  | cons v vs ih =>
      unfold forward
      split
      · exact ih _
      · exact .get_bind fun _ => .bind (forwardUses_owns _ _ _) fun _ => ih _

/-- Inlining a tensor replays and changes positions. -/
theorem computeAt_owns (producer consumer : ValueId) (pos : Int) :
    EditE.Owns (computeAtWith replay producer consumer pos) := by
  unfold computeAtWith
  exact .bind (ensureView_owns producer).discard fun _ => .bind (ensureView_owns consumer) fun _ =>
    .bind (.ofExcept _) fun _ => .get_bind fun _ => .bind (.ensure _ _) fun _ =>
    .bind (backward_owns _ _ _ _) fun _ => .get_bind fun _ => forward_owns _ _ _

/-- Spreading loops replays only. -/
theorem spread_owns (fuel : Nat) (reached : List Reached) :
    EditE.Owns (spread replay fuel reached) := by
  induction fuel generalizing reached with
  | zero => exact .pure _
  | succ fuel ih =>
      unfold spread
      refine .get_bind fun f => ?_
      split
      · exact .pure _
      · dsimp only
        split
        · exact .bind (replayOntoProducer_owns _ _ _ _ _).discard fun _ => .get_bind fun _ => ih _
        · exact .bind (replayOntoConsumer_owns _ _ _ _ _).discard fun _ => .get_bind fun _ => ih _

/-- Propagating loops from a tensor replays only. -/
theorem propagateTransforms_owns (reference : ValueId) :
    EditE.Owns (propagateTransformsWith replay reference) := by
  unfold propagateTransformsWith
  exact .bind (ensureView_owns reference) fun _ => .get_bind fun _ => spread_owns _ _

/-! ## Execution and memory -/

/-- Choosing an execution changes an axis and no root. -/
theorem parallelize_owns (tensor : ValueId) (axis : Int) (parallel : ParallelType) :
    EditE.Owns (parallelize tensor axis parallel) := by
  have hdone : ∀ a, EditE.Owns (modify (·.modifyAxis a fun x => { x with parallel }) :
      Schedule Unit) := fun a => .modify fun _ _ hf => hf.modifyAxis a _
  unfold parallelize
  refine .bind (ensureView_owns tensor) fun view => .bind (axisPosition_owns _ _) fun axis => ?_
  dsimp only
  split
  · exact .bind (.ensure _ _) fun _ => .get_bind fun _ => .bind (.ensure _ _) fun _ => hdone _
  · exact hdone _

/-- Copying executions changes axes and no root. -/
theorem copyExecution_ownAxes (types : ParallelSet) (leaf : List AxisId)
    (pairs : List (AxisId × AxisId)) (hf : OwnAxes f spare) :
    OwnAxes (pairs.foldl (copyExecution types leaf) f) spare := by
  induction pairs generalizing f with
  | nil => exact hf
  | cons p pairs ih =>
      apply ih
      unfold copyExecution
      dsimp only
      split
      · exact hf.modifyAxis _ _
      · exact hf

/-- Copying executions to several tensors leaves all roots alone. -/
theorem parallelizeLike_owns (reference : ValueId) (tensors : List ValueId) (types : ParallelSet) :
    EditE.Owns (parallelizeLike reference tensors types) := by
  unfold parallelizeLike
  refine .bind (ensureView_owns reference).discard fun _ => .get_bind fun f => .forM fun v =>
    .modify fun f spare hf => ?_
  split
  · exact hf
  · split
    · exact hf
    · exact (copyExecution_ownAxes _ _ _ hf).syncSiblings v

/-- Choosing a memory leaves all roots alone. -/
theorem setMemory_owns (tensor : ValueId) (memory : MemoryType) :
    EditE.Owns (setMemory tensor memory) := by
  unfold setMemory
  exact .bind (ensureView_owns tensor).discard fun _ => .get_bind fun _ =>
    .bind (.ensure _ _) fun _ => .modify fun _ _ hf => hf.modify_sync tensor rfl rfl

end Schedule
end FusionCompiler
