import FusionCompiler.Proofs.Schedule.FrozenInlining

/-!
# Frozen leaves under copies and factored reductions

Calls that rewrite expressions demand that nothing of their tensor is frozen,
and what they make is not inlined.  So each of them freezes what is frozen, also
when it fails on the way.

Main results:

- Theorem `Fusion.Freezes.ofUnfixed`: steps that change views without positions
  only.
- Theorems `Schedule.parallelize_freezes`, `Schedule.parallelizeLike_freezes` and
  `Schedule.setMemory_freezes`: choosing executions and memory.
- Theorems `Schedule.cacheAfter_freezes`, `Schedule.cacheBefore_freezes` and
  `Schedule.cacheFork_freezes`: placing copies.
- Theorem `Schedule.rfactor_freezes`: factoring a reduction, also when it fails
  between its two stages.
-/

namespace FusionCompiler

namespace Fusion

variable {f f' f₁ : Fusion}

/-! ## Views shared by the results of an expression -/

/-- Values computed by one expression have one view. -/
def Shares (f : Fusion) : Prop :=
  ∀ e x, f.expr? e = some x → ∀ v ∈ x.outputs, ∀ w ∈ x.outputs, f.view w = f.view v

namespace Shares

/-- The results of one expression share a view. -/
theorem expr (h : Shares f) {e : ExprId} {v w : ValueId} (hv : v ∈ (f.expr e).outputs)
    (hw : w ∈ (f.expr e).outputs) : f.view w = f.view v := by
  unfold Fusion.expr at hv hw
  cases hx : f.expr? e with
  | none =>
      rw [hx] at hv
      cases hv
  | some x =>
      rw [hx, Option.getD_some] at hv hw
      exact h e x hx v hv w hw

/-- An expression less. -/
theorem removeExpr (h : Shares f) (e : ExprId) : Shares (f.removeExpr e) := by
  intro d x hx v hv w hw
  rw [expr?_removeExpr] at hx
  split at hx
  · cases hx
  · rw [view_removeExpr, view_removeExpr]
    exact h d x hx v hv w hw

/-- An expression of which the results share a view. -/
theorem pushExpr (h : Shares f) {x : Expr}
    (hx : ∀ v ∈ x.outputs, ∀ w ∈ x.outputs, f.view w = f.view v) : Shares (f.pushExpr x) := by
  intro d y hy v hv w hw
  rw [expr?_pushExpr] at hy
  rw [view_pushExpr, view_pushExpr]
  split at hy
  · cases hy
    exact hx v hv w hw
  · exact h d y hy v hv w hw

/-- Sharing depends on values and expressions only. -/
theorem congr (h : Shares f) (hvalues : f'.values = f.values) (hexprs : f'.exprs = f.exprs) :
    Shares f' := by
  intro e x hx v hv w hw
  rw [Fusion.expr?, hexprs] at hx
  rw [view, value, hvalues, view, value, hvalues]
  exact h e x hx v hv w hw

/-- Changing the view of a value that no expression computes. -/
theorem modifyView (h : Shares f) {v : ValueId} (g : TensorView → TensorView)
    (hv : ∀ e x, f.expr? e = some x → v ∉ x.outputs) : Shares (f.modifyView v g) := by
  intro e x hx u hu w hw
  have hx' : f.expr? e = some x := hx
  rw [view_modifyView, view_modifyView, if_neg, if_neg]
  · exact h e x hx' u hu w hw
  · rintro ⟨rfl, -⟩
    exact hv e x hx' hu
  · rintro ⟨rfl, -⟩
    exact hv e x hx' hw

end Shares

/-- In a regular fusion all siblings share a view. -/
theorem Regular.allShare (hf : Regular f) : Shares f :=
  fun _ _ hx _ hv _ hw => hf.shares hx hv hw

/-- A view is as before, or has no positions before and after. -/
def Unfixed (x y : TensorView) : Prop :=
  y = x ∨ x.fixedPosition = 0 ∧ y.fixedPosition = 0

/-- What is added is not inlined, and what was there keeps its view. -/
theorem Adds.unfixed (h : Adds f f') (v : ValueId) : Unfixed (f.view v) (f'.view v) := by
  by_cases hv : f.HasValue v
  · exact .inl (h.view v hv)
  · refine .inr ⟨?_, h.fresh v hv⟩
    rw [view_of_not_hasValue hv]
    rfl

/-- Steps that change views without positions only. -/
theorem Freezes.ofUnfixed (hf : Regular f) (hk : Keeps False f f')
    (hview : ∀ v, Unfixed (f.view v) (f'.view v)) (hshares : Shares f') : Freezes f f' := by
  refine ⟨⟨hk.sound, hk.wired hf.wired, fun v => ?_, fun v _ w hw =>
    together_of_shares hk.sound hshares hw⟩, hk.ext, fun v => ?_⟩
  · rcases hview v with heq | ⟨-, hzero⟩
    · rw [heq]
      exact hf.within v
    · rw [hzero]
      exact Nat.zero_le _
  · rcases hview v with heq | ⟨hzero, -⟩
    · rw [heq]
      exact .refl _
    · exact .ofUnfixed hzero _

end Fusion

open Fusion

namespace Schedule

variable {f f' f₁ : Fusion}

/-! ## Execution and memory -/

/-- A replacement of the fusion that freezes what is frozen. -/
theorem modify_freezes {g : Fusion → Fusion} (hg : Freezes f (g f))
    (h : EditE.Leaves (modify g : Schedule PUnit) f f') : Freezes f f' := by
  obtain ⟨u, h⟩ | h := EditE.leaves_iff.1 h
  · rwa [← EditE.returns_modify.1 h]
  · exact absurd h EditE.fails_modify

/-- Choosing an execution freezes what is frozen, whether it succeeds or fails. -/
theorem parallelize_freezes {tensor : ValueId} {axis : Int} {parallel : ParallelType}
    (hf : Regular f) (h : (parallelize tensor axis parallel).Leaves f f') : Freezes f f' := by
  unfold parallelize at h
  obtain rfl | ⟨x, hx, h⟩ := (Build.ensureTensor_reads tensor).mapError.leaves_bind h
  · exact .refl hf
  obtain rfl | ⟨p, hp, h⟩ := (axisPosition_reads _ _).leaves_bind h
  · exact .refl hf
  have hdone : ∀ {a : AxisId}, EditE.Leaves (modify (·.modifyAxis a fun x =>
      { x with parallel }) : Schedule Unit) f f' → Freezes f f' := by
    intro a h
    exact modify_freezes (.ofExtents hf (SameExtents.modifyAxis f a
      (g := fun x => { x with parallel }) fun _ => rfl)) h
  dsimp only at h
  split at h
  · obtain rfl | ⟨_, -, h⟩ := (EditE.Reads.ensure _ _).leaves_bind h
    · exact .refl hf
    obtain rfl | ⟨f₀, -, h⟩ := EditE.Reads.get.leaves_bind h
    · exact .refl hf
    obtain rfl | ⟨_, -, h⟩ := (EditE.Reads.ensure _ _).leaves_bind h
    · exact .refl hf
    exact hdone h
  · exact hdone h

/-- Siblings of a value have its view already. -/
theorem view_syncSiblings_eq (hf : Regular f) (v w : ValueId) :
    (f.syncSiblings v).view w = f.view w := by
  rw [view_syncSiblings]
  split
  case isTrue hw =>
      obtain ⟨x, hx, hmem, -, hwt⟩ := mem_siblings.1 hw
      obtain ⟨e, he, rfl⟩ := Option.map_eq_some_iff.1 hx
      obtain ⟨y, hy, hout⟩ := hf.sound.defined v e he
      rw [Fusion.expr, hy] at hmem
      exact (hf.shares hy hout hmem).symm
  case isFalse => rfl

/-- Giving siblings the view of a tensor changes nothing in a regular fusion. -/
theorem syncSiblings_freezes (hf : Regular f) (v : ValueId) : Freezes f (f.syncSiblings v) :=
  have hsame := SameGraph.syncSiblings f v
  .ofViews hf ((Keeps.refl hf.sound).syncSiblings v) (view_syncSiblings_eq hf v) hsame.isTensor
    fun w _ => hsame.definingExpr? w

/-- Repeated replacements, each of which freezes what is frozen. -/
theorem forM_modify_freezes {g : ValueId → Fusion → Fusion} {vs : List ValueId}
    (hg : ∀ v f, Regular f → Freezes f (g v f)) (hf : Regular f)
    (h : EditE.Leaves (vs.forM fun v => (modify (g v) : Schedule PUnit)) f f') : Freezes f f' := by
  induction vs generalizing f with
  | nil =>
      obtain rfl := EditE.Reads.pure _ f f' h
      exact .refl hf
  | cons v vs ih =>
      obtain h | ⟨_, f₁, hstep, h⟩ := EditE.leaves_bind.1 h
      · exact absurd h EditE.fails_modify
      · have hone := modify_freezes (hg v f hf) hstep.leaves
        exact hone.trans (ih hone.regular h)

/-- Copying executions freezes what is frozen. -/
theorem parallelizeLike_freezes {reference : ValueId} {tensors : List ValueId}
    {types : ParallelSet} (hf : Regular f)
    (h : (parallelizeLike reference tensors types).Leaves f f') : Freezes f f' := by
  unfold parallelizeLike at h
  obtain rfl | ⟨_, -, h⟩ := (Build.ensureTensor_reads reference).mapError.discard.leaves_bind h
  · exact .refl hf
  obtain rfl | ⟨f₀, hget, h⟩ := EditE.Reads.get.leaves_bind h
  · exact .refl hf
  obtain ⟨rfl, -⟩ := EditE.returns_get.1 hget
  dsimp only at h
  refine forM_modify_freezes (fun v g hg => ?_) hf h
  split
  · exact .refl hg
  · split
    · exact .refl hg
    case h_2 m _ =>
      have hcopy : Freezes g (m.pairs.foldl (copyExecution types (g.leaf v)) g) :=
        .ofExtents hg (SameExtents.foldl (copyExecution_sameExtents types (g.leaf v)) _ g)
      exact hcopy.trans (syncSiblings_freezes hcopy.regular v)

/-- Choosing a memory freezes what is frozen. -/
theorem setMemory_freezes {tensor : ValueId} {memory : MemoryType} (hf : Regular f)
    (h : (setMemory tensor memory).Leaves f f') : Freezes f f' := by
  unfold setMemory at h
  obtain rfl | ⟨_, hx, h⟩ := (Build.ensureTensor_reads tensor).mapError.discard.leaves_bind h
  · exact .refl hf
  obtain ⟨x, hx⟩ := EditE.returns_discard.1 hx
  obtain rfl | ⟨f₀, -, h⟩ := EditE.Reads.get.leaves_bind h
  · exact .refl hf
  obtain rfl | ⟨_, -, h⟩ := (EditE.Reads.ensure _ _).leaves_bind h
  · exact .refl hf
  refine modify_freezes ?_ h
  exact (Freezes.refl hf).modify_sync (returns_ensureView.1 hx).1 (hf.sound.domains tensor)
    (.ofLeaf (Nat.le_refl _) (Nat.le_refl _) rfl) (hf.within tensor)

/-! ## Copies -/

/-- Expressions that read another operand compute what they did. -/
theorem replaceInputs_shares {es : List ExprId} {old new : ValueId} {u : Unit}
    (h : (es.forM fun e => discard (liftM (Edit.replaceInput e old new) : Schedule ExprId)).Returns
      f u f') : (∀ v, f'.view v = f.view v) ∧ (Shares f → Shares f') := by
  induction es generalizing f with
  | nil =>
      obtain ⟨-, rfl⟩ := EditE.returns_pure.1 h
      exact ⟨fun _ => rfl, id⟩
  | cons e es ih =>
      obtain ⟨_, f₁, hstep, h⟩ := EditE.returns_bind.1 h
      simp only [EditE.returns_discard, EditE.returns_lift, Edit.replaceInput,
        Edit.gives_recreateExpr, List.map_id] at hstep
      obtain ⟨d, -, rfl⟩ := hstep
      obtain ⟨hview, hshares⟩ := ih h
      refine ⟨fun v => ?_, fun hf => hshares ?_⟩
      · rw [hview, view_pushExpr, view_removeExpr]
      · refine (hf.removeExpr e).pushExpr fun v hv w hw => ?_
        rw [view_removeExpr, view_removeExpr]
        exact hf.expr hv hw

/-- Other operands leave axes, transforms and outputs alone. -/
theorem replaceInputs_tables {es : List ExprId} {old new : ValueId} {u : Unit}
    (h : (es.forM fun e => discard (liftM (Edit.replaceInput e old new) : Schedule ExprId)).Returns
      f u f') : f'.axes = f.axes ∧ f'.transforms = f.transforms ∧ f'.outputs = f.outputs := by
  induction es generalizing f with
  | nil =>
      obtain ⟨-, rfl⟩ := EditE.returns_pure.1 h
      exact ⟨rfl, rfl, rfl⟩
  | cons e es ih =>
      obtain ⟨_, f₁, hstep, h⟩ := EditE.returns_bind.1 h
      simp only [EditE.returns_discard, EditE.returns_lift, Edit.replaceInput,
        Edit.gives_recreateExpr, List.map_id] at hstep
      obtain ⟨d, -, rfl⟩ := hstep
      obtain ⟨haxes, htransforms, houtputs⟩ := ih h
      refine ⟨haxes.trans ?_, htransforms.trans ?_, houtputs.trans ?_⟩
      · rw [axes_pushExpr, axes_removeExpr]
      · rw [transforms_pushExpr, transforms_removeExpr]
      · rw [outputs_pushExpr, outputs_removeExpr]

/-- A sequence of edits that cannot fail. -/
theorem not_fails_forM {α : Type} {xs : List α} {k : α → Schedule PUnit}
    (hk : ∀ x f f', ¬ (k x).Fails f f') : ¬ (xs.forM k).Fails f f' := by
  induction xs generalizing f with
  | nil => exact EditE.fails_pure
  | cons x xs ih =>
      intro h
      obtain h | ⟨_, f₁, -, h⟩ := EditE.fails_bind.1 h
      · exact hk x f f' h
      · exact ih h

/-- A copy after a tensor is made as a whole, or not at all. -/
theorem cacheAfter_atomic (tensor : ValueId) : EditE.Atomic (cacheAfter tensor) := by
  unfold cacheAfter
  refine .bind (Build.ensureTensor_reads tensor).mapError fun x => .bind (.ensure _ _) fun _ =>
    .bind .get fun g => ?_
  refine .bind_lift (Build.copy_atomic tensor).mapError fun c g g' h => ?_
  obtain h | ⟨_, g₁, -, h⟩ := EditE.fails_bind.1 h
  · exact not_fails_forM (fun e g g' h => by simp at h) h
  · exact absurd h EditE.fails_pure

/-- A copy behind a tensor freezes what is frozen. -/
theorem cacheAfter_freezes {tensor : ValueId} (hf : Regular f)
    (h : (cacheAfter tensor).Leaves f f') : Freezes f f' := by
  obtain ⟨cache, h⟩ | h := EditE.leaves_iff.1 h
  · have hk : Keeps False f f' := cacheAfter_keeps hf.sound h
    unfold cacheAfter at h
    simp only [EditE.returns_bind, returns_ensureView, EditE.returns_ensure, EditE.returns_get,
      EditE.returns_pure] at h
    obtain ⟨x, f₁, ⟨ht, -, rfl⟩, -, f₂, ⟨-, rfl⟩, f₀, f₃, ⟨rfl, rfl⟩, out, f₁, hcopy, _, f₂, hforM,
      rfl, rfl⟩ := h
    have hcopy := EditE.returns_mapError.1 hcopy
    have hadds := Build.copy_adding _ f f₁ hcopy.leaves
    have hknown : Build.Known f (.value tensor) := hasValue_of_isTensor ht
    have hb := Build.copy_builds hf.sound hknown hcopy
    have h₁ : Freezes f f₁ := .ofAdds hf hb.keeps hadds
    obtain ⟨hview, hshares⟩ := replaceInputs_shares hforM
    refine .ofUnfixed hf hk (fun v => ?_) (hshares h₁.regular.allShare)
    rw [hview v]
    exact hadds.unfixed v
  · obtain rfl := cacheAfter_atomic tensor f f' h
    exact .refl hf

/-- A copy of an output that fails has done nothing. -/
theorem cacheFork_atomic (tensor : ValueId) : EditE.Atomic (cacheFork tensor) := by
  unfold cacheFork
  refine .bind (Build.ensureTensor_reads tensor).mapError.discard fun _ => .bind .get fun g =>
    .bind (.ensure _ _) fun _ => .bind (.ensure _ _) fun _ => ?_
  exact .bind_lift (Build.copy_atomic tensor).mapError fun c g g' h => by simp at h

/-- A copy of an output freezes what is frozen. -/
theorem cacheFork_freezes {tensor : ValueId} (hf : Regular f)
    (h : (cacheFork tensor).Leaves f f') : Freezes f f' := by
  obtain ⟨fork, h⟩ | h := EditE.leaves_iff.1 h
  · have hk : Keeps False f f' := cacheFork_keeps hf.sound h
    unfold cacheFork at h
    simp only [EditE.returns_bind, EditE.returns_discard, returns_ensureView, EditE.returns_ensure,
      EditE.returns_get, EditE.returns_modify, EditE.returns_pure] at h
    obtain ⟨-, f₁, ⟨x, -, -, rfl⟩, f₀, f₂, ⟨rfl, rfl⟩, -, f₃, ⟨-, rfl⟩, -, f₄, ⟨-, rfl⟩, out, f₁,
      hcopy, _, f₂, rfl, rfl, rfl⟩ := h
    have hadds := Build.copy_adding _ f f₁ (EditE.returns_mapError.1 hcopy).leaves
    exact .ofAdds hf hk (hadds.ofValues rfl rfl)
  · obtain rfl := cacheFork_atomic tensor f f' h
    exact .refl hf

/-- Copying an axis changes no value and no expression. -/
theorem freshAxis_values {a b : AxisId} {kind : AxisKind}
    (h : Edit.Gives (freshAxis a kind) f b f') :
    f'.values = f.values ∧ f'.exprs = f.exprs := by
  unfold freshAxis Edit.copyAxis at h
  simp only [Edit.gives_bind, Edit.gives_get, Edit.gives_addAxis, Edit.gives_modify,
    Edit.gives_pure] at h
  obtain ⟨c, f₁, ⟨f₀, f₂, ⟨rfl, rfl⟩, rfl, rfl⟩, _, f₃, rfl, rfl, rfl⟩ := h
  exact ⟨rfl, rfl⟩

/-- Copies of axes change neither values nor expressions. -/
theorem freshAxes_values {axes copies : List AxisId} (h : Edit.Gives (freshAxes axes) f copies f') :
    f'.values = f.values ∧ f'.exprs = f.exprs := by
  unfold freshAxes at h
  induction axes generalizing f copies with
  | nil =>
      obtain ⟨-, rfl⟩ := Edit.gives_pure.1 h
      exact ⟨rfl, rfl⟩
  | cons a axes ih =>
      rw [List.mapM_cons] at h
      simp only [Edit.gives_bind, Edit.gives_get, Edit.gives_pure] at h
      obtain ⟨b, f₁, ⟨f₀, f₂, ⟨rfl, rfl⟩, hb⟩, bs, f₃, hbs, rfl, rfl⟩ := h
      obtain ⟨hvalues, hexprs⟩ := freshAxis_values hb
      obtain ⟨hvalues', hexprs'⟩ := ih hbs
      exact ⟨hvalues'.trans hvalues, hexprs'.trans hexprs⟩

/-- The computation of a tensor without siblings is written into a new value. -/
theorem replaceResult_shares {tensor new : ValueId} {e : ExprId} {ins : List ValueId}
    (hf : Regular f) (ht : f.isTensor tensor = true) (hdef : f.definition tensor = some e)
    (hsiblings : (f.siblings tensor).isEmpty = true) (hne : tensor ≠ new)
    (heq : (f.removeExpr e).pushExpr ⟨(f.expr e).kind, ins,
      (f.expr e).outputs.map fun v => if v = tensor then new else v⟩ = f') :
    Shares f' ∧ (∀ v, f'.view v = f.view v) ∧
      ∀ d x, f'.expr? d = some x → tensor ∉ x.outputs := by
  subst heq
  have hcomputes := ComputesTensors.ofDefinition hf.sound ht hdef
  have houtputs : ∀ v ∈ (f.expr e).outputs.map (fun v => if v = tensor then new else v),
      v = new := by
    intro v hv
    obtain ⟨w, hw, rfl⟩ := List.mem_map.1 hv
    exact if_pos (eq_of_siblings_isEmpty hdef hsiblings hw
      (isTensor_of_mem_outputs hcomputes.outputs hw))
  refine ⟨(hf.allShare.removeExpr e).pushExpr fun v hv w hw => ?_, fun v => ?_,
    fun d x hx hmem => ?_⟩
  · rw [houtputs v hv, houtputs w hw]
  · rw [view_pushExpr, view_removeExpr]
  · rw [expr?_pushExpr, expr?_removeExpr] at hx
    split at hx
    · cases hx
      exact hne (houtputs tensor hmem)
    · split at hx
      · cases hx
      case isFalse hother =>
          have hd := hf.wired.defines d x hx tensor hmem
          rw [hdef] at hd
          exact hother (Option.some.inj hd).symm

/-- A copy in front of a tensor that fails has done nothing. -/
theorem cacheBefore_atomic (tensor : ValueId) : EditE.Atomic (cacheBefore tensor) := by
  unfold cacheBefore
  refine .bind (Build.ensureTensor_reads tensor).mapError fun x => .bind .get fun g => ?_
  split
  · exact .ofReads (.throw _)
  · refine .bind (.ensure _ _) fun _ => .bind (.ensure _ _) fun _ => ?_
    exact .bind_lift (.lift _) fun c g g' h => by simp at h

/-- The computation of a tensor without siblings goes into a copy, and the tensor reads the copy. -/
theorem cacheBefore_freezes {tensor : ValueId} (hf : Regular f)
    (h : (cacheBefore tensor).Leaves f f') : Freezes f f' := by
  obtain ⟨cache, h⟩ | h := EditE.leaves_iff.1 h
  · have hk := cacheBefore_keeps hf.sound h
    obtain ⟨definition, f₂, root, f₃, ht, hdef, hzero, hsiblings, rfl, hreplace, hroot, rfl⟩ :=
      returns_cacheBefore h
    have hhas := hasValue_of_isTensor ht
    have hadds := (Adds.refl f).pushTensor (f.dtype tensor) (f.view tensor).domain
    have hnew := newTensor_keeps (t := f.dtype tensor) hf.sound (hf.sound.domains tensor)
    have hf₁ := (Freezes.ofAdds hf hnew.1 hadds).regular
    have hne : tensor ≠ ⟨f.values.size⟩ := fun heq => Nat.lt_irrefl _ (heq ▸ hhas)
    obtain ⟨hshares₂, hview₂, hnot₂⟩ := replaceResult_shares hf₁
      ((hnew.1.ext.isTensor tensor hhas).trans ht) ((hadds.definition tensor hhas).trans hdef)
      (by rwa [hadds.siblings hf.sound hnew.1.ext hhas]) hne hreplace
    obtain ⟨hvalues, hexprs⟩ := freshAxes_values hroot
    have hview₃ : ∀ v, f₃.view v = f₂.view v := fun v => by
      rw [Fusion.view, Fusion.value, hvalues, Fusion.view, Fusion.value]
    refine .ofUnfixed hf hk (fun v => ?_) (((hshares₂.congr hvalues hexprs).modifyView _
      fun d y hy => hnot₂ d y ?_).pushExpr fun v hv w hw => ?_)
    · rw [view_pushExpr, view_modifyView]
      split
      case isTrue hv =>
          rw [hv.1]
          have hkept : f₃.view tensor = f.view tensor := by
            rw [hview₃, hview₂, hadds.view tensor hhas]
          refine .inr ⟨hzero, ?_⟩
          rw [hkept]
          exact hzero
      case isFalse =>
          rw [hview₃, hview₂]
          exact hadds.unfixed v
    · rwa [Fusion.expr?, ← hexprs]
    · rw [List.mem_singleton.1 hv, List.mem_singleton.1 hw]
  · obtain rfl := cacheBefore_atomic tensor f f' h
    exact .refl hf

/-! ## Steps of factoring -/

/-- Splitting an axis changes no tensor. -/
theorem splitAxis_adding (a : AxisId) (factor : ValueId) (innerSplit : Bool) :
    EditE.Adding (splitAxis a factor innerSplit) := by
  unfold splitAxis build
  refine .get_bind fun f => .bind (.mapError (Build.binaryOp_adding _ _ _)) fun q => ?_
  exact .bind (.lift (Edit.addAxis_adding _)) fun _ => .bind (.lift (Edit.addAxis_adding _))
    fun _ => .bind (.discard (.lift (Edit.addTransform_adding _))) fun _ => .pure _

/-- Merging axes changes no tensor. -/
theorem mergeAxes_adding (outer inner : AxisId) : EditE.Adding (mergeAxes outer inner) := by
  unfold mergeAxes
  refine .get_bind fun f => ?_
  dsimp only
  split
  · exact .throw _
  · refine .bind (.mapError (Build.binaryOp_adding _ _ _)) fun e => ?_
    exact .bind (.lift (Edit.addAxis_adding _)) fun _ =>
      .bind (.discard (.lift (Edit.addTransform_adding _))) fun _ => .pure _

/-- Repeating a transform on copies of axes changes no tensor. -/
theorem repeatTransform_adding (tensor : ValueId) (t : TransformId) (m : AxisMap) :
    EditE.Adding (repeatTransform tensor t m) := by
  unfold repeatTransform
  refine .get_bind fun f => ?_
  split
  · split
    · exact .pure _
    · exact .bind (splitAxis_adding _ _ _) fun _ => .pure _
  · split
    · exact .bind (.mapError (mergeAxes_adding _ _)) fun _ => .pure _
    · exact .pure _

/-- Repeating a history on copies of axes changes no tensor. -/
theorem repeatTransforms_adding (tensor : ValueId) (ts : List TransformId) (m : AxisMap) :
    EditE.Adding (repeatTransforms tensor ts m) := by
  induction ts generalizing m with
  | nil => exact .pure _
  | cons t ts ih => exact .bind (repeatTransform_adding _ _ _) fun m => ih m

/-- Copies of axes belong to no tensor yet. -/
theorem copyAxes_adding (axes : List (AxisId × AxisKind)) : Edit.Adding (copyAxes axes) := by
  induction axes with
  | nil => exact .pure _
  | cons a axes ih =>
      have hfresh : Edit.Adding (freshAxis a.1 a.2) := by
        unfold freshAxis Edit.copyAxis
        exact .bind (.get_bind fun f => Edit.addAxis_adding _) fun _ =>
          .bind (.modify fun f => (Adds.refl f).modifyAxis _ _) fun _ => .pure _
      exact hfresh.bind fun _ => ih.bind fun _ => .pure _

/-- Copying executions to new axes changes no tensor. -/
theorem copyParallel_adding (pairs : List (AxisId × AxisId)) :
    Edit.Adding (copyParallel pairs) :=
  .forM fun _ => .modify fun f => (Adds.refl f).modifyAxis _ _

/-- Changes of axes change no tensor. -/
theorem adds_foldl_modifyAxis (axes : List AxisId) (k : AxisId → AxisId) (g : Axis → Axis)
    (f : Fusion) : Adds f (axes.foldl (fun f a => f.modifyAxis (k a) g) f) := by
  induction axes generalizing f with
  | nil => exact .refl f
  | cons a axes ih => exact ((Adds.refl f).modifyAxis (k a) g).trans (ih _)

/-- The domain of the first stage is made beside what there is. -/
theorem partialDomain_adding (p : Factoring) (tensor : ValueId) :
    EditE.Adding (p.partialDomain tensor) := by
  unfold Factoring.partialDomain
  refine .get_bind fun f => .bind (.lift (copyAxes_adding _)) fun roots =>
    .bind (repeatTransforms_adding _ _ _) fun m => .bind (.modify fun g => ?_) fun _ =>
    .bind (.lift (copyParallel_adding _)) fun _ => .pure _
  exact adds_foldl_modifyAxis _ _ _ g

/-- The domain of the second stage is made beside what there is. -/
theorem finalDomain_adding (p : Factoring) (tensor : ValueId) :
    EditE.Adding (p.finalDomain tensor) := by
  unfold Factoring.finalDomain
  refine .get_bind fun f => .bind (.lift (copyAxes_adding _)) fun roots =>
    .bind (repeatTransforms_adding _ _ _) fun m => .bind (.mapM fun old => ?_) fun _ => .pure _
  split
  · exact .throw _
  · exact .bind (.lift (copyParallel_adding _)) fun _ => .pure _

/-- A transform that cannot be repeated is not recorded. -/
theorem repeatTransform_atomic (tensor : ValueId) (t : TransformId) (m : AxisMap) :
    EditE.Atomic (repeatTransform tensor t m) := by
  unfold repeatTransform
  refine .bind .get fun f => ?_
  split
  · split
    · exact .ofReads (.pure _)
    · exact .bind_lift (splitAxis_atomic _ _ _) fun r g g' h => by simp at h
  · split
    · exact .bind_lift (mergeAxes_atomic _ _).mapError fun r g g' h => by simp at h
    · exact .ofReads (.pure _)

/-- Where repeating transforms fails, some of the first ones have been repeated. -/
theorem fails_repeatTransforms {tensor : ValueId} {ts : List TransformId} {m : AxisMap}
    (h : (repeatTransforms tensor ts m).Fails f f') :
    ∃ done m', done <+: ts ∧ (repeatTransforms tensor done m).Returns f m' f' := by
  induction ts generalizing f m with
  | nil => exact absurd h EditE.fails_pure
  | cons t ts ih =>
      obtain h | ⟨m₁, f₁, hstep, h⟩ := EditE.fails_bind.1 h
      · obtain rfl := repeatTransform_atomic _ _ _ _ _ h
        exact ⟨[], m, List.nil_prefix, EditE.returns_pure.2 ⟨rfl, rfl⟩⟩
      · obtain ⟨done, m', hpre, hdone⟩ := ih h
        exact ⟨t :: done, m', List.cons_prefix_cons.2 ⟨rfl, hpre⟩,
          EditE.returns_bind.2 ⟨m₁, f₁, hstep, hdone⟩⟩

section Stages

variable {tensor : ValueId} {p : Factoring} {m : AxisMap}

/-- Where a leaf has no image, the images of the leaves before it have got their execution. -/
theorem fails_remaining {remaining : List AxisId}
    (h : (remaining.mapM fun old => (match m.get? old with
      | none => throw (ScheduleError.invalidRFactor tensor .dependsOnFactored)
      | some new => do
        copyParallel [(old, new)]
        return new : Schedule AxisId)).Fails f f') :
    ∃ leaves : List AxisId, (∀ a ∈ leaves, m.get? a = some (imageOf m a)) ∧
      ∃ u, Edit.Gives (copyParallel (leaves.zip (leaves.map (imageOf m)))) f u f' := by
  induction remaining generalizing f with
  | nil => exact absurd h EditE.fails_pure
  | cons old remaining ih =>
      rw [List.mapM_cons] at h
      simp only [EditE.fails_bind, EditE.fails_pure, and_false, exists_false, or_false] at h
      obtain h | ⟨new, f₁, hnew, h⟩ := h
      · split at h
        · obtain rfl := EditE.fails_throw.1 h
          exact ⟨[], by simp, (), Edit.gives_pure.2 ⟨rfl, rfl⟩⟩
        · simp at h
      · split at hnew
        · simp at hnew
        case h_2 image himage =>
            simp only [EditE.returns_bind, EditE.returns_lift, EditE.returns_pure] at hnew
            obtain ⟨u, f₂, hparallel, rfl, rfl⟩ := hnew
            obtain ⟨leaves, himages, v, hmore⟩ := ih h
            have himageOf := imageOf_eq himage
            subst himageOf
            refine ⟨old :: leaves, ?_, v, ?_⟩
            · rintro a (_ | ⟨_, ha⟩)
              · exact himage
              · exact himages a ha
            · obtain ⟨w, f₃, hfirst, hnil⟩ := Edit.gives_bind.1 hparallel
              obtain ⟨-, rfl⟩ := Edit.gives_pure.1 hnil
              exact Edit.gives_bind.2 ⟨w, _, hfirst, hmore⟩

/-- A first stage that fails has repeated the first part of the schedule. -/
theorem fails_partialDomain (h : (p.partialDomain tensor).Fails f f') :
    ∃ roots f₁ ts m,
      Edit.Gives (copyAxes (p.domain.root.map fun a => (a, (f.axis a).kind))) f roots f₁ ∧
      ts <+: p.history ∧ (repeatTransforms tensor ts (.ofPairs roots)).Returns f₁ m f' := by
  unfold Factoring.partialDomain at h
  simp only [EditE.fails_bind, EditE.fails_get, EditE.returns_get, EditE.fails_lift,
    EditE.returns_lift, EditE.fails_modify, EditE.fails_pure, and_false, exists_false, or_false,
    false_or] at h
  obtain ⟨f₀, f₁, ⟨rfl, rfl⟩, roots, f₁, hcopy, h⟩ := h
  obtain ⟨ts, m, hpre, hdone⟩ := fails_repeatTransforms h
  exact ⟨roots, f₁, ts, m, hcopy, hpre, hdone⟩

/-- Whether the second stage succeeds or fails, it has repeated the first part of the rest of the
schedule, and images of leaves have got their execution. -/
theorem leaves_finalDomain (h : (p.finalDomain tensor).Leaves f f') :
    ∃ roots f₁ ts m f₂ u, ∃ leaves : List AxisId,
      Edit.Gives (copyAxes (p.finalKinds f)) f roots f₁ ∧
      ts <+: p.history.filter (fun t => !p.needed.contains t) ∧
      (repeatTransforms tensor ts (.ofPairs roots)).Returns f₁ m f₂ ∧
      (∀ a ∈ leaves, m.get? a = some (imageOf m a)) ∧
      Edit.Gives (copyParallel (leaves.zip (leaves.map (imageOf m)))) f₂ u f' := by
  obtain ⟨d, h⟩ | h := EditE.leaves_iff.1 h
  · obtain ⟨roots, f₁, m, f₂, u, hcopy, hrepeat, hget, hparallel, -⟩ := returns_finalDomain h
    exact ⟨roots, f₁, _, m, f₂, u, _, hcopy, List.prefix_rfl, hrepeat, hget, hparallel⟩
  · unfold Factoring.finalDomain at h
    simp only [EditE.fails_bind, EditE.fails_get, EditE.returns_get, EditE.fails_lift,
      EditE.returns_lift, EditE.fails_pure, and_false, exists_false, or_false, false_or] at h
    obtain ⟨f₀, f₁, ⟨rfl, rfl⟩, roots, f₁, hcopy, h⟩ := h
    obtain h | ⟨m, f₂, hrepeat, h⟩ := h
    · obtain ⟨ts, m, hpre, hdone⟩ := fails_repeatTransforms h
      exact ⟨roots, f₁, ts, m, f', (), [], hcopy, hpre, hdone, by simp,
        Edit.gives_pure.2 ⟨rfl, rfl⟩⟩
    · obtain ⟨leaves, hget, u, hparallel⟩ := fails_remaining h
      exact ⟨roots, f₁, _, m, f₂, u, leaves, hcopy, List.prefix_rfl, hrepeat, hget, hparallel⟩

/-- If the domain of the first stage cannot be made, what there was is as before. -/
theorem fails_partialDomain_keeps (hf : Sound f) (hp : Planned f p)
    (h : (p.partialDomain tensor).Fails f f') : Keeps False f f' := by
  obtain ⟨roots, f₁, ts, m, hcopy, hpre, hrepeat⟩ := fails_partialDomain h
  obtain ⟨h₁, hroots⟩ := copyAxes_keeps hf (fun q hq => by
    obtain ⟨a, ha, rfl⟩ := List.mem_map.1 hq
    exact hp.root a ha) hcopy
  have hts : ∀ t ∈ ts, f₁.HasTransform t := fun t ht =>
    (hp.mono h₁.ext).history t (hpre.subset ht)
  exact h₁.trans (repeatTransforms_keeps h₁.sound hts (images_ofPairs hroots) hrepeat).1

/-- If the domain of the second stage cannot be made, what there was is as before. -/
theorem fails_finalDomain_keeps (hf : Sound f) (hp : Planned f p)
    (h : (p.finalDomain tensor).Fails f f') : Keeps False f f' := by
  obtain ⟨roots, f₁, ts, m, f₂, u, leaves, hcopy, hpre, hrepeat, -, hparallel⟩ :=
    leaves_finalDomain h.leaves
  obtain ⟨h₁, hroots⟩ := copyAxes_keeps hf (hp.finalKinds hf) hcopy
  have hts : ∀ t ∈ ts, f₁.HasTransform t := fun t ht =>
    (hp.mono h₁.ext).history t (List.mem_filter.1 (hpre.subset ht)).1
  have h₂ := (repeatTransforms_keeps h₁.sound hts (images_ofPairs hroots) hrepeat).1
  exact (h₁.trans h₂).trans (copyParallel_keeps h₂.sound hparallel)

end Stages

/-! ## Factored reductions -/

/-- A reduction is factored only while nothing of it is frozen. -/
theorem plan_unfixed {tensor : ValueId} {axes : List Int} {p : Factoring}
    (h : Factoring.plan f tensor axes = .ok p) : (f.view tensor).fixedPosition = 0 := by
  unfold Factoring.plan at h
  split at h
  · cases h
  · dsimp only at h
    split at h
    · cases h
    split at h
    · cases h
    case isFalse hzero => simpa using hzero

/-- New tensors over one domain show it. -/
theorem newTensors_views {d : TensorDomain} {t : ValueId → DataType} {vs news : List ValueId}
    (h : (vs.mapM fun v => (liftM (Edit.newTensor d (t v)) : Schedule ValueId)).Returns f news f') :
    Adds f f' ∧ ∀ v ∈ news, f'.view v = { domain := d } := by
  have hnew : ∀ v, EditE.Adding (liftM (Edit.newTensor d (t v)) : Schedule ValueId) := fun v =>
    .lift (Edit.newValue_adding fun x hx => by
      cases hx
      rfl)
  refine ⟨EditE.Adding.mapM hnew f f' h.leaves, ?_⟩
  induction vs generalizing f news with
  | nil =>
      obtain ⟨rfl, -⟩ := EditE.returns_pure.1 h
      simp
  | cons v vs ih =>
      rw [List.mapM_cons] at h
      simp only [EditE.returns_bind, EditE.returns_lift, EditE.returns_pure, Edit.newTensor,
        Edit.gives_newValue] at h
      obtain ⟨new, f₁, ⟨rfl, rfl⟩, news, f₂, hnews, rfl, rfl⟩ := h
      intro w hw
      rcases List.mem_cons.1 hw with rfl | hw
      · rw [(EditE.Adding.mapM hnew _ f₂ hnews.leaves).view _ (by simp [HasValue, pushValue]),
          Build.view_pushTensor, if_pos rfl]
      · exact ih hnews w hw

/-- Taking a reduction apart freezes what is frozen, as neither its results nor its partial results
are inlined. -/
theorem takenApart_freezes {e : ExprId} {d : TensorDomain} {t : ValueId → DataType}
    {partials : List ValueId} (hf : Regular f) (he : ComputesTensors f e)
    (hd : ∀ a ∈ d.listed, f.HasAxis a)
    (h : ((f.expr e).outputs.mapM fun v =>
      (liftM (Edit.newTensor d (t v)) : Schedule ValueId)).Returns f partials f₁) :
    Freezes f (takenApart f₁ e (f.expr e) partials) := by
  obtain ⟨hadds, hviews⟩ := newTensors_views h
  have h₁ : Freezes f f₁ := .ofAdds hf (newTensors_keeps hf.sound hd h).1 hadds
  refine .ofUnfixed hf (takenApart_keeps hf.sound he hd h) (fun v => ?_) ?_
  · rw [view_takenApart]
    exact hadds.unfixed v
  · refine ((h₁.regular.allShare.removeExpr e).pushExpr fun v hv w hw => ?_).pushExpr
      fun v hv w hw => ?_
    · rw [view_removeExpr, view_removeExpr, hviews v hv, hviews w hw]
    · have hexpr : f₁.expr e = f.expr e := by
        rw [Fusion.expr, hadds.expr? e he.lt, Fusion.expr]
      rw [view_pushExpr, view_pushExpr, view_removeExpr, view_removeExpr]
      rw [← hexpr] at hv hw
      exact h₁.regular.allShare.expr hv hw

/-- Factoring a reduction freezes what is frozen. -/
theorem returns_rfactor_freezes {tensor out : ValueId} {axes : List Int} (hf : Regular f)
    (h : (rfactor tensor axes).Returns f out f') : Freezes f f' := by
  obtain ⟨p, d₁, f₁, d₂, f₂, partials, f₃, ht, hplan, hpartial, hfinal, hpartials, rfl, -⟩ :=
    returns_rfactor h
  obtain ⟨hdef, hplanned⟩ := plan_planned hf.sound hplan
  obtain ⟨h₁, hd₁⟩ := partialDomain_keeps hf.sound hplanned hpartial
  obtain ⟨h₂, hd₂⟩ := finalDomain_keeps h₁.sound (hplanned.mono h₁.ext) hfinal
  have hadds := (partialDomain_adding _ _ f f₁ hpartial.leaves).trans
    (finalDomain_adding _ _ f₁ f₂ hfinal.leaves)
  have hfreezes : Freezes f f₂ := .ofAdds hf (h₁.trans h₂) hadds
  have hcomputes := (ComputesTensors.ofDefinition hf.sound ht hdef).mono hf.sound hfreezes.ext
  have h₃ := takenApart_freezes hfreezes.regular hcomputes
    (fun a ha => h₂.ext.hasAxis (hd₁ a ha)) hpartials
  -- the tensor has no positions, so its view may change as a whole
  have hhas := hasValue_of_isTensor ht
  have hzero : ((takenApart f₃ p.definition (f₂.expr p.definition) partials).view
      tensor).fixedPosition = 0 := by
    rw [view_takenApart, (newTensors_views hpartials).1.view tensor (hadds.hasValue hhas),
      hadds.view tensor hhas]
    exact plan_unfixed hplan
  have h₁₃ := hfreezes.trans h₃
  refine h₁₃.modify_sync ((h₁₃.ext.isTensor tensor hhas).trans ht)
    (fun a ha => h₃.ext.hasAxis (hd₂ a ha)) (.ofUnfixed hzero _) ?_
  exact Nat.le_trans (Nat.le_of_eq hzero) (Nat.zero_le _)

/-- Factoring a reduction fails in its checks or at one of its two domains. -/
theorem fails_rfactor {tensor : ValueId} {axes : List Int} (h : (rfactor tensor axes).Fails f f') :
    f = f' ∨ ∃ p, Factoring.plan f tensor axes = .ok p ∧ ((p.partialDomain tensor).Fails f f' ∨
      ∃ d f₁, (p.partialDomain tensor).Returns f d f₁ ∧ (p.finalDomain tensor).Fails f₁ f') := by
  have hrest : ∀ {d : TensorDomain} {t : ValueId → DataType} {vs : List ValueId} {g g' : Fusion},
      ¬ (vs.mapM fun v => (liftM (Edit.newTensor d (t v)) : Schedule ValueId)).Fails g g' := by
    intro d t vs
    induction vs with
    | nil => exact EditE.fails_pure
    | cons v vs ih =>
        intro g g' h
        rw [List.mapM_cons] at h
        simp [ih] at h
  unfold rfactor at h
  simp only [EditE.fails_bind, EditE.fails_discard, EditE.returns_discard, EditE.fails_get,
    EditE.returns_get, EditE.fails_ofExcept, EditE.returns_ofExcept, EditE.fails_lift,
    EditE.fails_modify, EditE.fails_pure, hrest, and_false, exists_false, or_false,
    false_or] at h
  obtain h | ⟨-, f₁, ⟨x, hx⟩, f₀, f₂, ⟨rfl, rfl⟩, h⟩ := h
  · exact .inl ((Build.ensureTensor_reads tensor).mapError _ _ h.leaves)
  obtain ⟨-, -, rfl⟩ := returns_ensureView.1 hx
  obtain ⟨-, rfl⟩ | ⟨p, f₁, ⟨hplan, rfl⟩, h⟩ := h
  · exact .inl rfl
  · exact .inr ⟨p, hplan, h⟩

/-- Factoring a reduction that fails has added nothing but scalars, axes and transforms. -/
theorem fails_rfactor_keeps {tensor : ValueId} {axes : List Int} (hf : Sound f)
    (h : (rfactor tensor axes).Fails f f') : Keeps False f f' ∧ Adds f f' := by
  obtain rfl | ⟨p, hplan, h⟩ := fails_rfactor h
  · exact ⟨.refl hf, .refl f⟩
  obtain ⟨-, hplanned⟩ := plan_planned hf hplan
  obtain h | ⟨d₁, f₁, hpartial, h⟩ := h
  · exact ⟨fails_partialDomain_keeps hf hplanned h, partialDomain_adding _ _ f f' h.leaves⟩
  · obtain ⟨h₁, -⟩ := partialDomain_keeps hf hplanned hpartial
    exact ⟨h₁.trans (fails_finalDomain_keeps h₁.sound (hplanned.mono h₁.ext) h),
      (partialDomain_adding _ _ f f₁ hpartial.leaves).trans
        (finalDomain_adding _ _ f₁ f' h.leaves)⟩

/-- Factoring a reduction freezes what is frozen, whether it succeeds or fails. -/
theorem rfactor_freezes {tensor : ValueId} {axes : List Int} (hf : Regular f)
    (h : (rfactor tensor axes).Leaves f f') : Freezes f f' := by
  obtain ⟨out, h⟩ | h := EditE.leaves_iff.1 h
  · exact returns_rfactor_freezes hf h
  · obtain ⟨hk, hadds⟩ := fails_rfactor_keeps hf.sound h
    exact .ofAdds hf hk hadds

end Schedule
end FusionCompiler
