import FusionCompiler.Schedule.Cache
import FusionCompiler.Schedule.Propagate
import FusionCompiler.Schedule.RFactor
import FusionCompiler.Proofs.Schedule.Replaying

/-!
# Execution, copies and factored reductions

The remaining scheduling calls choose how axes are executed, insert copies of
tensors and split reductions in two stages.  They rewrite expressions over
tensors and add axes, and a sound fusion stays sound.

Main results:

- Theorems `Schedule.parallelize_keeps` and `Schedule.parallelizeLike_keeps`:
  choosing an execution keeps a fusion sound and its leaves balanced.
- Theorems `Schedule.cacheAfter_keeps`, `Schedule.cacheBefore_keeps`,
  `Schedule.cacheFork_keeps` and `Schedule.setMemory_keeps`: so does placing
  copies.
- Theorem `Schedule.rfactor_keeps`: factoring a reduction keeps a fusion sound.
-/

namespace FusionCompiler

namespace Fusion

variable {f f' f₁ : Fusion} {steady : Prop}

/-- An edit that changes no view. -/
theorem Edits.ofViews (hsound : Sound f') (hext : Extends f f')
    (hview : ∀ v, f'.view v = f.view v) : Edits steady f f' := by
  refine ⟨hsound, hext, fun _ hc v => ?_⟩
  obtain ⟨ts, hb⟩ := hc v
  unfold leaf at hb ⊢
  rw [hview v]
  exact ⟨ts, hb.mono hext⟩

/-- A step that changes how axes are executed and counted. -/
theorem SameExtents.keeps (h : SameExtents f f') (hf : Sound f) : Keeps steady f f' :=
  ⟨Edits.ofViews (hf.sameExtents h) h.toExtends h.view,
    fun hw => hw.sameFlow (.ofExtents h) h.toExtends⟩

/-- Passing the view of a tensor on to its siblings. -/
theorem Keeps.syncSiblings (h : Keeps steady f f₁) (v : ValueId) :
    Keeps steady f (f₁.syncSiblings v) := by
  have hview : ∀ w, ∃ u, (f₁.syncSiblings v).view w = f₁.view u := by
    intro w
    rw [view_syncSiblings]
    split
    · exact ⟨v, rfl⟩
    · exact ⟨w, rfl⟩
  obtain ⟨hsound, hext⟩ := h.sound.sameGraph (SameGraph.syncSiblings f₁ v) fun w a ha => by
    obtain ⟨u, hu⟩ := hview w
    rw [hu] at ha
    exact h.sound.domains u a ha
  refine ⟨⟨hsound, h.ext.trans hext, fun hs hc w => ?_⟩,
    fun hw => (h.wired hw).sameFlow (.syncSiblings f₁ v) hext⟩
  obtain ⟨u, hu⟩ := hview w
  obtain ⟨ts, hb⟩ := h.cuts hs hc u
  unfold leaf at hb ⊢
  rw [hu]
  exact ⟨ts, hb.mono hext⟩

/-- Changing one view. -/
theorem Edits.modifyView (h : Edits False f f₁) {v : ValueId} {g : TensorView → TensorView}
    (hg : ∀ a ∈ (g (f₁.view v)).domain.listed, f₁.HasAxis a) :
    Edits False f (f₁.modifyView v g) := by
  obtain ⟨hsound, hext⟩ := h.sound.sameGraph (SameGraph.modifyView f₁ v g) fun w a ha => by
    rw [view_modifyView] at ha
    split at ha
    · exact hg a ha
    · exact h.sound.domains w a ha
  exact ⟨hsound, h.ext.trans hext, False.elim⟩

/-- A new expression that computes tensors. -/
theorem Edits.pushExpr (h : Edits steady f f₁) {x : Expr} (hin : ∀ v ∈ x.inputs, f₁.HasValue v)
    (hout : ∀ v ∈ x.outputs, f₁.isTensor v = true) : Edits steady f (f₁.pushExpr x) := by
  have hexpr : f₁.ExprSound x := ⟨hin, fun v hv => hasValue_of_isTensor (hout v hv), .inl hout⟩
  refine h.trans (Edits.ofViews ?_ ?_ (view_pushExpr f₁ x))
  · exact h.sound.pushExpr (Extends.refl f₁) h.sound rfl rfl hexpr fun v hv _ => hout v hv
  · exact extends_pushExpr h.sound (Extends.refl f₁) fun v hv _ => hout v hv

/-- What an expression over tensors computes are tensors. -/
theorem isTensor_of_mem_outputs {e : ExprId} {v : ValueId}
    (h : ∀ x, f.expr? e = some x → ∀ v ∈ x.outputs, f.isTensor v = true)
    (hv : v ∈ (f.expr e).outputs) : f.isTensor v = true := by
  unfold expr at hv
  cases hx : f.expr? e with
  | none =>
      rw [hx] at hv
      cases hv
  | some x =>
      rw [hx, Option.getD_some] at hv
      exact h x hx v hv

end Fusion

open Fusion

namespace Edit

variable {f f' : Fusion} {steady : Prop}

/-- Creating an expression again removes it and adds it with new operands and results. -/
@[simp]
theorem gives_recreateExpr {e d : ExprId} {onInput onOutput : ValueId → ValueId} :
    Gives (recreateExpr e onInput onOutput) f d f' ↔ ⟨(f.removeExpr e).exprs.size⟩ = d ∧
      (f.removeExpr e).pushExpr ⟨(f.expr e).kind, (f.expr e).inputs.map onInput,
        (f.expr e).outputs.map onOutput⟩ = f' := by
  simp [recreateExpr]

/-- Creating an expression over tensors again with other operands and results. -/
theorem recreateExpr_edits {e : ExprId} {onInput onOutput : ValueId → ValueId} (hf : Sound f)
    (htensors : ∀ x, f.expr? e = some x → ∀ v ∈ x.outputs, f.isTensor v = true)
    (hin : ∀ v, f.HasValue v → f.HasValue (onInput v))
    (hout : ∀ v, f.isTensor v = true → f.isTensor (onOutput v) = true) :
    Edits steady f ((f.removeExpr e).pushExpr ⟨(f.expr e).kind, (f.expr e).inputs.map onInput,
      (f.expr e).outputs.map onOutput⟩) := by
  obtain ⟨hsound, hext⟩ := hf.removeExpr htensors
  refine Edits.pushExpr (Edits.ofViews hsound hext (view_removeExpr f e)) (fun v hv => ?_) ?_
  · obtain ⟨w, hw, rfl⟩ := List.mem_map.1 hv
    exact hext.hasValue (hin w (hf.hasValue_of_mem_inputs hw))
  · intro v hv
    obtain ⟨w, hw, rfl⟩ := List.mem_map.1 hv
    rw [isTensor_removeExpr]
    exact hout w (isTensor_of_mem_outputs htensors hw)

/-- An unscheduled copy of an axis. -/
theorem freshAxis_keeps {a b : AxisId} {kind : AxisKind} (hf : Sound f) (ha : f.HasAxis a)
    (h : Gives (Schedule.freshAxis a kind) f b f') :
    Keeps False f f' ∧ SameFlow f f' ∧ f'.HasAxis b := by
  unfold Schedule.freshAxis copyAxis at h
  simp only [gives_bind, gives_get, gives_addAxis, gives_modify, gives_pure] at h
  obtain ⟨c, f₁, ⟨f₀, f₂, ⟨rfl, rfl⟩, rfl, rfl⟩, _, f₃, rfl, rfl, rfl⟩ := h
  have hpush := Builds.pushAxis (x := { f.axis a with origin := none, isRFactor := false })
    hf (hf.extents a ha)
  have hmodify := SameExtents.modifyAxis
    (f.pushAxis { f.axis a with origin := none, isRFactor := false }) ⟨f.axes.size⟩
    (g := fun x => { x with kind, parallel := .serial }) fun _ => rfl
  have hkeeps : Keeps False _ _ := hmodify.keeps hpush.sound
  refine ⟨hpush.keeps.trans hkeeps, (SameFlow.pushAxis f _).trans (.ofExtents hmodify),
    hkeeps.ext.hasAxis ?_⟩
  simp [HasAxis]

end Edit

namespace Schedule

variable {f f' : Fusion} {steady : Prop}

/-! ## Execution -/

/-- What has a view is a tensor. -/
theorem returns_ensureView {v : ValueId} {x : TensorView} :
    (build (Build.ensureTensor v)).Returns f x f' ↔
      f.isTensor v = true ∧ f.view v = x ∧ f = f' := by
  rw [build, EditE.returns_mapError, Build.returns_ensureTensor, isTensor, Value.isTensor,
    Fusion.view]
  cases (f.value v).view? <;> simp

/-- Choosing the execution of a leaf changes how one axis is executed. -/
theorem returns_parallelize {tensor : ValueId} {axis : Int} {parallel : ParallelType} {u : Unit}
    (h : (parallelize tensor axis parallel).Returns f u f') :
    ∃ a, f' = f.modifyAxis a fun x => { x with parallel } := by
  unfold parallelize build axisPosition at h
  simp only [EditE.returns_bind, EditE.returns_mapError, Build.returns_ensureTensor,
    EditE.returns_ofExcept, build] at h
  obtain ⟨view, f₁, ⟨-, rfl⟩, p, f₂, ⟨-, rfl⟩, h⟩ := h
  split at h
  · simp only [EditE.returns_bind, EditE.returns_ensure, EditE.returns_get,
      EditE.returns_modify] at h
    obtain ⟨-, f₁, ⟨-, rfl⟩, f₀, f₂, ⟨rfl, rfl⟩, -, f₃, ⟨-, rfl⟩, rfl⟩ := h
    exact ⟨_, rfl⟩
  · obtain rfl := EditE.returns_modify.1 h
    exact ⟨_, rfl⟩

/-- Choosing the execution of a leaf keeps everything else. -/
theorem parallelize_keeps {tensor : ValueId} {axis : Int} {parallel : ParallelType} {u : Unit}
    (hf : Sound f) (h : (parallelize tensor axis parallel).Returns f u f') : Keeps steady f f' := by
  obtain ⟨a, rfl⟩ := returns_parallelize h
  exact (SameExtents.modifyAxis f a (g := fun x => { x with parallel }) fun _ => rfl).keeps hf

/-- Copying executions changes no extent. -/
theorem copyExecution_sameExtents (types : ParallelSet) (leaf : List AxisId) (f : Fusion)
    (pair : AxisId × AxisId) : SameExtents f (copyExecution types leaf f pair) := by
  unfold copyExecution
  dsimp only
  split
  · exact SameExtents.modifyAxis f _ fun _ => rfl
  · exact SameExtents.refl f

/-- Copying executions keeps everything else. -/
theorem parallelizeLike_keeps {reference : ValueId} {tensors : List ValueId} {types : ParallelSet}
    {u : Unit} (hf : Sound f) (h : (parallelizeLike reference tensors types).Returns f u f') :
    Keeps steady f f' := by
  unfold parallelizeLike build at h
  simp only [EditE.returns_bind, EditE.returns_discard, EditE.returns_mapError,
    Build.returns_ensureTensor, EditE.returns_get] at h
  obtain ⟨-, f₁, ⟨_, -, rfl⟩, f₀, f₂, ⟨rfl, rfl⟩, h⟩ := h
  generalize leafCorrespondence f reference = maps at h
  generalize (if tensors.isEmpty = true then f.allTensors else tensors) = selected at h
  induction selected generalizing f with
  | nil =>
      obtain ⟨-, rfl⟩ := EditE.returns_pure.1 h
      exact .refl hf
  | cons v selected ih =>
      obtain ⟨_, f₁, hstep, h⟩ := EditE.returns_bind.1 h
      have hone : Keeps steady f f₁ := by
        rw [← EditE.returns_modify.1 hstep]
        split
        · exact .refl hf
        · split
          · exact .refl hf
          · exact ((SameExtents.foldl (copyExecution_sameExtents types _) _ f).keeps hf).syncSiblings v
      exact hone.trans (ih hone.sound h)

/-! ## Copies and memory -/

/-- The expression computes tensors, as long as it is there. -/
structure ComputesTensors (f : Fusion) (e : ExprId) : Prop where
  lt : e.index < f.exprs.size
  outputs : ∀ x, f.expr? e = some x → ∀ v ∈ x.outputs, f.isTensor v = true

/-- An expression over tensors stays one. -/
theorem ComputesTensors.mono {e : ExprId} (h : ComputesTensors f e) (hf : Sound f)
    (hext : Extends f f') : ComputesTensors f' e := by
  refine ⟨Nat.lt_of_lt_of_le h.lt hext.exprs, fun x hx v hv => ?_⟩
  have hold := hext.expr e x h.lt hx
  rw [hext.isTensor v ((hf.exprs e x hold).outputs v hv)]
  exact h.outputs x hold v hv

/-- What reads a tensor computes tensors. -/
theorem ComputesTensors.ofUse (hf : Sound f) {v : ValueId} {e : ExprId} (ht : f.isTensor v = true)
    (he : e ∈ f.uses v) : ComputesTensors f e := by
  obtain ⟨x, hx, hmem⟩ := hf.used v e he
  refine ⟨index_lt_of_expr? hx, fun y hy => ?_⟩
  cases hx.symm.trans hy
  exact (hf.exprs e x hx).isTensor_outputs (.inl hmem) ht

/-- What computes a tensor computes tensors only. -/
theorem ComputesTensors.ofDefinition (hf : Sound f) {v : ValueId} {e : ExprId}
    (ht : f.isTensor v = true) (he : f.definition v = some e) : ComputesTensors f e := by
  obtain ⟨x, hx, hmem⟩ := hf.defined v e he
  refine ⟨index_lt_of_expr? hx, fun y hy => ?_⟩
  cases hx.symm.trans hy
  exact (hf.exprs e x hx).isTensor_outputs (.inr hmem) ht

/-- Expressions that read one value in the place of another, which has a lower rank and lies below
all their results. -/
theorem replaceInputs_keeps {es : List ExprId} {old new : ValueId} {u : Unit} (hf : Sound f)
    (hes : ∀ e ∈ es, ComputesTensors f e) (hnew : f.HasValue new)
    (h : (es.forM fun e => discard (liftM (Edit.replaceInput e old new) : Schedule ExprId)).Returns
      f u f') :
    Edits steady f f' ∧ ∀ rank, Wired f → f.Ranked rank →
      (∀ e ∈ es, ∀ x, f.expr? e = some x → ∀ v ∈ x.outputs, rank new < rank v) → Wired f' := by
  induction es generalizing f with
  | nil =>
      obtain ⟨-, rfl⟩ := EditE.returns_pure.1 h
      exact ⟨(Keeps.refl hf).toEdits, fun _ hw _ _ => hw⟩
  | cons e es ih =>
      obtain ⟨_, f₁, hstep, h⟩ := EditE.returns_bind.1 h
      simp only [EditE.returns_discard, EditE.returns_lift, Edit.replaceInput,
        Edit.gives_recreateExpr, List.map_id] at hstep
      obtain ⟨d, -, hstep⟩ := hstep
      have hone : Edits steady f f₁ := by
        rw [← hstep, ← List.map_id (f.expr e).outputs]
        refine Edit.recreateExpr_edits hf (hes e List.mem_cons_self).outputs (fun v hv => ?_)
          (fun v ht => ht)
        split
        · exact hnew
        · exact hv
      have hes' : ∀ d ∈ es, ComputesTensors f₁ d := fun d hd =>
        (hes d (List.mem_cons_of_mem e hd)).mono hf hone.ext
      obtain ⟨hrest, hwired⟩ := ih hone.sound hes' (hone.ext.hasValue hnew) h
      refine ⟨hone.trans hrest, fun rank hw hrank hgap => ?_⟩
      -- the results of the expression stay above its new operands
      have hgrows : ∀ u ∈ (f.expr e).inputs.map fun v => if v = old then new else v,
          ∀ v ∈ (f.expr e).outputs, rank u < rank v := by
        intro u hu v hv
        obtain ⟨w, hmem, rfl⟩ := List.mem_map.1 hu
        unfold expr at hmem hv
        cases hx : f.expr? e with
        | none =>
            rw [hx] at hv
            cases hv
        | some x =>
            rw [hx, Option.getD_some] at hmem hv
            split
            · exact hgap e List.mem_cons_self x hx v hv
            · exact hrank e x hx w hmem v hv
      have hrank₁ : f₁.Ranked rank := by
        intro d x hx
        rw [← hstep, expr?_pushExpr] at hx
        split at hx
        · cases hx
          exact hgrows
        · exact hrank.removeExpr e d x hx
      have hw₁ : Wired f₁ := by
        rw [← hstep]
        refine (hw.removeExpr hf e).pushExpr (fun v hv => ?_) (fun v hv => ?_) (fun v hv => ?_)
          ⟨rank, hrank.removeExpr e, hgrows⟩
        · obtain ⟨w, hmem, rfl⟩ := List.mem_map.1 hv
          rw [HasValue, size_removeExpr]
          split
          · exact hnew
          · exact hf.hasValue_of_mem_inputs hmem
        · rw [HasValue, size_removeExpr]
          exact hasValue_of_definition (hw.definition_eq hv)
        · rw [inputs_removeExpr]
          exact hw.removed_outputs hf hv
      refine hwired rank hw₁ hrank₁ fun d hd x hx => ?_
      exact hgap d (List.mem_cons_of_mem e hd) x
        (hone.ext.expr d x (hes d (List.mem_cons_of_mem e hd)).lt hx)

/-- A copy that takes over the uses of a tensor. -/
theorem cacheAfter_keeps {tensor cache : ValueId} (hf : Sound f)
    (h : (cacheAfter tensor).Returns f cache f') : Keeps steady f f' := by
  unfold cacheAfter build at h
  simp only [EditE.returns_bind, EditE.returns_mapError, Build.returns_ensureTensor,
    EditE.returns_ensure, EditE.returns_get, EditE.returns_pure] at h
  obtain ⟨view, f₁, ⟨hview, rfl⟩, -, f₂, ⟨-, rfl⟩, f₀, f₃, ⟨rfl, rfl⟩, out, f₁, hcopy, _, f₂, hforM,
    rfl, rfl⟩ := h
  have ht := Build.isTensor_of_view? hview
  have hknown : Build.Known f (.value tensor) := hasValue_of_isTensor ht
  have hb := Build.copy_builds hf hknown hcopy
  obtain ⟨hout, hnew, hfree, k, hk⟩ := Build.copy_tensor hf ht hcopy
  have huses : ∀ e ∈ f.uses tensor, ComputesTensors f₁ e := fun e he =>
    (ComputesTensors.ofUse hf ht he).mono hf hb.ext
  obtain ⟨hedits, hwired⟩ := replaceInputs_keeps hb.sound huses (hasValue_of_isTensor hout) hforM
  refine ⟨hb.keeps.toEdits.trans hedits, fun hw => ?_⟩
  have hw₁ := hb.wired hw
  obtain ⟨rank, hrank, hgap⟩ := hw₁.exists_rank_copy hk rfl rfl (hfree hw)
  -- what read the tensor before the copy writes values above it, and not the copy
  refine hwired rank hw₁ hrank fun e he x hx v hv => ?_
  obtain ⟨y, hy, hmem⟩ := hf.used tensor e he
  have hold := hb.ext.expr e x (index_lt_of_expr? hy) hx
  cases hold.symm.trans hy
  refine hgap v ?_ (hrank e x hx tensor hmem v hv)
  rintro rfl
  exact hnew ((hf.exprs e x hold).outputs v hv)

/-- A copy that becomes the output. -/
theorem cacheFork_keeps {tensor fork : ValueId} (hf : Sound f)
    (h : (cacheFork tensor).Returns f fork f') : Keeps steady f f' := by
  unfold cacheFork build at h
  simp only [EditE.returns_bind, EditE.returns_discard, EditE.returns_mapError,
    Build.returns_ensureTensor, EditE.returns_ensure, EditE.returns_get, EditE.returns_modify,
    EditE.returns_pure] at h
  obtain ⟨-, f₁, ⟨view, hview, rfl⟩, f₀, f₂, ⟨rfl, rfl⟩, -, f₃, ⟨-, rfl⟩, -, f₄, ⟨-, rfl⟩, out, f₁,
    hcopy, _, f₂, rfl, rfl, rfl⟩ := h
  have ht := Build.isTensor_of_view? hview
  have hknown : Build.Known f (.value tensor) := hasValue_of_isTensor ht
  have hb := Build.copy_builds hf hknown hcopy
  obtain ⟨hout, -⟩ := Build.copy_tensor hf ht hcopy
  refine (hb.trans (Build.setBoundary_builds hb.sound _ _ _ (fun v hv hnew => absurd hv hnew)
    (fun v hv hnew => ?_) id)).keeps
  obtain ⟨w, hw, rfl⟩ := List.mem_map.1 hv
  split at hnew
  case isTrue heq =>
      rw [if_pos heq]
      exact hout
  case isFalse => exact absurd hw hnew

/-- The memory of a tensor. -/
theorem setMemory_keeps {tensor : ValueId} {memory : MemoryType} {u : Unit} (hf : Sound f)
    (h : (setMemory tensor memory).Returns f u f') : Keeps steady f f' := by
  unfold setMemory build at h
  simp only [EditE.returns_bind, EditE.returns_discard, EditE.returns_mapError,
    Build.returns_ensureTensor, EditE.returns_ensure, EditE.returns_get, EditE.returns_modify] at h
  obtain ⟨-, f₁, ⟨view, -, rfl⟩, f₀, f₂, ⟨rfl, rfl⟩, -, f₃, ⟨-, rfl⟩, rfl⟩ := h
  exact (Keeps.refl hf).modify_sync_domain rfl

/-- Unscheduled copies of axes. -/
theorem freshAxes_keeps {axes copies : List AxisId} (hf : Sound f)
    (haxes : ∀ a ∈ axes, f.HasAxis a) (h : Edit.Gives (freshAxes axes) f copies f') :
    Keeps False f f' ∧ SameFlow f f' ∧ ∀ b ∈ copies, f'.HasAxis b := by
  unfold freshAxes at h
  induction axes generalizing f copies with
  | nil =>
      obtain ⟨rfl, rfl⟩ := Edit.gives_pure.1 h
      exact ⟨.refl hf, .refl f, by simp⟩
  | cons a axes ih =>
      rw [List.mapM_cons] at h
      simp only [Edit.gives_bind, Edit.gives_get, Edit.gives_pure] at h
      obtain ⟨b, f₁, ⟨f₀, f₂, ⟨rfl, rfl⟩, hb⟩, bs, f₃, hbs, rfl, rfl⟩ := h
      obtain ⟨hone, hflow, hhas⟩ := Edit.freshAxis_keeps hf (haxes a List.mem_cons_self) hb
      obtain ⟨hrest, hflows, hall⟩ := ih hone.sound
        (fun c hc => hone.ext.hasAxis (haxes c (List.mem_cons_of_mem a hc))) hbs
      refine ⟨hone.trans hrest, hflow.trans hflows, fun c hc => ?_⟩
      rcases List.mem_cons.1 hc with rfl | hc
      · exact hrest.ext.hasAxis hhas
      · exact hall c hc

/-- A new tensor. -/
theorem newTensor_keeps {d : TensorDomain} {t : DataType} (hf : Sound f)
    (hd : ∀ a ∈ d.listed, f.HasAxis a) :
    Keeps False f (f.pushValue t (.tensor { domain := d })) ∧
      (f.pushValue t (.tensor { domain := d })).isTensor ⟨f.values.size⟩ = true := by
  have hext := extends_pushValue f t (.tensor { domain := d })
  refine ⟨⟨⟨hf.pushValue (fun c hc => by cases hc) fun x hx a ha => ?_, hext, False.elim⟩,
    fun hw => hw.sameFlow (.pushValue f t _) hext⟩, ?_⟩
  · cases hx
    exact hd a ha
  · simp [isTensor, value_pushValue, Value.isTensor, Value.view?]

/-- The definition of a tensor without siblings computes nothing else. -/
theorem eq_of_siblings_isEmpty {tensor v : ValueId} {e : ExprId}
    (hdef : f.definition tensor = some e) (hsiblings : (f.siblings tensor).isEmpty = true)
    (hv : v ∈ (f.expr e).outputs) (ht : f.isTensor v = true) : v = tensor := by
  have hnone : f.siblings tensor = (f.expr e).outputs.filter
      fun o => o != tensor && f.isTensor o := by
    simp [siblings, definingExpr?, hdef]
  rw [hnone, List.isEmpty_iff, List.filter_eq_nil_iff] at hsiblings
  simpa [ht] using hsiblings v hv

/-- What a copy in front of a tensor does: the definition of the tensor writes into the copy, and the
tensor reads the copy over fresh axes. -/
theorem returns_cacheBefore {tensor cache : ValueId} (h : (cacheBefore tensor).Returns f cache f') :
    ∃ definition f₂ root f₃, f.isTensor tensor = true ∧ f.definition tensor = some definition ∧
      (f.view tensor).fixedPosition = 0 ∧ (f.siblings tensor).isEmpty = true ∧
      cache = ⟨f.values.size⟩ ∧
      ((f.pushValue (f.dtype tensor) (.tensor { domain := (f.view tensor).domain })).removeExpr
          definition).pushExpr ⟨(f.expr definition).kind, (f.expr definition).inputs,
            (f.expr definition).outputs.map fun v => if v = tensor then cache else v⟩ = f₂ ∧
      Edit.Gives (freshAxes (f₂.shape cache)) f₂ root f₃ ∧
      (f₃.modifyView tensor fun v => { v with domain := .contiguous root }).pushExpr
        ⟨.unary .set, [cache], [tensor]⟩ = f' := by
  unfold cacheBefore at h
  simp only [EditE.returns_bind, returns_ensureView, EditE.returns_get] at h
  obtain ⟨x, f₁, ⟨ht, rfl, rfl⟩, f₀, f₂, ⟨rfl, rfl⟩, h⟩ := h
  split at h
  case h_1 => simp at h
  case h_2 definition hdef =>
      simp only [EditE.returns_bind, EditE.returns_ensure, EditE.returns_get, EditE.returns_lift,
        EditE.returns_discard, EditE.returns_modify, EditE.returns_pure, Edit.newTensor,
        Edit.gives_newValue, Edit.gives_addExpr, Edit.replaceResult, Edit.gives_recreateExpr,
        beq_iff_eq, List.map_id] at h
      obtain ⟨-, f₁, ⟨hzero, rfl⟩, -, f₂, ⟨hsiblings, rfl⟩, c, f₁, ⟨rfl, rfl⟩, -, f₂,
        ⟨d, -, hreplace⟩, f₀, f₃, ⟨rfl, rfl⟩, root, f₃, hroot, _, f₄, rfl, -, f₅, ⟨e, -, rfl⟩, rfl,
        rfl⟩ := h
      have hexpr : (f.pushValue (f.dtype tensor)
          (.tensor { domain := (f.view tensor).domain })).expr definition = f.expr definition := by
        rw [expr, (SameFlow.pushValue f _ _).expr?, expr]
      rw [hexpr] at hreplace
      exact ⟨definition, f₂, root, f₃, ht, hdef, hzero, hsiblings, rfl, hreplace, hroot, rfl⟩

/-- A definition that writes into another tensor. -/
theorem redirect_edits {tensor cache : ValueId} {e : ExprId} (hf : Sound f)
    (hcomputes : ComputesTensors f e) (hcache : f.isTensor cache = true)
    (h : (f.removeExpr e).pushExpr ⟨(f.expr e).kind, (f.expr e).inputs,
      (f.expr e).outputs.map fun v => if v = tensor then cache else v⟩ = f') :
    Edits False f f' := by
  have hin : ∀ v, f.HasValue v → f.HasValue (id v) := fun v hv => hv
  have hout : ∀ v, f.isTensor v = true → f.isTensor (if v = tensor then cache else v) = true := by
    intro v hv
    split
    · exact hcache
    · exact hv
  have hedits : Edits False f _ := Edit.recreateExpr_edits hf hcomputes.outputs hin hout
  rwa [List.map_id, h] at hedits

/-- A tensor gets a plain domain over copies of axes. -/
theorem plainDomain_edits {v : ValueId} {root : List AxisId} (tensor : ValueId) (hf : Sound f)
    (h : Edit.Gives (freshAxes (f.shape v)) f root f') :
    Edits False f (f'.modifyView tensor fun x => { x with domain := .contiguous root }) ∧
      SameFlow f (f'.modifyView tensor fun x => { x with domain := .contiguous root }) := by
  obtain ⟨hfresh, hflow, hroots⟩ :=
    freshAxes_keeps hf (fun a ha => Build.hasAxis_of_mem_shape hf ha) h
  refine ⟨hfresh.toEdits.modifyView fun a ha => hroots a ?_, hflow.trans (.modifyView f' tensor _)⟩
  simpa [TensorDomain.listed, TensorDomain.logical, TensorDomain.contiguous,
    TensorDomain.ofRoot] using ha

/-- A new producer that takes over the computation of a tensor. -/
theorem cacheBefore_keeps {tensor cache : ValueId} (hf : Sound f)
    (h : (cacheBefore tensor).Returns f cache f') : Keeps False f f' := by
  obtain ⟨definition, f₂, root, f₃, ht, hdef, -, hsiblings, rfl, hreplace, hroot, rfl⟩ :=
    returns_cacheBefore h
  have hhas := hasValue_of_isTensor ht
  obtain ⟨h₀, hcache⟩ := newTensor_keeps (t := f.dtype tensor) hf (hf.domains tensor)
  have hflow₀ := SameFlow.pushValue f (f.dtype tensor) (.tensor { domain := (f.view tensor).domain })
  have hnew : ¬ f.HasValue ⟨f.values.size⟩ := Nat.lt_irrefl _
  have htensor := (h₀.ext.isTensor tensor hhas).trans ht
  have hcomputes := (ComputesTensors.ofDefinition hf ht hdef).mono hf h₀.ext
  have hexpr : (f.pushValue (f.dtype tensor)
      (.tensor { domain := (f.view tensor).domain })).expr definition = f.expr definition := by
    rw [expr, hflow₀.expr?, expr]
  rw [← hexpr] at hreplace
  generalize f.pushValue (f.dtype tensor) (.tensor { domain := (f.view tensor).domain }) = f₁ at *
  generalize (⟨f.values.size⟩ : ValueId) = cache at *
  have h₁ : Edits False f₁ f₂ := redirect_edits h₀.sound hcomputes hcache hreplace
  obtain ⟨h₂, hflow₂⟩ := plainDomain_edits tensor h₁.sound hroot
  have hin : ∀ v ∈ [cache], (f₃.modifyView tensor
      fun v => { v with domain := .contiguous root }).HasValue v := by
    intro v hv
    rw [List.mem_singleton.1 hv]
    exact (h₁.trans h₂).ext.hasValue (hasValue_of_isTensor hcache)
  have hout : ∀ v ∈ [tensor], (f₃.modifyView tensor
      fun v => { v with domain := .contiguous root }).isTensor v = true := by
    intro v hv
    rw [List.mem_singleton.1 hv]
    exact ((h₁.trans h₂).ext.isTensor tensor (hasValue_of_isTensor htensor)).trans htensor
  refine ⟨h₀.toEdits.trans ((h₁.trans h₂).pushExpr hin hout), fun hw => ?_⟩
  -- the definition writes into the copy only, which takes its place below the tensor
  have houtputs : ∀ v ∈ (f₁.expr definition).outputs, v = tensor := by
    intro v hv
    have hvt := isTensor_of_mem_outputs hcomputes.outputs hv
    rw [hexpr] at hv
    have hhasv := hasValue_of_definition (hw.definition_eq hv)
    exact eq_of_siblings_isEmpty hdef hsiblings hv ((h₀.ext.isTensor v hhasv).symm.trans hvt)
  have hdef₁ : f₁.definition tensor = some definition := (hflow₀.definition tensor).trans hdef
  obtain ⟨y, hy, hmem⟩ := h₀.sound.defined tensor definition hdef₁
  have hmem' : tensor ∈ (f₁.expr definition).outputs := by
    rw [expr, hy]
    exact hmem
  obtain ⟨hw₂, hfree, rank, hrank, hbelow⟩ := (h₀.wired hw).divert h₀.sound _
    (fun v hv => by
      obtain ⟨u, hu, rfl⟩ := List.mem_map.1 hv
      rw [if_pos (houtputs u hu)]
      exact ⟨(hw.unlinked hnew).sameFlow hflow₀, hasValue_of_isTensor hcache⟩) hreplace
  refine (hw₂.sameFlow hflow₂ h₂.ext).pushExpr hin
    (fun v hv => hasValue_of_isTensor (hout v hv)) (fun v hv => ?_)
    ⟨rank, hrank.sameFlow hflow₂, fun u hu v hv => ?_⟩
  · rw [List.mem_singleton.1 hv, hflow₂.definition, hflow₂.inputs]
    exact hfree tensor hmem'
  · rw [List.mem_singleton.1 hv, List.mem_singleton.1 hu]
    exact hbelow cache (List.mem_map.2 ⟨tensor, hmem', if_pos rfl⟩) tensor hmem'

/-! ## Factored reductions -/

/-- Copies of axes, each with a kind of its own. -/
theorem copyAxes_keeps {axes : List (AxisId × AxisKind)} {pairs : List (AxisId × AxisId)}
    (hf : Sound f) (haxes : ∀ p ∈ axes, f.HasAxis p.1)
    (h : Edit.Gives (copyAxes axes) f pairs f') :
    Keeps False f f' ∧ ∀ p ∈ pairs, f'.HasAxis p.2 := by
  induction axes generalizing f pairs with
  | nil =>
      obtain ⟨rfl, rfl⟩ := Edit.gives_pure.1 h
      exact ⟨.refl hf, by simp⟩
  | cons a axes ih =>
      unfold copyAxes at h
      simp only [Edit.gives_bind, Edit.gives_pure] at h
      obtain ⟨b, f₁, hb, bs, f₃, hbs, rfl, rfl⟩ := h
      obtain ⟨hone, -, hhas⟩ := Edit.freshAxis_keeps hf (haxes a List.mem_cons_self) hb
      obtain ⟨hrest, hall⟩ := ih hone.sound
        (fun c hc => hone.ext.hasAxis (haxes c (List.mem_cons_of_mem a hc))) hbs
      refine ⟨hone.trans hrest, fun c hc => ?_⟩
      rcases List.mem_cons.1 hc with rfl | hc
      · exact hrest.ext.hasAxis hhas
      · exact hall c hc

/-- A recorded transform keeps everything. -/
theorem Records.keeps {x : Transform} (h : Records f f' x) : Keeps steady f f' :=
  ⟨Edits.ofViews h.sound h.ext h.view, h.wired⟩

/-- Repeating a transform on images does nothing, or records a transform that makes the new
images. -/
theorem repeatTransform_records {tensor : ValueId} {t : TransformId} {m m' : AxisMap} (hf : Sound f)
    (ht : f.HasTransform t) (hm : f.Images m)
    (h : (repeatTransform tensor t m).Returns f m' f') :
    f = f' ∧ m = m' ∨ ∃ x, Records f f' x ∧ ∀ b ∈ m'.images, b ∈ m.images ∨ b ∈ x.outputs := by
  unfold repeatTransform at h
  obtain ⟨f₀, f₁, hget, h⟩ := EditE.returns_bind.1 h
  obtain ⟨rfl, rfl⟩ := EditE.returns_get.1 hget
  have hrecorded := hf.recorded t ht
  split at h
  case h_1 input outer inner factor innerSplit hx =>
      split at h
      · obtain ⟨rfl, rfl⟩ := EditE.returns_pure.1 h
        exact .inl ⟨rfl, rfl⟩
      case h_2 image himage =>
          rw [hx] at hrecorded
          obtain ⟨⟨o, i⟩, f₁, hsplit, h⟩ := EditE.returns_bind.1 h
          obtain ⟨rfl, rfl⟩ := EditE.returns_pure.1 h
          have hrec := splitAxis_records hf (hm.get? himage) hrecorded.2.2.2.1 hsplit
          refine .inr ⟨_, hrec, fun b hb => ?_⟩
          rcases AxisMap.mem_images_insert hb with rfl | hb
          · exact .inr (by simp [Transform.outputs])
          rcases AxisMap.mem_images_insert hb with rfl | hb
          · exact .inr (by simp [Transform.outputs])
          · exact .inl hb
  case h_2 outer inner output hx =>
      split at h
      case h_1 o i ho hi =>
          simp only [EditE.returns_bind, EditE.returns_mapError, EditE.returns_pure] at h
          obtain ⟨out, f₁, hmerge, rfl, rfl⟩ := h
          refine .inr ⟨_, mergeAxes_records hf (hm.get? ho) (hm.get? hi) hmerge, fun b hb => ?_⟩
          rcases AxisMap.mem_images_insert hb with rfl | hb
          · exact .inr (by simp [Transform.outputs])
          · exact .inl hb
      case h_2 =>
          obtain ⟨rfl, rfl⟩ := EditE.returns_pure.1 h
          exact .inl ⟨rfl, rfl⟩

/-- Repeating a transform on copies of axes keeps what there is. -/
theorem repeatTransform_keeps {tensor : ValueId} {t : TransformId} {m m' : AxisMap} (hf : Sound f)
    (ht : f.HasTransform t) (hm : f.Images m)
    (h : (repeatTransform tensor t m).Returns f m' f') : Keeps False f f' ∧ f'.Images m' := by
  obtain ⟨rfl, rfl⟩ | ⟨x, hrec, himages⟩ := repeatTransform_records hf ht hm h
  · exact ⟨.refl hf, hm⟩
  · refine ⟨Records.keeps hrec, fun b hb => ?_⟩
    rcases himages b hb with hb | hb
    · exact hrec.ext.hasAxis (hm b hb)
    · exact hrec.recorded.hasAxis_output hb

/-- Repeating a history on copies of axes keeps what there is. -/
theorem repeatTransforms_keeps {tensor : ValueId} {ts : List TransformId} {m m' : AxisMap}
    (hf : Sound f) (hts : ∀ t ∈ ts, f.HasTransform t) (hm : f.Images m)
    (h : (repeatTransforms tensor ts m).Returns f m' f') : Keeps False f f' ∧ f'.Images m' := by
  induction ts generalizing f m with
  | nil =>
      obtain ⟨rfl, rfl⟩ := EditE.returns_pure.1 h
      exact ⟨.refl hf, hm⟩
  | cons t ts ih =>
      obtain ⟨m₁, f₁, hstep, h⟩ := EditE.returns_bind.1 h
      obtain ⟨hone, hm₁⟩ := repeatTransform_keeps hf (hts t List.mem_cons_self) hm hstep
      obtain ⟨hrest, hm'⟩ := ih hone.sound
        (fun s hs => hone.ext.hasTransform (hts s (List.mem_cons_of_mem t hs))) hm₁ h
      exact ⟨hone.trans hrest, hm'⟩

/-- A map made of pairs of axes leads to axes. -/
theorem images_ofPairs {pairs : List (AxisId × AxisId)} (h : ∀ p ∈ pairs, f.HasAxis p.2) :
    f.Images (.ofPairs pairs) :=
  have hempty : f.Images {} := fun b hb => by cases hb
  hempty.insertAll h

/-- Copying executions to new axes keeps what there is. -/
theorem copyParallel_keeps {pairs : List (AxisId × AxisId)} {u : Unit} (hf : Sound f)
    (h : Edit.Gives (copyParallel pairs) f u f') : Keeps False f f' := by
  unfold copyParallel at h
  induction pairs generalizing f with
  | nil =>
      obtain ⟨-, rfl⟩ := Edit.gives_pure.1 h
      exact .refl hf
  | cons p pairs ih =>
      obtain ⟨_, f₁, hstep, h⟩ := Edit.gives_bind.1 h
      obtain rfl := Edit.gives_modify.1 hstep
      have hone : Keeps False f _ := (SameExtents.modifyAxis f p.2
        (g := fun x => { x with parallel := (f.axis p.1).parallel }) fun _ => rfl).keeps hf
      exact hone.trans (ih hone.sound h)

/-- The axes and transforms that the plan of a factored reduction speaks of exist. -/
structure Planned (f : Fusion) (p : Factoring) : Prop where
  listed : ∀ a ∈ p.domain.listed, f.HasAxis a
  history : ∀ t ∈ p.history, f.HasTransform t
  needed : ∀ t ∈ p.needed, f.HasTransform t

/-- A planned factoring stays one in later fusions. -/
theorem Planned.mono {p : Factoring} (h : Planned f p) (hext : Extends f f') : Planned f' p :=
  ⟨fun a ha => hext.hasAxis (h.listed a ha), fun t ht => hext.hasTransform (h.history t ht),
    fun t ht => hext.hasTransform (h.needed t ht)⟩

/-- The root that is taken apart consists of axes. -/
theorem Planned.root {p : Factoring} (h : Planned f p) : ∀ a ∈ p.domain.root, f.HasAxis a :=
  fun a ha => h.listed a (by simp [TensorDomain.listed, ha])

/-- A plan is made for chosen leaves of a reduction that is not factored yet. -/
theorem plan_ofChosen {tensor : ValueId} {axes : List Int} {p : Factoring}
    (h : Factoring.plan f tensor axes = .ok p) :
    ∃ definition chosen, f.definition tensor = some definition ∧
      (f.view tensor).domain.rfactor = none ∧
      chosenLeaves f tensor (f.view tensor).leaf [] axes = .ok chosen ∧
      Factoring.ofChosen f tensor definition chosen = .ok p := by
  unfold Factoring.plan at h
  split at h
  · cases h
  case h_2 definition hdef =>
      dsimp only at h
      split at h
      · cases h
      split at h
      · cases h
      split at h
      · cases h
      case isFalse hrfactor =>
          cases hchosen : chosenLeaves f tensor (f.view tensor).leaf [] axes with
          | error e =>
              rw [hchosen] at h
              cases h
          | ok chosen =>
              rw [hchosen] at h
              exact ⟨definition, chosen, hdef, by simpa using hrfactor, rfl, h⟩

/-- A planned factoring is over axes of the fusion. -/
theorem plan_planned {tensor : ValueId} {axes : List Int} {p : Factoring} (hf : Sound f)
    (h : Factoring.plan f tensor axes = .ok p) :
    f.definition tensor = some p.definition ∧ Planned f p := by
  obtain ⟨definition, chosen, hdef, -, -, h⟩ := plan_ofChosen h
  unfold Factoring.ofChosen at h
  dsimp only at h
  split at h
  · cases h
  split at h
  · cases h
  cases h
  have hhistory : ∀ t ∈ f.history tensor, f.HasTransform t :=
    fun t ht => hasTransform_of_mem_transformsBetween ht
  exact ⟨hdef, hf.domains tensor, hhistory, fun t ht => hhistory t (List.mem_filter.1 ht).1⟩

/-- What is put in the place of other axes comes from the transform. -/
theorem mem_applyInPlace {axes : List AxisId} {x : Transform} {a : AxisId}
    (ha : a ∈ applyInPlace axes x) : a ∈ axes ∨ a ∈ x.outputs := by
  cases x with
  | split input outer inner factor innerSplit =>
      rw [applyInPlace] at ha
      split at ha
      case h_1 i _ =>
          simp only [List.append_assoc, List.mem_append] at ha
          rcases ha with ha | ha | ha
          · exact .inl (List.mem_of_mem_take ha)
          · exact .inr ha
          · exact .inl (List.mem_of_mem_drop ha)
      case h_2 => exact .inl ha
  | merge outer inner output =>
      rw [applyInPlace] at ha
      split at ha
      case h_1 i _ =>
          rcases List.mem_or_eq_of_mem_set (List.mem_filter.1 ha).1 with ha | rfl
          · exact .inl ha
          · exact .inr (by simp [Transform.outputs])
      case h_2 => exact .inl ha

/-- The frontier consists of root axes and of axes that needed transforms make. -/
theorem Factoring.mem_frontier {p : Factoring} {a : AxisId} (ha : a ∈ p.frontier f) :
    a ∈ p.domain.root ∨ ∃ t ∈ p.needed, a ∈ (f.transform t).outputs := by
  unfold Factoring.frontier at ha
  generalize p.domain.root = axes at ha ⊢
  generalize p.needed = ts at ha ⊢
  induction ts generalizing axes with
  | nil => exact .inl ha
  | cons t ts ih =>
      rcases ih _ ha with ha | ⟨s, hs, ha⟩
      · rcases mem_applyInPlace ha with ha | ha
        · exact .inl ha
        · exact .inr ⟨t, List.mem_cons_self, ha⟩
      · exact .inr ⟨s, List.mem_cons_of_mem t hs, ha⟩

/-- The axes that both stages share are axes of the fusion. -/
theorem Planned.frontier {p : Factoring} (h : Planned f p) (hf : Sound f) :
    ∀ a ∈ p.frontier f, f.HasAxis a := by
  intro a ha
  rcases Factoring.mem_frontier ha with ha | ⟨t, ht, ha⟩
  · exact h.root a ha
  · exact (hf.recorded t (h.needed t ht)).hasAxis_output ha

/-- The axes that the second stage copies are axes of the fusion. -/
theorem Planned.finalKinds {p : Factoring} (h : Planned f p) (hf : Sound f) :
    ∀ q ∈ p.finalKinds f, f.HasAxis q.1 := by
  intro q hq
  obtain ⟨a, ha, hq⟩ := List.mem_filterMap.1 hq
  have hfst : q.1 = a := by
    split at hq
    · cases hq
      rfl
    · split at hq
      · cases hq
      · cases hq
        rfl
  rw [hfst]
  exact h.frontier hf a ha

/-- The image of an axis is an axis, also if it has none of its own. -/
theorem hasAxis_imageOf {m : AxisMap} (hm : f.Images m) {a : AxisId} (ha : f.HasAxis a) :
    f.HasAxis (imageOf m a) := by
  unfold imageOf
  cases hb : m.get? a with
  | none => exact ha
  | some b => exact hm.get? hb

/-- An axis with an image. -/
theorem imageOf_eq {m : AxisMap} {a b : AxisId} (h : m.get? a = some b) : imageOf m a = b := by
  rw [imageOf, h]
  rfl

section Stages

variable {tensor : ValueId} {p : Factoring} {d : TensorDomain} {m : AxisMap}

/-- The leaves of the second stage are images, which then get the execution of the leaves they stand
for. -/
theorem returns_remaining {remaining leaf : List AxisId}
    (h : (remaining.mapM fun old => (match m.get? old with
      | none => throw (ScheduleError.invalidRFactor tensor .dependsOnFactored)
      | some new => do
        copyParallel [(old, new)]
        return new : Schedule AxisId)).Returns f leaf f') :
    leaf = remaining.map (imageOf m) ∧ (∀ a ∈ remaining, m.get? a = some (imageOf m a)) ∧
      ∃ u, Edit.Gives (copyParallel (remaining.zip (remaining.map (imageOf m)))) f u f' := by
  induction remaining generalizing f leaf with
  | nil =>
      obtain ⟨rfl, rfl⟩ := EditE.returns_pure.1 h
      exact ⟨rfl, by simp, (), Edit.gives_pure.2 ⟨rfl, rfl⟩⟩
  | cons old remaining ih =>
      rw [List.mapM_cons] at h
      simp only [EditE.returns_bind, EditE.returns_pure] at h
      obtain ⟨new, f₁, hnew, rest, f₂, hrest, rfl, rfl⟩ := h
      split at hnew
      · simp at hnew
      case h_2 image himage =>
          simp only [EditE.returns_bind, EditE.returns_lift, EditE.returns_pure] at hnew
          obtain ⟨u, f₃, hparallel, rfl, rfl⟩ := hnew
          obtain ⟨rfl, himages, v, hmore⟩ := ih hrest
          have himageOf := imageOf_eq himage
          subst himageOf
          refine ⟨rfl, ?_, v, ?_⟩
          · rintro a (_ | ⟨_, ha⟩)
            · exact himage
            · exact himages a ha
          · obtain ⟨w, f₄, hfirst, hnil⟩ := Edit.gives_bind.1 hparallel
            obtain ⟨-, rfl⟩ := Edit.gives_pure.1 hnil
            exact Edit.gives_bind.2 ⟨w, _, hfirst, hmore⟩

/-- The domain of the partial tensor: the root is copied, the schedule is repeated, some images are
iterated over in place of a reduction, and the images of leaves get the execution of the leaves. -/
theorem returns_partialDomain (h : (p.partialDomain tensor).Returns f d f') :
    ∃ roots f₁ m f₂ u,
      Edit.Gives (copyAxes (p.domain.root.map fun a => (a, (f.axis a).kind))) f roots f₁ ∧
      (repeatTransforms tensor p.history (.ofPairs roots)).Returns f₁ m f₂ ∧
      Edit.Gives (copyParallel (p.domain.leaf.zip (p.domain.leaf.map (imageOf m))))
        (p.rfactored.foldl (fun f a => f.modifyAxis (imageOf m a) fun x =>
          { x with kind := .iteration, isRFactor := true }) f₂) u f' ∧
      d = .factored (roots.map (·.2)) ((p.frontier f).map (imageOf m))
        (p.domain.leaf.map (imageOf m)) := by
  unfold Factoring.partialDomain at h
  simp only [EditE.returns_bind, EditE.returns_get, EditE.returns_lift, EditE.returns_modify,
    EditE.returns_pure] at h
  obtain ⟨f₀, f₁, ⟨rfl, rfl⟩, roots, f₁, hcopy, m, f₂, hrepeat, _, f₃, rfl, u, f₄, hparallel, rfl,
    rfl⟩ := h
  exact ⟨roots, f₁, m, f₂, u, hcopy, hrepeat, hparallel, rfl⟩

/-- The domain of the second stage: what the partial tensor is listed by is copied, the rest of the
schedule is repeated, and the remaining leaves have images, which get their execution. -/
theorem returns_finalDomain (h : (p.finalDomain tensor).Returns f d f') :
    ∃ roots f₁ m f₂ u, Edit.Gives (copyAxes (p.finalKinds f)) f roots f₁ ∧
      (repeatTransforms tensor (p.history.filter fun t => !p.needed.contains t)
        (.ofPairs roots)).Returns f₁ m f₂ ∧
      (∀ a ∈ p.domain.leaf.filter (fun a => !p.chosen.contains a), m.get? a = some (imageOf m a)) ∧
      Edit.Gives (copyParallel ((p.domain.leaf.filter fun a => !p.chosen.contains a).zip
        ((p.domain.leaf.filter fun a => !p.chosen.contains a).map (imageOf m)))) f₂ u f' ∧
      d = { TensorDomain.contiguous (roots.map (·.2)) with
        leaf := (p.domain.leaf.filter fun a => !p.chosen.contains a).map (imageOf m) } := by
  unfold Factoring.finalDomain at h
  simp only [EditE.returns_bind, EditE.returns_get, EditE.returns_lift, EditE.returns_pure] at h
  obtain ⟨f₀, f₁, ⟨rfl, rfl⟩, roots, f₁, hcopy, m, f₂, hrepeat, leaf, f₃, hleaf, rfl, rfl⟩ := h
  obtain ⟨rfl, hget, u, hparallel⟩ := returns_remaining hleaf
  exact ⟨roots, f₁, m, f₂, u, hcopy, hrepeat, hget, hparallel, rfl⟩

/-- The domain of the partial tensor lists axes that exist. -/
theorem partialDomain_keeps (hf : Sound f) (hp : Planned f p)
    (h : (p.partialDomain tensor).Returns f d f') :
    Keeps False f f' ∧ ∀ a ∈ d.listed, f'.HasAxis a := by
  have hfrontier := hp.frontier hf
  obtain ⟨roots, f₁, m, f₂, u, hcopy, hrepeat, hparallel, rfl⟩ := returns_partialDomain h
  obtain ⟨h₁, hroots⟩ := copyAxes_keeps hf (fun q hq => by
    obtain ⟨a, ha, rfl⟩ := List.mem_map.1 hq
    exact hp.root a ha) hcopy
  obtain ⟨h₂, hm⟩ := repeatTransforms_keeps h₁.sound
    (hp.mono h₁.ext).history (images_ofPairs hroots) hrepeat
  have h₃ : Keeps False f₂ _ := (SameExtents.foldl (fun g a =>
    SameExtents.modifyAxis g (imageOf m a)
      (g := fun x => { x with kind := .iteration, isRFactor := true }) fun _ => rfl)
    p.rfactored f₂).keeps h₂.sound
  have h₄ := h₃.trans (copyParallel_keeps h₃.sound hparallel)
  refine ⟨(h₁.trans h₂).trans h₄, fun a ha => ?_⟩
  have himage : ∀ b, f.HasAxis b → f'.HasAxis (imageOf m b) := fun b hb =>
    h₄.ext.hasAxis (hasAxis_imageOf hm ((h₁.trans h₂).ext.hasAxis hb))
  simp only [TensorDomain.listed, TensorDomain.logical, TensorDomain.factored, Option.getD_some,
    List.mem_append, List.mem_map] at ha
  rcases ha with (⟨q, hq, rfl⟩ | ⟨b, hb, rfl⟩) | ⟨b, hb, rfl⟩
  · exact (h₂.trans h₄).ext.hasAxis (hroots q hq)
  · exact himage b (hfrontier b hb)
  · exact himage b (hp.listed b (List.mem_append_right _ hb))

/-- The domain of the second stage lists axes that exist. -/
theorem finalDomain_keeps (hf : Sound f) (hp : Planned f p)
    (h : (p.finalDomain tensor).Returns f d f') :
    Keeps False f f' ∧ ∀ a ∈ d.listed, f'.HasAxis a := by
  obtain ⟨roots, f₁, m, f₂, u, hcopy, hrepeat, hget, hparallel, rfl⟩ := returns_finalDomain h
  obtain ⟨h₁, hroots⟩ := copyAxes_keeps hf (hp.finalKinds hf) hcopy
  obtain ⟨h₂, hm⟩ := repeatTransforms_keeps h₁.sound
    (fun t ht => (hp.mono h₁.ext).history t (List.mem_filter.1 ht).1) (images_ofPairs hroots)
    hrepeat
  have h₃ := copyParallel_keeps h₂.sound hparallel
  refine ⟨(h₁.trans h₂).trans h₃, fun a ha => ?_⟩
  simp only [TensorDomain.listed, TensorDomain.logical, TensorDomain.contiguous,
    TensorDomain.ofRoot, Option.getD_none, List.mem_append, List.mem_map] at ha
  rcases ha with (⟨q, hq, rfl⟩ | ⟨q, hq, rfl⟩) | ⟨b, hb, rfl⟩
  · exact (h₂.trans h₃).ext.hasAxis (hroots q hq)
  · exact (h₂.trans h₃).ext.hasAxis (hroots q hq)
  · exact h₃.ext.hasAxis (hm.get? (hget b hb))

end Stages

/-- New tensors over one domain. -/
theorem newTensors_keeps {d : TensorDomain} {t : ValueId → DataType} {vs news : List ValueId}
    (hf : Sound f) (hd : ∀ a ∈ d.listed, f.HasAxis a)
    (h : (vs.mapM fun v => (liftM (Edit.newTensor d (t v)) : Schedule ValueId)).Returns f news f') :
    Keeps False f f' ∧ SameFlow f f' ∧ ∀ v ∈ news, f'.isTensor v = true ∧ ¬ f.HasValue v := by
  induction vs generalizing f news with
  | nil =>
      obtain ⟨rfl, rfl⟩ := EditE.returns_pure.1 h
      exact ⟨.refl hf, .refl f, by simp⟩
  | cons v vs ih =>
      rw [List.mapM_cons] at h
      simp only [EditE.returns_bind, EditE.returns_lift, EditE.returns_pure, Edit.newTensor,
        Edit.gives_newValue] at h
      obtain ⟨new, f₁, ⟨rfl, rfl⟩, news, f₂, hnews, rfl, rfl⟩ := h
      obtain ⟨hone, hnew⟩ := newTensor_keeps (t := t v) hf hd
      obtain ⟨hrest, hflow, hall⟩ := ih hone.sound (fun a ha => hone.ext.hasAxis (hd a ha)) hnews
      refine ⟨hone.trans hrest, (SameFlow.pushValue f (t v) _).trans hflow, fun w hw => ?_⟩
      rcases List.mem_cons.1 hw with rfl | hw
      · exact ⟨(hrest.ext.isTensor _ (hasValue_of_isTensor hnew)).trans hnew, Nat.lt_irrefl _⟩
      · exact ⟨(hall w hw).1, fun h => (hall w hw).2 (hone.ext.hasValue h)⟩

/-- The fusion after an expression has been taken apart: its operands go into other results, and
these into its results. -/
def takenApart (f : Fusion) (e : ExprId) (x : Expr) (partials : List ValueId) : Fusion :=
  ((f.removeExpr e).pushExpr ⟨x.kind, x.inputs, partials⟩).pushExpr ⟨x.kind, partials, x.outputs⟩

/-- Taking a reduction apart changes no view. -/
@[simp]
theorem view_takenApart (f : Fusion) (e : ExprId) (x : Expr) (partials : List ValueId)
    (v : ValueId) : (takenApart f e x partials).view v = f.view v := by
  rw [takenApart, view_pushExpr, view_pushExpr, view_removeExpr]

/-- Taking a reduction apart makes no tensor. -/
@[simp]
theorem isTensor_takenApart (f : Fusion) (e : ExprId) (x : Expr) (partials : List ValueId)
    (v : ValueId) : (takenApart f e x partials).isTensor v = f.isTensor v := by
  rw [takenApart, isTensor_pushExpr, isTensor_pushExpr, isTensor_removeExpr]

/-- Taking a reduction apart makes no axis. -/
@[simp]
theorem axes_takenApart (f : Fusion) (e : ExprId) (x : Expr) (partials : List ValueId) :
    (takenApart f e x partials).axes = f.axes := by
  rw [takenApart, axes_pushExpr, axes_pushExpr, axes_removeExpr]

/-- Taking an expression apart at new tensors keeps a fusion sound. -/
theorem takenApart_keeps {e : ExprId} {d : TensorDomain} {t : ValueId → DataType}
    {partials : List ValueId} {f₁ : Fusion} (hf : Sound f) (he : ComputesTensors f e)
    (hd : ∀ a ∈ d.listed, f.HasAxis a)
    (h : ((f.expr e).outputs.mapM fun v =>
      (liftM (Edit.newTensor d (t v)) : Schedule ValueId)).Returns f partials f₁) :
    Keeps False f (takenApart f₁ e (f.expr e) partials) := by
  have hin : ∀ v ∈ (f.expr e).inputs, f.HasValue v := fun v hv => hf.hasValue_of_mem_inputs hv
  have hout : ∀ v ∈ (f.expr e).outputs, f.isTensor v = true :=
    fun v hv => isTensor_of_mem_outputs he.outputs hv
  obtain ⟨h₁, hflow₁, hnews⟩ := newTensors_keeps hf hd h
  have hexpr : f₁.expr e = f.expr e := by
    unfold expr
    rw [hflow₁.expr?]
  obtain ⟨hsound₂, hext₂⟩ := h₁.sound.removeExpr (he.mono hf h₁.ext).outputs
  have h₂ : Edits False f (f₁.removeExpr e) :=
    h₁.toEdits.trans (Edits.ofViews hsound₂ hext₂ (view_removeExpr f₁ _))
  have h₃ : Edits False f ((f₁.removeExpr e).pushExpr
      ⟨(f.expr e).kind, (f.expr e).inputs, partials⟩) := by
    refine h₂.pushExpr (fun v hv => h₂.ext.hasValue (hin v hv)) fun v hv => ?_
    rw [isTensor_removeExpr]
    exact (hnews v hv).1
  have hin₃ : ∀ v ∈ partials, ((f₁.removeExpr e).pushExpr
      ⟨(f.expr e).kind, (f.expr e).inputs, partials⟩).HasValue v := by
    intro v hv
    refine hasValue_of_isTensor ?_
    rw [isTensor_pushExpr, isTensor_removeExpr]
    exact (hnews v hv).1
  have hout₃ : ∀ v ∈ (f.expr e).outputs, ((f₁.removeExpr e).pushExpr
      ⟨(f.expr e).kind, (f.expr e).inputs, partials⟩).isTensor v = true := by
    intro v hv
    have hvt := hout v hv
    exact (h₃.ext.isTensor v (hasValue_of_isTensor hvt)).trans hvt
  refine ⟨h₃.pushExpr hin₃ hout₃, fun hw => ?_⟩
  -- the partial results take their place between the operands and the results
  obtain ⟨hw₃, hfree, rank, hrank, hbelow⟩ := (h₁.wired hw).divert h₁.sound (f.expr e).kind
    (fun v hv => ⟨(hw.unlinked (hnews v hv).2).sameFlow hflow₁,
      hasValue_of_isTensor (hnews v hv).1⟩) rfl
  rw [hexpr] at hw₃ hfree hrank hbelow
  exact hw₃.pushExpr hin₃ (fun v hv => hasValue_of_isTensor (hout₃ v hv)) hfree
    ⟨rank, hrank, hbelow⟩

/-- A factored reduction is taken apart after the domains of both stages have been made, and then
gets its domain. -/
theorem returns_rfactor {tensor out : ValueId} {axes : List Int}
    (h : (rfactor tensor axes).Returns f out f') :
    ∃ p d₁ f₁ d₂ f₂ partials f₃, f.isTensor tensor = true ∧
      Factoring.plan f tensor axes = .ok p ∧ (p.partialDomain tensor).Returns f d₁ f₁ ∧
      (p.finalDomain tensor).Returns f₁ d₂ f₂ ∧
      ((f₂.expr p.definition).outputs.mapM fun o =>
        (liftM (Edit.newTensor d₁ (f₂.dtype o)) : Schedule ValueId)).Returns f₂ partials f₃ ∧
      (((takenApart f₃ p.definition (f₂.expr p.definition) partials).modifyView tensor
        fun v => { v with domain := d₂ }).syncSiblings tensor) = f' ∧
      out = partials.getD (((f₂.expr p.definition).outputs.idxOf? tensor).getD 0) default := by
  unfold rfactor build at h
  simp only [EditE.returns_bind, EditE.returns_discard, EditE.returns_mapError,
    Build.returns_ensureTensor, EditE.returns_get, EditE.returns_ofExcept, EditE.returns_modify,
    EditE.returns_lift, Edit.gives_addExpr, EditE.returns_pure] at h
  obtain ⟨-, f₁, ⟨view, hview, rfl⟩, f₀, f₂, ⟨rfl, rfl⟩, p, f₃, ⟨hplan, rfl⟩, d₁, f₁, hpartial, d₂,
    f₂, hfinal, f₀, f₃, ⟨rfl, rfl⟩, partials, f₃, hpartials, _, f₄, rfl, -, f₅, ⟨e₁, -, rfl⟩, -,
    f₆, ⟨e₂, -, rfl⟩, _, f₇, rfl, rfl, rfl⟩ := h
  exact ⟨p, d₁, f₁, d₂, f₂, partials, f₃, Build.isTensor_of_view? hview, hplan, hpartial, hfinal,
    hpartials, rfl, rfl⟩

/-- Factoring a reduction keeps a fusion sound. -/
theorem rfactor_keeps {tensor out : ValueId} {axes : List Int} (hf : Sound f)
    (h : (rfactor tensor axes).Returns f out f') : Keeps False f f' := by
  obtain ⟨p, d₁, f₁, d₂, f₂, partials, f₃, ht, hplan, hpartial, hfinal, hpartials, rfl, -⟩ :=
    returns_rfactor h
  obtain ⟨hdef, hplanned⟩ := plan_planned hf hplan
  obtain ⟨h₁, hd₁⟩ := partialDomain_keeps hf hplanned hpartial
  obtain ⟨h₂, hd₂⟩ := finalDomain_keeps h₁.sound (hplanned.mono h₁.ext) hfinal
  have h₁₂ := h₁.trans h₂
  have hcomputes := (ComputesTensors.ofDefinition hf ht hdef).mono hf h₁₂.ext
  have h₃ := takenApart_keeps h₂.sound hcomputes (fun a ha => h₂.ext.hasAxis (hd₁ a ha)) hpartials
  exact h₁₂.trans (h₃.modify_sync (fun a ha => h₃.ext.hasAxis (hd₂ a ha)) False.elim)

end Schedule
end FusionCompiler
