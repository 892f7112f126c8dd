import FusionCompiler.Proofs.Schedule.Rooted

/-!
# Rooted fusions under staging

Choosing executions and memory, placing copies and factoring a reduction keep a
fusion rooted.  In a rooted fusion, repeating the history of a reduction on copies
of its root gives an image to every axis that the stages of the reduction list.
All images are new, so factoring changes nothing that there was before it takes
the reduction apart, which no check comes after.

Main results:

- Theorems `Schedule.parallelize_atomic`, `Schedule.parallelizeLike_atomic` and
  `Schedule.setMemory_atomic`: choices that fail do nothing.
- Theorems `Schedule.cacheAfter_rooted`, `Schedule.cacheBefore_rooted` and
  `Schedule.cacheFork_rooted`: copies keep a fusion rooted.
- Theorem `Schedule.cacheBefore_views`: what a copy in front of a tensor does to domains.
- Theorem `Schedule.Factoring.Splits.get?_eq_imageOf`: the axes of the first stage have
  images.
- Theorem `Schedule.fails_rfactor_appends`: factoring a reduction that fails has
  only appended.
- Theorem `Schedule.rfactor_rooted`: factoring keeps a fusion rooted.
-/

namespace FusionCompiler

open Fusion

namespace Fusion.AllGrounded

variable {f f' f₁ : Fusion}

/-- Building, and then steps that leave views alone. -/
theorem ofBuilds (h : AllGrounded f) (hb : Builds f f₁) (hext : Extends f f')
    (hview : ∀ v, f'.view v = f₁.view v) : AllGrounded f' := by
  refine h.advance hext fun v => ?_
  rw [hview]
  by_cases hv : f.HasValue v
  · exact .inl ⟨v, by rw [hb.view v hv]⟩
  · have hfresh := hb.fresh v hv
    exact .inr (.ofRoot hfresh.leaf hfresh.rfactor)

end Fusion.AllGrounded

namespace Schedule

variable {f f' f₁ f₂ : Fusion} {tensor : ValueId}

/-! ## Execution and memory -/

/-- An execution that cannot be chosen has changed nothing. -/
theorem parallelize_atomic (tensor : ValueId) (axis : Int) (parallel : ParallelType) :
    EditE.Atomic (parallelize tensor axis parallel) := by
  have hmodify : ∀ a, EditE.Atomic (modify (·.modifyAxis a fun x => { x with parallel }) :
      Schedule Unit) := fun a f f' h => absurd h EditE.fails_modify
  unfold parallelize
  refine .bind (Build.ensureTensor_reads tensor).mapError fun _ =>
    .bind (axisPosition_reads _ _) fun _ => ?_
  dsimp only
  split
  · exact .bind (.ensure _ _) fun _ => .bind .get fun _ => .bind (.ensure _ _) fun _ => hmodify _
  · exact hmodify _

/-- Choosing an execution keeps a fusion rooted. -/
theorem parallelize_rooted (tensor : ValueId) (axis : Int) (parallel : ParallelType) :
    Preserves Rooted (parallelize tensor axis parallel) := by
  refine .ofAtomic (parallelize_atomic _ _ _) fun f u f' hf h => ?_
  have hk : Keeps False f f' := parallelize_keeps hf.sound h
  refine hf.advance hk (parallelize_owns _ _ _ _ _ _ _ h hf.own)
    (hf.grounded.ofViews hk.ext fun v => ?_)
  obtain ⟨a, rfl⟩ := returns_parallelize h
  rfl

/-- Executions that cannot be copied have changed nothing. -/
theorem parallelizeLike_atomic (reference : ValueId) (tensors : List ValueId)
    (types : ParallelSet) : EditE.Atomic (parallelizeLike reference tensors types) := by
  unfold parallelizeLike
  refine .bind (Build.ensureTensor_reads reference).mapError.discard fun _ => .bind .get fun f => ?_
  intro g g' h
  exact absurd h (not_fails_forM fun _ _ _ => EditE.fails_modify)

/-- Copying executions changes no kind. -/
theorem kind_foldl_copyExecution (types : ParallelSet) (leaf : List AxisId)
    (pairs : List (AxisId × AxisId)) (f : Fusion) (a : AxisId) :
    ((pairs.foldl (copyExecution types leaf) f).axis a).kind = (f.axis a).kind := by
  induction pairs generalizing f with
  | nil => rfl
  | cons p pairs ih =>
      rw [List.foldl_cons, ih, copyExecution]
      split
      · rw [axis_modifyAxis]
        split
        case isTrue ha => rw [ha.1]
        case isFalse => rfl
      · rfl

/-- Copying executions leaves transforms and kinds alone, and copies views among siblings at
most. -/
theorem parallelizeLike_views {reference : ValueId} {tensors : List ValueId} {types : ParallelSet}
    {u : Unit} (h : (parallelizeLike reference tensors types).Returns f u f') :
    f'.transforms = f.transforms ∧ (∀ a, (f'.axis a).kind = (f.axis a).kind) ∧
      ∀ v, ∃ w, f'.view v = f.view w := by
  unfold parallelizeLike at h
  simp only [EditE.returns_bind, EditE.returns_discard, returns_ensureView,
    EditE.returns_get] at h
  obtain ⟨-, f₁, ⟨_, -, -, rfl⟩, f₀, f₂, ⟨rfl, rfl⟩, h⟩ := h
  generalize leafCorrespondence f reference = maps at h
  generalize (if tensors.isEmpty = true then f.allTensors else tensors) = selected at h
  induction selected generalizing f with
  | nil =>
      obtain ⟨-, rfl⟩ := EditE.returns_pure.1 h
      exact ⟨rfl, fun _ => rfl, fun v => ⟨v, rfl⟩⟩
  | cons s selected ih =>
      obtain ⟨_, f₁, hstep, h⟩ := EditE.returns_bind.1 h
      have hone : f₁.transforms = f.transforms ∧ (∀ a, (f₁.axis a).kind = (f.axis a).kind) ∧
          ∀ v, ∃ w, f₁.view v = f.view w := by
        obtain rfl := EditE.returns_modify.1 hstep
        split
        · exact ⟨rfl, fun _ => rfl, fun v => ⟨v, rfl⟩⟩
        · split
          · exact ⟨rfl, fun _ => rfl, fun v => ⟨v, rfl⟩⟩
          case h_2 m _ =>
              have hsame := SameExtents.foldl (copyExecution_sameExtents types (f.leaf s)) m.pairs f
              have hsync := SameGraph.syncSiblings (m.pairs.foldl (copyExecution types (f.leaf s)) f) s
              refine ⟨hsync.transforms.trans hsame.transforms, fun a => ?_, fun v => ?_⟩
              · rw [Fusion.axis, hsync.axes]
                exact kind_foldl_copyExecution types (f.leaf s) m.pairs f a
              · rw [view_syncSiblings]
                split
                · exact ⟨s, hsame.view s⟩
                · exact ⟨v, hsame.view v⟩
      obtain ⟨htransforms, hkind, hview⟩ := ih h
      refine ⟨htransforms.trans hone.1, fun a => (hkind a).trans (hone.2.1 a), fun v => ?_⟩
      obtain ⟨w, hw⟩ := hview v
      obtain ⟨x, hx⟩ := hone.2.2 w
      exact ⟨x, hw.trans hx⟩

/-- Copying executions keeps a fusion rooted. -/
theorem parallelizeLike_rooted (reference : ValueId) (tensors : List ValueId)
    (types : ParallelSet) : Preserves Rooted (parallelizeLike reference tensors types) := by
  refine .ofAtomic (parallelizeLike_atomic _ _ _) fun f u f' hf h => ?_
  have hk : Keeps False f f' := parallelizeLike_keeps hf.sound h
  refine hf.advance hk (parallelizeLike_owns _ _ _ _ _ _ _ h hf.own)
    (hf.grounded.advance hk.ext fun v => .inl ?_)
  obtain ⟨w, hw⟩ := (parallelizeLike_views h).2.2 v
  exact ⟨w, by rw [hw]⟩

/-- A memory that cannot be chosen has changed nothing. -/
theorem setMemory_atomic (tensor : ValueId) (memory : MemoryType) :
    EditE.Atomic (setMemory tensor memory) := by
  unfold setMemory
  exact .bind (Build.ensureTensor_reads tensor).mapError.discard fun _ => .bind .get fun _ =>
    .bind (.ensure _ _) fun _ _ _ h => absurd h EditE.fails_modify

/-- Choosing a memory keeps a fusion rooted. -/
theorem setMemory_rooted (tensor : ValueId) (memory : MemoryType) :
    Preserves Rooted (setMemory tensor memory) := by
  refine .ofAtomic (setMemory_atomic _ _) fun f u f' hf h => ?_
  have hk : Keeps False f f' := setMemory_keeps hf.sound h
  refine hf.advance hk (setMemory_owns _ _ _ _ _ _ h hf.own) ?_
  unfold setMemory at h
  simp only [EditE.returns_bind, EditE.returns_discard, returns_ensureView, EditE.returns_ensure,
    EditE.returns_get, EditE.returns_modify] at h
  obtain ⟨-, f₁, ⟨x, -, -, rfl⟩, f₀, f₂, ⟨rfl, rfl⟩, -, f₃, ⟨-, rfl⟩, rfl⟩ := h
  exact hf.grounded.modify_sync hk.ext (hf.grounded tensor)

/-! ## Copies -/

/-- A copy behind a tensor keeps a fusion rooted. -/
theorem cacheAfter_rooted (tensor : ValueId) : Preserves Rooted (cacheAfter tensor) := by
  refine .ofAtomic (cacheAfter_atomic _) fun f cache f' hf h => ?_
  have hk : Keeps False f f' := cacheAfter_keeps hf.sound h
  refine hf.advance hk (cacheAfter_owns _ _ _ _ _ h hf.own) ?_
  unfold cacheAfter at h
  simp only [EditE.returns_bind, returns_ensureView, EditE.returns_ensure, EditE.returns_get,
    EditE.returns_pure] at h
  obtain ⟨x, f₁, ⟨ht, -, rfl⟩, -, f₂, ⟨-, rfl⟩, f₀, f₃, ⟨rfl, rfl⟩, out, f₁, hcopy, _, f₂, hforM,
    rfl, rfl⟩ := h
  have hknown : Build.Known f (.value tensor) := hasValue_of_isTensor ht
  have hb := Build.copy_builds hf.sound hknown (EditE.returns_mapError.1 hcopy)
  exact hf.grounded.ofBuilds hb hk.ext (replaceInputs_shares hforM).1

/-- A copy of an output keeps a fusion rooted. -/
theorem cacheFork_rooted (tensor : ValueId) : Preserves Rooted (cacheFork tensor) := by
  refine .ofAtomic (cacheFork_atomic _) fun f fork f' hf h => ?_
  have hk : Keeps False f f' := cacheFork_keeps hf.sound h
  refine hf.advance hk (cacheFork_owns _ _ _ _ _ h hf.own) ?_
  unfold cacheFork at h
  simp only [EditE.returns_bind, EditE.returns_discard, returns_ensureView, EditE.returns_ensure,
    EditE.returns_get, EditE.returns_modify, EditE.returns_pure] at h
  obtain ⟨-, f₁, ⟨x, ht, -, rfl⟩, f₀, f₂, ⟨rfl, rfl⟩, -, f₃, ⟨-, rfl⟩, -, f₄, ⟨-, rfl⟩, out, f₁,
    hcopy, _, f₂, rfl, rfl, rfl⟩ := h
  have hknown : Build.Known f (.value tensor) := hasValue_of_isTensor ht
  have hb := Build.copy_builds hf.sound hknown (EditE.returns_mapError.1 hcopy)
  exact hf.grounded.ofBuilds hb hk.ext fun _ => rfl

/-- Unscheduled copies of axes are new and no outputs of transforms, and each has the extent and the
kind of one of the axes. -/
theorem freshAxes_alike {axes copies : List AxisId} (haxes : ∀ a ∈ axes, f.HasAxis a)
    (h : Edit.Gives (freshAxes axes) f copies f') :
    Appends f f' ∧ copies.length = axes.length ∧ ∀ b ∈ copies, ¬ f.HasAxis b ∧ f'.HasAxis b ∧
      (f'.axis b).origin = none ∧
        ∃ a ∈ axes, f'.extent b = f.extent a ∧ (f'.axis b).kind = (f.axis a).kind := by
  unfold freshAxes at h
  induction axes generalizing f copies with
  | nil =>
      obtain ⟨rfl, rfl⟩ := Edit.gives_pure.1 h
      exact ⟨.refl f, rfl, by simp⟩
  | cons a axes ih =>
      rw [List.mapM_cons] at h
      simp only [Edit.gives_bind, Edit.gives_get, Edit.gives_pure] at h
      obtain ⟨b, f₁, ⟨f₀, f₂, ⟨rfl, rfl⟩, hb⟩, bs, f₃, hbs, rfl, rfl⟩ := h
      obtain ⟨hone, hnew⟩ := freshAxis_appends hb
      obtain ⟨hrest, hlength, hall⟩ := ih
        (fun c hc => hone.hasAxis (haxes c (List.mem_cons_of_mem a hc))) hbs
      refine ⟨hone.trans hrest, congrArg (· + 1) hlength, fun c hc => ?_⟩
      rcases List.mem_cons.1 hc with rfl | hc
      · have hcopy : f₁.HasAxis c ∧ (f₁.axis c).origin = none ∧ f₁.extent c = f.extent a ∧
            (f₁.axis c).kind = (f.axis a).kind := by
          unfold freshAxis Edit.copyAxis at hb
          simp only [Edit.gives_bind, Edit.gives_get, Edit.gives_addAxis, Edit.gives_modify,
            Edit.gives_pure] at hb
          obtain ⟨d, f₁, ⟨f₀, f₂, ⟨rfl, rfl⟩, rfl, rfl⟩, _, f₃, rfl, rfl, rfl⟩ := hb
          simp [HasAxis, Fusion.extent, axis_modifyAxis, axis_pushAxis]
        obtain ⟨hhas, horigin, hextent, hkind⟩ := hcopy
        refine ⟨hnew, hrest.hasAxis hhas, ?_, a, List.mem_cons_self, ?_, ?_⟩
        · rw [hrest.axis c hhas]
          exact horigin
        · rw [Fusion.extent, hrest.axis c hhas]
          exact hextent
        · rw [hrest.axis c hhas, hkind]
      · obtain ⟨hfresh, hhas, horigin, d, hd, hextent, hkind⟩ := hall c hc
        have hsame := hone.axis d (haxes d (List.mem_cons_of_mem a hd))
        refine ⟨fun hold => hfresh (hone.hasAxis hold), hhas, horigin, d,
          List.mem_cons_of_mem a hd, ?_, ?_⟩
        · rw [hextent, Fusion.extent, hsame]
          rfl
        · rw [hkind, hsame]

/-- A copy in front of a tensor takes over its domain; the tensor gets a plain one over copies of
the axes that are no reductions. -/
theorem cacheBefore_views {cache : ValueId} (hf : Sound f)
    (h : (cacheBefore tensor).Returns f cache f') :
    f'.transforms = f.transforms ∧ (∀ a, f.HasAxis a → f'.axis a = f.axis a) ∧
      ∃ root, root.Nodup ∧ root.length = (f.shape tensor).length ∧
        (∀ b ∈ root, ¬ f.HasAxis b ∧ (f'.axis b).origin = none ∧
          ∃ a ∈ f.shape tensor, f'.extent b = f.extent a ∧ (f'.axis b).kind = (f.axis a).kind) ∧
        ∀ v, f'.view v = { f.view tensor with domain := .contiguous root } ∧ v = tensor ∨
          f'.view v = { domain := (f.view tensor).domain } ∧ ¬ f.HasValue v ∨
          f'.view v = f.view v ∧ v ≠ tensor := by
  obtain ⟨definition, f₂, root, f₃, ht, -, -, -, rfl, hreplace, hroot, rfl⟩ := returns_cacheBefore h
  obtain ⟨haxes, htransforms, htensor, hview⟩ := redirected_shares ht hreplace
  clear hreplace
  have haxis : ∀ a, f₂.axis a = f.axis a := by
    intro a
    rw [Fusion.axis, haxes]
    rfl
  have hshape : f₂.shape ⟨f.values.size⟩ = f.shape tensor := by
    unfold shape
    simp only [hview, if_true, haxis]
  rw [hshape] at hroot
  obtain ⟨happends, hlength, halike⟩ := freshAxes_alike (fun a ha => by
    rw [HasAxis, haxes]
    exact Build.hasAxis_of_mem_shape hf ha) hroot
  obtain ⟨grown, rfl, -, hnodup, -⟩ := gives_freshAxes hroot
  refine ⟨?_, fun a ha => ?_, root, hnodup, hlength, fun b hb => ?_, fun v => ?_⟩
  · rw [transforms_pushExpr, (SameGraph.modifyView _ _ _).transforms]
    exact htransforms
  · rw [Fusion.axis, axes_pushExpr, (SameGraph.modifyView _ _ _).axes]
    refine (happends.axis a ?_).trans (haxis a)
    rw [HasAxis, haxes]
    exact ha
  · obtain ⟨hnew, -, horigin, a, ha, hextent, hkind⟩ := halike b hb
    refine ⟨?_, ?_, a, ha, ?_, ?_⟩
    · rw [HasAxis, haxes] at hnew
      exact hnew
    · rw [Fusion.axis, axes_pushExpr, (SameGraph.modifyView _ _ _).axes]
      exact horigin
    · rw [Fusion.extent, Fusion.axis, axes_pushExpr, (SameGraph.modifyView _ _ _).axes]
      refine Eq.trans hextent ?_
      rw [Fusion.extent, haxis]
      rfl
    · rw [Fusion.axis, axes_pushExpr, (SameGraph.modifyView _ _ _).axes]
      refine Eq.trans hkind ?_
      rw [haxis]
  · rw [view_pushExpr, view_modifyView]
    by_cases hv : v = tensor
    · refine .inl ⟨?_, hv⟩
      rw [if_pos ⟨hv, htensor⟩]
      change { f₂.view tensor with domain := .contiguous root } = _
      rw [hview, if_neg]
      rintro rfl
      exact Nat.lt_irrefl _ (hasValue_of_isTensor ht)
    · rw [if_neg fun hc => hv hc.1]
      refine .inr ?_
      change f₂.view v = _ ∧ _ ∨ f₂.view v = _ ∧ _
      rw [hview]
      split
      case isTrue hnew =>
          refine .inl ⟨rfl, ?_⟩
          rw [hnew]
          exact Nat.lt_irrefl _
      case isFalse => exact .inr ⟨rfl, hv⟩

/-- A tensor behind a copy reads the copy, and what computes other tensors is as before. -/
theorem cacheBefore_definingExpr {cache : ValueId} (hf : Sound f)
    (h : (cacheBefore tensor).Returns f cache f') :
    f'.definingExpr? tensor = some ⟨.unary .set, [cache], [tensor]⟩ ∧
      ∀ v, f.isTensor v = true → v ≠ tensor → f'.definingExpr? v = f.definingExpr? v := by
  have hk := cacheBefore_keeps hf h
  obtain ⟨definition, f₂, root, f₃, ht, hdef, -, hsiblings, rfl, hreplace, hroot, rfl⟩ :=
    returns_cacheBefore h
  have hhas := hk.ext.hasValue (hasValue_of_isTensor ht)
  rw [HasValue, size_pushExpr] at hhas
  refine ⟨definingExpr?_pushExpr _ List.mem_cons_self hhas, fun v hv hne => ?_⟩
  have hflow := SameFlow.pushValue f (f.dtype tensor) (.tensor { domain := (f.view tensor).domain })
  obtain ⟨hvalues, hexprs⟩ := freshAxes_values hroot
  have hmodify := SameFlow.modifyView f₃ tensor fun v => { v with domain := .contiguous root }
  -- the definition that moves is none of the other tensor
  have hother : ∀ u ∈ (f.expr definition).outputs, f.isTensor u = true → u = tensor :=
    fun u hu htu => eq_of_siblings_isEmpty hdef hsiblings hu htu
  have hdiffers : f.definition v ≠ some definition := by
    intro heq
    obtain ⟨x, hx, hmem⟩ := hf.defined v definition heq
    refine hne (hother v ?_ hv)
    rw [Fusion.expr, hx]
    exact hmem
  have hnot : v ∉ (f.expr definition).outputs.map fun w =>
      if w = tensor then (⟨f.values.size⟩ : ValueId) else w := by
    intro hmem
    obtain ⟨u, hu, heq⟩ := List.mem_map.1 hmem
    split at heq
    case isTrue =>
        rw [← heq] at hv
        exact Nat.lt_irrefl _ (hasValue_of_isTensor hv)
    case isFalse hut => exact hut (hother u hu (heq ▸ hv))
  have hdefinition : ((f₃.modifyView tensor fun v => { v with domain := .contiguous root }).pushExpr
      ⟨.unary .set, [⟨f.values.size⟩], [tensor]⟩).definition v = f.definition v := by
    rw [definition_pushExpr, if_neg fun hmem => hne (List.mem_singleton.1 hmem.1),
      hmodify.definition, Fusion.definition, Fusion.value, hvalues]
    change f₂.definition v = _
    rw [← hreplace, definition_pushExpr, if_neg fun hmem => hnot hmem.1,
      definition_removeExpr (newTensor_keeps hf (hf.domains tensor)).1.sound, hflow.definition,
      if_neg hdiffers]
  rw [definingExpr?, hdefinition, definingExpr?]
  cases hd : f.definition v with
  | none => rfl
  | some d =>
      obtain ⟨y, hy, -⟩ := hf.defined v d hd
      have hlt := index_lt_of_expr? hy
      have hde : d ≠ definition := fun heq => hdiffers (heq ▸ hd)
      have hsize : f₃.exprs.size = f.exprs.size + 1 := by
        rw [hexprs, ← hreplace, exprs_size_pushExpr, exprs_size_removeExpr, hflow.exprs]
      have hexpr : f₂.expr? d = some y := by
        rw [← hreplace, expr?_pushExpr, exprs_size_removeExpr, hflow.exprs,
          if_neg (Nat.ne_of_lt hlt), expr?_removeExpr, if_neg hde, hflow.expr?]
        exact hy
      rw [Option.map_some, Option.map_some, Fusion.expr, Fusion.expr, expr?_pushExpr, hmodify.exprs,
        hsize, if_neg (by omega), hmodify.expr?, Fusion.expr?, hexprs, ← Fusion.expr?, hexpr, hy]

/-- A copy in front of a tensor keeps a fusion rooted. -/
theorem cacheBefore_rooted (tensor : ValueId) : Preserves Rooted (cacheBefore tensor) := by
  refine .ofAtomic (cacheBefore_atomic _) fun f cache f' hf h => ?_
  have hk := cacheBefore_keeps hf.sound h
  refine hf.advance hk (cacheBefore_ownAxes hf.sound hf.own h)
    (hf.grounded.advance hk.ext fun v => ?_)
  obtain ⟨-, -, root, -, -, -, hviews⟩ := cacheBefore_views hf.sound h
  rcases hviews v with ⟨hplain, -⟩ | ⟨hcopy, -⟩ | ⟨hold, -⟩
  · rw [hplain]
    exact .inr (.ofRoot rfl rfl)
  · exact .inl ⟨tensor, by rw [hcopy]⟩
  · exact .inl ⟨v, by rw [hold]⟩

/-! ## Repeating a history on copies of axes -/

section Copies

variable {axes : List (AxisId × AxisKind)} {roots : List (AxisId × AxisId)}
  {ts : List TransformId} {m : AxisMap}
  (hf : Sound f) (haxes : ∀ q ∈ axes, f.HasAxis q.1) (hts : ∀ t ∈ ts, f.HasTransform t)
  (hcopy : Edit.Gives (copyAxes axes) f roots f₁)

include hf haxes hts hcopy

/-- Copies of axes and what is repeated on them append, and all images are new. -/
theorem copied_appends
    (hrepeat : (repeatTransforms tensor ts (.ofPairs roots)).Returns f₁ m f₂) :
    Appends f f₂ ∧ ∀ b ∈ m.images, ¬ f.HasAxis b := by
  obtain ⟨hcopies, hnew⟩ := copyAxes_appends hcopy
  obtain ⟨hk, hroots⟩ := copyAxes_keeps hf haxes hcopy
  obtain ⟨hrepeats, himages⟩ := repeatTransforms_appends hk.sound
    (fun t ht => hcopies.hasTransform (hts t ht)) (images_ofPairs hroots) hrepeat
  refine ⟨hcopies.trans hrepeats, fun b hb hold => ?_⟩
  rcases himages b hb with hroot | hlater
  · exact images_of_pairs_new hnew b hroot hold
  · exact hlater (hcopies.hasAxis hold)

/-- All images descend from the copies. -/
theorem copied_descends
    (hrepeat : (repeatTransforms tensor ts (.ofPairs roots)).Returns f₁ m f₂) :
    Sound f₂ ∧ f₂.Images m ∧ ∀ b ∈ m.images, f₂.Descends (roots.map (·.2)) b := by
  obtain ⟨hk, hroots⟩ := copyAxes_keeps hf haxes hcopy
  have hts₁ : ∀ t ∈ ts, f₁.HasTransform t := fun t ht => hk.ext.hasTransform (hts t ht)
  have himages := images_ofPairs hroots
  obtain ⟨hrepeats, hm⟩ := repeatTransforms_keeps hk.sound hts₁ himages hrepeat
  exact ⟨hrepeats.sound, hm, repeatTransforms_descends hk.sound hts₁ himages
    (fun b hb => .root (AxisMap.mem_images_ofPairs hb)) hrepeat⟩

end Copies

/-! ## The stages of a reduction -/

namespace Factoring.Splits

variable {p : Factoring} {a : AxisId} {m : AxisMap} {roots : List (AxisId × AxisId)}

/-- What the first stage lists belongs to the history of the reduction. -/
theorem mem_axes_of_listed (hs : p.Splits f tensor) (hf : Rooted f)
    (ha : a ∈ p.domain.leaf ∨ a ∈ p.frontier f ∨ a ∈ p.rfactored) :
    a ∈ p.domain.root ∨ ∃ t ∈ p.history, a ∈ (f.transform t).outputs := by
  have hunmade := hf.unmade tensor
  have hgoal := (hf.grounded tensor).leaf
  rw [← hs.domain] at hunmade hgoal
  have hhistory : p.history = f.transformsBetween p.domain.root p.domain.leaf := by
    rw [hs.history, hs.domain]
    rfl
  rcases ha with hleaf | hfrontier | hrfactored
  · rw [hhistory]
    exact hunmade.mem_axesOfHistory hf.sound hgoal (.inl hleaf)
  · rcases mem_frontier hfrontier with hroot | ⟨t, ht, hout⟩
    · exact .inl hroot
    · exact .inr ⟨t, (hs.mem_needed.1 ht).1, hout⟩
  · rw [hhistory]
    refine hunmade.mem_axesOfHistory hf.sound hgoal ?_
    exact hunmade.mem_of_mem_withAncestors hf.sound (fun b hb => (mem_kept.1 hb).1)
      ((hs.rfactored a).1 hrfactored).1

/-- Repeating the history on copies of the root gives the axes of the first stage images. -/
theorem get?_eq_imageOf (hs : p.Splits f tensor) (hf : Rooted f) (hp : Planned f p)
    (hcopy : Edit.Gives (copyAxes (p.domain.root.map fun a => (a, (f.axis a).kind))) f roots f₁)
    (hrepeat : (repeatTransforms tensor p.history (.ofPairs roots)).Returns f₁ m f₂)
    (ha : a ∈ p.domain.leaf ∨ a ∈ p.frontier f ∨ a ∈ p.rfactored) :
    m.get? a = some (imageOf m a) := by
  obtain ⟨hk, hroots⟩ := copyAxes_keeps hf.sound (fun q hq => by
    obtain ⟨b, hb, rfl⟩ := List.mem_map.1 hq
    exact hp.root b hb) hcopy
  have hhistory := (hp.mono hk.ext).history
  have hsame : ∀ t ∈ p.history, f₁.transform t = f.transform t := fun t ht =>
    hk.ext.transform t (hp.history t ht)
  have hroot : ∀ b ∈ p.domain.root, (AxisMap.ofPairs roots).contains b = true := by
    intro b hb
    refine AxisMap.contains_ofPairs ?_
    rw [copyAxes_keys hcopy, List.map_map]
    exact List.mem_map.2 ⟨b, hb, rfl⟩
  have hcontains : m.contains a = true := by
    rcases hs.mem_axes_of_listed hf ha with hmem | ⟨t, ht, hout⟩
    · exact (repeatTransforms_images hk.sound hhistory (images_ofPairs hroots) hrepeat).1 a
        (hroot a hmem)
    · -- every axis that the history consumes is a root axis or made by the history
      have hgoal := (hf.grounded tensor).leaf
      have hclosed : ∀ s ∈ p.history, ∀ b ∈ (f₁.transform s).inputs,
          (AxisMap.ofPairs roots).contains b = true ∨
            ∃ r ∈ p.history, b ∈ (f₁.transform r).outputs := by
        intro s hmem b hb
        rw [hsame s hmem] at hb
        rw [hs.history] at hmem
        have huse : b ∈ (f.view tensor).domain.root ∨
            ∃ r ∈ f.history tensor, b ∈ (f.transform r).outputs :=
          (hf.unmade tensor).mem_axesOfHistory hf.sound hgoal (.inr ⟨s, hmem, hb⟩)
        rw [← hs.domain, ← hs.history] at huse
        refine huse.imp (hroot b) ?_
        rintro ⟨r, hr, hmade⟩
        exact ⟨r, hr, (hsame r hr).symm ▸ hmade⟩
      have hsorted : p.history.Pairwise fun s t => s.index < t.index := by
        rw [hs.history]
        exact transformsBetween_sorted hf.sound _ _
      refine repeatTransforms_contains hk.sound hhistory hsorted (images_ofPairs hroots) hclosed
        hrepeat t ht a ?_
      rwa [hsame t ht]
  obtain ⟨b, hb⟩ := AxisMap.contains_iff.1 hcontains
  rw [imageOf, hb, Option.getD_some]

end Factoring.Splits

section Stages

variable {p : Factoring} {d : TensorDomain} {positions : List Int}

/-- The first stage is appended, and its domain descends from copies of the root. -/
theorem partialDomain_appends (hf : Rooted f) (hplan : Factoring.plan f tensor positions = .ok p)
    (h : (p.partialDomain tensor).Returns f d f') : Appends f f' ∧ f'.Grounded d := by
  have hs := plan_splits hplan
  obtain ⟨-, hp⟩ := plan_planned hf.sound hplan
  obtain ⟨roots, f₁, m, f₂, u, hcopy, hrepeat, hparallel, rfl⟩ := returns_partialDomain h
  have haxes : ∀ q ∈ p.domain.root.map fun a => (a, (f.axis a).kind), f.HasAxis q.1 := by
    intro q hq
    obtain ⟨a, ha, rfl⟩ := List.mem_map.1 hq
    exact hp.root a ha
  have himage : ∀ a, a ∈ p.domain.leaf ∨ a ∈ p.frontier f ∨ a ∈ p.rfactored →
      imageOf m a ∈ m.images := fun a ha =>
    AxisMap.mem_images_of_get? (hs.get?_eq_imageOf hf hp hcopy hrepeat ha)
  obtain ⟨hcopied, hnew⟩ := copied_appends hf.sound haxes hp.history hcopy hrepeat
  obtain ⟨hsound, -, hdescends⟩ := copied_descends hf.sound haxes hp.history hcopy hrepeat
  constructor
  · -- only images are changed after the transforms
    refine copyParallel_appends (foldl_modifyAxis_appends hcopied fun a ha => ?_) (fun q hq => ?_)
      hparallel
    · exact hnew _ (himage a (.inr (.inr ha)))
    · obtain ⟨a, ha, heq⟩ := List.mem_map.1 (List.of_mem_zip hq).2
      rw [← heq]
      exact hnew _ (himage a (.inl ha))
  · have h₃ : Keeps False f₂ _ := (SameExtents.foldl (fun g a =>
      SameExtents.modifyAxis g (imageOf m a)
        (g := fun x => { x with kind := .iteration, isRFactor := true }) fun _ => rfl)
      p.rfactored f₂).keeps hsound
    have hext := (h₃.trans (copyParallel_keeps h₃.sound hparallel)).ext
    intro a ha
    simp only [TensorDomain.listed, TensorDomain.logical, TensorDomain.factored, Option.getD_some,
      List.mem_append, List.mem_map] at ha
    rcases ha with (⟨q, hq, rfl⟩ | ⟨b, hb, rfl⟩) | ⟨b, hb, rfl⟩
    · exact .root (List.mem_map_of_mem hq)
    · exact (hdescends _ (himage b (.inr (.inl hb)))).mono hext
    · exact (hdescends _ (himage b (.inl hb))).mono hext

/-- If the domain of the first stage cannot be made, something was appended at most. -/
theorem fails_partialDomain_appends (hf : Sound f) (hp : Planned f p)
    (h : (p.partialDomain tensor).Fails f f') : Appends f f' := by
  obtain ⟨roots, f₁, ts, m, hcopy, hpre, hrepeat⟩ := fails_partialDomain h
  refine (copied_appends hf (fun q hq => ?_) (fun t ht => hp.history t (hpre.subset ht)) hcopy
    hrepeat).1
  obtain ⟨a, ha, rfl⟩ := List.mem_map.1 hq
  exact hp.root a ha

/-- The second stage is appended, and its domain descends from copies of what the first stage
iterates over. -/
theorem finalDomain_appends (hf : Sound f) (hp : Planned f p)
    (h : (p.finalDomain tensor).Returns f d f') : Appends f f' ∧ f'.Grounded d := by
  obtain ⟨roots, f₁, m, f₂, u, hcopy, hrepeat, hget, hparallel, rfl⟩ := returns_finalDomain h
  have hrest : ∀ t ∈ p.history.filter fun t => !p.needed.contains t, f.HasTransform t :=
    fun t ht => hp.history t (List.mem_filter.1 ht).1
  obtain ⟨hcopied, hnew⟩ := copied_appends hf (hp.finalKinds hf) hrest hcopy hrepeat
  obtain ⟨hsound, himages, hdescends⟩ :=
    copied_descends hf (hp.finalKinds hf) hrest hcopy hrepeat
  have himage := fun a ha => AxisMap.mem_images_of_get? (hget a ha)
  refine ⟨copyParallel_appends hcopied (fun q hq => ?_) hparallel, fun a ha => ?_⟩
  · obtain ⟨b, hb, heq⟩ := List.mem_map.1 (List.of_mem_zip hq).2
    rw [← heq]
    exact hnew _ (himage b hb)
  have hext : Extends f₂ f' := (copyParallel_keeps hsound hparallel).ext
  simp only [TensorDomain.listed, TensorDomain.logical, TensorDomain.contiguous,
    TensorDomain.ofRoot, Option.getD_none, List.mem_append, or_self] at ha
  rcases ha with ha | ha
  · exact .root ha
  · obtain ⟨b, hb, rfl⟩ := List.mem_map.1 ha
    exact (hdescends _ (himage b hb)).mono hext

/-- If the domain of the second stage cannot be made, something was appended at most. -/
theorem fails_finalDomain_appends (hf : Sound f) (hp : Planned f p)
    (h : (p.finalDomain tensor).Fails f f') : Appends f f' := by
  obtain ⟨roots, f₁, ts, m, f₂, u, leaves, hcopy, hpre, hrepeat, hget, hparallel⟩ :=
    leaves_finalDomain h.leaves
  obtain ⟨hcopied, hnew⟩ := copied_appends hf (hp.finalKinds hf)
    (fun t ht => hp.history t (List.mem_filter.1 (hpre.subset ht)).1) hcopy hrepeat
  refine copyParallel_appends hcopied (fun q hq => ?_) hparallel
  obtain ⟨b, hb, heq⟩ := List.mem_map.1 (List.of_mem_zip hq).2
  rw [← heq]
  exact hnew _ (AxisMap.mem_images_of_get? (hget b hb))

end Stages

/-! ## Factored reductions -/

/-- Factoring a reduction that fails has only appended. -/
theorem fails_rfactor_appends {positions : List Int} (hf : Rooted f)
    (h : (rfactor tensor positions).Fails f f') : Appends f f' := by
  obtain rfl | ⟨p, hplan, h⟩ := fails_rfactor h
  · exact .refl f
  obtain ⟨-, hp⟩ := plan_planned hf.sound hplan
  obtain h | ⟨d, f₁, hpartial, h⟩ := h
  · exact fails_partialDomain_appends hf.sound hp h
  · have hk := (partialDomain_keeps hf.sound hp hpartial).1
    exact (partialDomain_appends hf hplan hpartial).1.trans
      (fails_finalDomain_appends hk.sound (hp.mono hk.ext) h)

/-- Factoring a reduction keeps a fusion rooted, whether it returns or fails. -/
theorem rfactor_rooted (tensor : ValueId) (positions : List Int) :
    Preserves Rooted (rfactor tensor positions) := by
  intro f f' hf h
  obtain ⟨out, h⟩ | h := EditE.leaves_iff.1 h
  · refine hf.advance (rfactor_keeps hf.sound h) (rfactor_ownAxes hf.sound hf.own h) ?_
    obtain ⟨p, d₁, f₁, d₂, f₂, partials, f₃, ht, hplan, hpartial, hfinal, hpartials, rfl, -⟩ :=
      returns_rfactor h
    obtain ⟨hdef, hp⟩ := plan_planned hf.sound hplan
    obtain ⟨h₁, hlisted₁⟩ := partialDomain_keeps hf.sound hp hpartial
    obtain ⟨h₂, hlisted₂⟩ := finalDomain_keeps h₁.sound (hp.mono h₁.ext) hfinal
    obtain ⟨happends₁, hd₁⟩ := partialDomain_appends hf hplan hpartial
    obtain ⟨happends₂, hd₂⟩ := finalDomain_appends h₁.sound (hp.mono h₁.ext) hfinal
    have hcomputes := (ComputesTensors.ofDefinition hf.sound ht hdef).mono hf.sound
      (h₁.trans h₂).ext
    have h₃ := takenApart_keeps h₂.sound hcomputes (fun a ha => h₂.ext.hasAxis (hlisted₁ a ha))
      hpartials
    -- the partial tensors show the first domain, the tensor and its siblings the second
    have hapart : AllGrounded (takenApart f₃ p.definition (f₂.expr p.definition) partials) := by
      refine hf.grounded.advance ((h₁.trans h₂).trans h₃).ext fun v => ?_
      rw [view_takenApart, (newTensors_new hpartials).view]
      split
      · exact .inr (hd₁.mono (h₂.trans h₃).ext)
      · exact .inl ⟨v, by rw [happends₂.view, happends₁.view]⟩
    have hmodified := (Keeps.refl h₃.sound).modify_sync (v := tensor)
      (g := fun x => { x with domain := d₂ }) (fun a ha => h₃.ext.hasAxis (hlisted₂ a ha))
      False.elim
    exact hapart.modify_sync hmodified.ext (hd₂.mono h₃.ext)
  · exact (fails_rfactor_appends hf h).rooted (fails_rfactor_keeps hf.sound h).1 hf

end Schedule
end FusionCompiler
