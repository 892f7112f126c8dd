import FusionCompiler.Proofs.Schedule.OwningCalls

/-!
# Copies, factored reductions and axes of their own

A copy of a tensor gets new axes.  Where a tensor is computed into a copy, the
copy takes its axes over and the tensor gets new ones.  A factored reduction gets
new axes in both of its stages, and the axes in its factored shape that are not
copies of root axes are made by repeated transforms.

Main results:

- Theorems `Schedule.cacheAfter_owns` and `Schedule.cacheBefore_ownAxes`: copies
  keep axes apart.
- Theorem `Schedule.rfactor_ownAxes`: so does factoring a reduction.
- Theorems `Fusion.applyAll_ownAxes` and `Fusion.applyAll_regular`: after every
  sequence of calls each tensor has root axes of its own, and the tensors that one
  expression computes share theirs.
-/

namespace FusionCompiler

open Fusion

namespace Fusion.OwnAxes

variable {f f' : Fusion} {spare : List AxisId}

/-- A tensor that nothing is computed with passes its axes on to a copy, and gets new ones. -/
theorem handOver {root : List AxisId} (h : OwnAxes f (root ++ spare)) (tensor cache : ValueId)
    (haxes : f'.axes = f.axes) (htransforms : f'.transforms = f.transforms)
    (hcomputed : Computed f') (halone : ∀ v, f.Kin tensor v → v = tensor)
    (htensor : (f'.view tensor).domain = .contiguous root)
    (hcache : (f'.view cache).domain = (f.view tensor).domain)
    (hothers : ∀ v, v ≠ tensor → v ≠ cache →
      f'.view v = f.view v ∧ f'.definition v = f.definition v) : OwnAxes f' spare := by
  have hroot : ∀ v, v ≠ tensor → ∀ a ∈ (f'.view v).domain.root, ∃ u,
      (u = tensor ∧ v = cache ∨ u = v ∧ v ≠ tensor ∧ v ≠ cache) ∧ a ∈ (f.view u).domain.root := by
    intro v hv a ha
    by_cases hcopy : v = cache
    · rw [hcopy, hcache] at ha
      exact ⟨tensor, .inl ⟨rfl, hcopy⟩, ha⟩
    · rw [(hothers v hv hcopy).1] at ha
      exact ⟨v, .inr ⟨rfl, hv, hcopy⟩, ha⟩
  refine h.advance (fun u v => u = tensor ∧ v = cache ∨ u = v ∧ v ≠ tensor ∧ v ≠ cache)
    (Nat.le_of_eq (by rw [haxes])) htransforms ?_ ?_ ?_ ?_ hcomputed
  · intro v a ha
    by_cases hv : v = tensor
    · rw [hv, htensor] at ha
      exact .inl ha
    · exact .inr (hroot v hv a ha)
  · -- nothing is computed with the tensor, so an heir of it is kin to itself only
    rintro u v u' v' (⟨rfl, rfl⟩ | ⟨rfl, hv, hvc⟩) (⟨rfl, rfl⟩ | ⟨rfl, hv', hvc'⟩) hkin
    · exact .refl f' _
    · exact absurd (halone u' hkin) hv'
    · exact absurd (halone u hkin.symm) hv
    · exact hkin.congr (hothers u hv hvc).2 (hothers u' hv' hvc').2
  · have honly : ∀ v, ∀ a ∈ root, a ∈ (f'.view v).domain.root → v = tensor := by
      intro v a htake ha
      by_contra hv
      obtain ⟨u, -, hu⟩ := hroot v hv a ha
      exact (h.root u a hu).2.2 (List.mem_append_left _ htake)
    intro u v a htake hu hv
    rw [honly u a htake hu, honly v a htake hv]
    exact .refl f' tensor
  · intro v a ha
    by_cases hv : v = tensor
    · rw [hv, htensor] at ha ⊢
      exact .inl ha
    by_cases hcopy : v = cache
    · rw [hcopy, hcache] at ha ⊢
      exact h.logical tensor a ha
    · rw [(hothers v hv hcopy).1] at ha ⊢
      exact h.logical v a ha

end Fusion.OwnAxes

namespace Schedule

variable {f f' f₁ : Fusion} {spare rest : List AxisId}

/-! ## Copies -/

/-- Another operand changes no axis. -/
theorem replaceInput_owns (e : ExprId) (old new : ValueId) :
    Edit.Owns (Edit.replaceInput e old new) := by
  intro f d f' spare h hf
  rw [Edit.replaceInput, Edit.gives_recreateExpr, List.map_id] at h
  obtain ⟨-, rfl⟩ := h
  exact hf.recreate e _

/-- A copy behind a tensor has axes of its own. -/
theorem cacheAfter_owns (tensor : ValueId) : EditE.Owns (cacheAfter tensor) := by
  unfold cacheAfter
  exact .bind (ensureView_owns tensor) fun _ => .bind (.ensure _ _) fun _ => .get_bind fun _ =>
    .bind (build_owns (Build.copy_owns _)) fun _ =>
    .bind (.forM fun _ => (EditE.Owns.lift (replaceInput_owns _ _ _)).discard) fun _ => .pure _

/-- A copy of an output has axes of its own. -/
theorem cacheFork_owns (tensor : ValueId) : EditE.Owns (cacheFork tensor) := by
  unfold cacheFork
  exact .bind (ensureView_owns tensor).discard fun _ => .get_bind fun _ => .bind (.ensure _ _) fun _ =>
    .bind (.ensure _ _) fun _ => .bind (build_owns (Build.copy_owns _)) fun _ =>
    .bind (.modify fun _ _ hf => hf.ofValues rfl rfl (Nat.le_refl _) rfl) fun _ => .pure _

/-- Copying an axis changes nothing but the axes, of which there is one more. -/
theorem gives_freshAxis {a b : AxisId} {kind : AxisKind}
    (h : Edit.Gives (freshAxis a kind) f b f') :
    ∃ axes, f' = { f with axes } ∧ axes.size = f.axes.size + 1 ∧ b = ⟨f.axes.size⟩ := by
  unfold freshAxis Edit.copyAxis at h
  simp only [Edit.gives_bind, Edit.gives_get, Edit.gives_addAxis, Edit.gives_modify,
    Edit.gives_pure] at h
  obtain ⟨c, f₁, ⟨f₀, f₂, ⟨rfl, rfl⟩, rfl, rfl⟩, _, f₃, rfl, rfl, rfl⟩ := h
  exact ⟨_, rfl, by simp, rfl⟩

/-- A copy of an axis is spare. -/
theorem freshAxis_spare {a b : AxisId} {kind : AxisKind}
    (h : Edit.Gives (freshAxis a kind) f b f') (hf : OwnAxes f spare) :
    OwnAxes f' (b :: spare) := by
  obtain ⟨axes, rfl, hsize, rfl⟩ := gives_freshAxis h
  refine hf.grow (List.nodup_singleton _) (by omega) fun c hc => ?_
  rw [List.mem_singleton.1 hc]
  exact ⟨Nat.lt_irrefl _, by simp [hsize]⟩

/-- Copies of axes are new. -/
theorem gives_freshAxes {axes copies : List AxisId}
    (h : Edit.Gives (freshAxes axes) f copies f') :
    ∃ grown, f' = { f with axes := grown } ∧ f.axes.size ≤ grown.size ∧ copies.Nodup ∧
      ∀ b ∈ copies, ¬ f.HasAxis b ∧ b.index < grown.size := by
  unfold freshAxes at h
  induction axes generalizing f copies with
  | nil =>
      obtain ⟨rfl, rfl⟩ := Edit.gives_pure.1 h
      exact ⟨f.axes, rfl, Nat.le_refl _, List.nodup_nil, by simp⟩
  | cons a axes ih =>
      rw [List.mapM_cons] at h
      simp only [Edit.gives_bind, Edit.gives_get, Edit.gives_pure] at h
      obtain ⟨b, f₁, ⟨f₀, f₂, ⟨rfl, rfl⟩, hb⟩, bs, f₃, hbs, rfl, rfl⟩ := h
      obtain ⟨one, rfl, hsize, rfl⟩ := gives_freshAxis hb
      obtain ⟨grown, rfl, hle, hnodup, hnew⟩ := ih hbs
      have hbelow : ∀ c ∈ bs, f.axes.size < c.index := by
        intro c hc
        have hc := (hnew c hc).1
        simp only [HasAxis] at hc
        omega
      simp only at hle
      refine ⟨grown, rfl, by omega, List.nodup_cons.2 ⟨?_, hnodup⟩, ?_⟩
      · intro hmem
        exact Nat.lt_irrefl _ (hbelow _ hmem)
      · intro c hc
        rcases List.mem_cons.1 hc with rfl | hc
        · exact ⟨Nat.lt_irrefl _, by simp; omega⟩
        · exact ⟨Nat.not_lt.2 (Nat.le_of_lt (hbelow c hc)), (hnew c hc).2⟩

/-- The definition of a tensor without siblings has no other result. -/
theorem outputs_of_siblings_isEmpty {tensor : ValueId} {e : ExprId} (hf : Sound f)
    (hcomputed : Computed f) (ht : f.isTensor tensor = true)
    (hdef : f.definition tensor = some e) (hsiblings : (f.siblings tensor).isEmpty = true) :
    (f.expr e).outputs = [tensor] := by
  have htensors := (ComputesTensors.ofDefinition hf ht hdef).outputs
  have hall : ∀ v ∈ (f.expr e).outputs, v = tensor := fun v hv =>
    eq_of_siblings_isEmpty hdef hsiblings hv (isTensor_of_mem_outputs htensors hv)
  have hmem := (hcomputed.defines tensor e).1 hdef
  have hnodup := hcomputed.distinct e
  generalize (f.expr e).outputs = outs at hall hmem hnodup
  cases outs with
  | nil => cases hmem
  | cons v outs =>
      rw [hall v List.mem_cons_self] at hnodup ⊢
      have hrest : outs = [] := by
        rw [List.eq_nil_iff_forall_not_mem]
        intro w hw
        have heq := hall w (List.mem_cons_of_mem v hw)
        exact (List.nodup_cons.1 hnodup).1 (heq ▸ hw)
      rw [hrest]

/-- Replacing an expression by one that writes into a new tensor keeps the graph and all views. -/
theorem redirected_shares {tensor : ValueId} {e : ExprId} {t : DataType} {x : TensorView}
    {y : Expr} (htensor : f.isTensor tensor = true)
    (heq : ((f.pushValue t (.tensor x)).removeExpr e).pushExpr y = f') :
    f'.axes = f.axes ∧ f'.transforms = f.transforms ∧ f'.isTensor tensor = true ∧
      ∀ v, f'.view v = if v = ⟨f.values.size⟩ then x else f.view v := by
  subst heq
  refine ⟨?_, ?_, ?_, fun v => ?_⟩
  · rw [axes_pushExpr, axes_removeExpr]
    rfl
  · rw [transforms_pushExpr, transforms_removeExpr]
    rfl
  · rw [isTensor_pushExpr, isTensor_removeExpr]
    exact ((extends_pushValue f _ _).isTensor tensor (hasValue_of_isTensor htensor)).trans htensor
  · rw [view_pushExpr, view_removeExpr, view_newTensor]

/-- The computation of a tensor without siblings is written into a new tensor. -/
theorem redirected {tensor cache : ValueId} {e : ExprId} {t : DataType} {x : TensorView}
    {k : ExprKind} {ins : List ValueId} (h : Computed f) (hcache : ⟨f.values.size⟩ = cache)
    (htensor : f.HasValue tensor) (hdef : f.definition tensor = some e)
    (houtputs : (f.expr e).outputs = [tensor])
    (heq : ((f.pushValue t (.tensor x)).removeExpr e).pushExpr ⟨k, ins, [cache]⟩ = f') :
    Computed f' ∧ f'.definition tensor = none ∧
      ∀ v, v ≠ tensor → v ≠ cache → f'.definition v = f.definition v := by
  subst hcache heq
  have hne : tensor ≠ ⟨f.values.size⟩ := fun heq => Nat.lt_irrefl _ (heq ▸ htensor)
  have hflow := SameFlow.pushValue f t (.tensor x)
  have hnone : (f.pushValue t (.tensor x)).definition ⟨f.values.size⟩ = none := by
    rw [hflow.definition, Fusion.definition,
      value_of_not_hasValue (v := ⟨f.values.size⟩) (Nat.lt_irrefl _)]
    rfl
  have honly : ∀ v, f.definition v = some e → v = tensor := by
    intro v hv
    rw [h.defines, houtputs] at hv
    exact List.mem_singleton.1 hv
  obtain ⟨hcomputed, hdefinition⟩ := (h.congr hflow.exprs hflow.definition).replaceExpr (e := e)
    (x := ⟨k, ins, [⟨f.values.size⟩]⟩) (List.nodup_singleton _)
    (by simp [HasValue, pushValue]) (by simp [hnone])
  refine ⟨hcomputed, ?_, fun v hv hvc => ?_⟩
  · rw [hdefinition, if_neg (by simpa using hne), hflow.definition, if_pos hdef]
  · rw [hdefinition, if_neg (by simpa using hvc), hflow.definition,
      if_neg fun hd => hv (honly v hd)]

/-- A tensor that nothing computes gets another view and an expression. -/
theorem recomputed (tensor : ValueId) {k : ExprKind} {ins : List ValueId}
    {g : TensorView → TensorView} (h : Computed f) (ht : f.isTensor tensor = true)
    (hnone : f.definition tensor = none)
    (heq : (f.modifyView tensor g).pushExpr ⟨k, ins, [tensor]⟩ = f') :
    Computed f' ∧ (∀ v, f'.view v = if v = tensor then g (f.view tensor) else f.view v) ∧
      ∀ v, v ≠ tensor → f'.definition v = f.definition v := by
  subst heq
  have hsame := SameGraph.modifyView f tensor g
  refine ⟨(h.congr hsame.exprs hsame.definition).pushExpr (List.nodup_singleton _) ?_ ?_,
    fun v => ?_, fun v hv => ?_⟩
  · intro v hv
    rw [List.mem_singleton.1 hv]
    exact hasValue_of_isTensor ((hsame.isTensor tensor).trans ht)
  · intro v hv
    rw [List.mem_singleton.1 hv, hsame.definition, hnone]
  · rw [view_pushExpr, view_modifyView]
    simp [ht]
  · rw [definition_pushExpr, if_neg fun hmem => hv (List.mem_singleton.1 hmem.1), hsame.definition]

/-- A tensor that is computed into a copy passes its axes on to the copy. -/
theorem cacheBefore_ownAxes {tensor cache : ValueId} (hf : Sound f) (h : OwnAxes f spare)
    (hcall : (cacheBefore tensor).Returns f cache f') : OwnAxes f' spare := by
  obtain ⟨definition, f₂, root, f₃, ht, hdef, -, hsiblings, hcache, hreplace, hroot, rfl⟩ :=
    returns_cacheBefore hcall
  have hhas := hasValue_of_isTensor ht
  have hne : tensor ≠ cache := fun heq => Nat.lt_irrefl _ (hcache ▸ heq ▸ hhas)
  have houtputs := outputs_of_siblings_isEmpty hf h.computed ht hdef hsiblings
  rw [houtputs, List.map_singleton, if_pos rfl] at hreplace
  obtain ⟨haxes₂, htransforms₂, htensor₂, hview₂⟩ := redirected_shares ht hreplace
  rw [← hcache] at hview₂
  obtain ⟨hcomputed₂, hnone, hothers₂⟩ :=
    redirected h.computed hcache.symm hhas hdef houtputs hreplace
  -- the tensor gets copies of the axes, and is computed from its copy
  obtain ⟨grown, rfl, hsize, hnodup, hnew⟩ := gives_freshAxes hroot
  have hgrown : OwnAxes { f with axes := grown } (root ++ spare) := by
    refine h.grow hnodup (haxes₂ ▸ hsize) fun a ha => ?_
    obtain ⟨hold, hlt⟩ := hnew a ha
    rw [HasAxis, haxes₂] at hold
    exact ⟨hold, hlt⟩
  have hcomputed₃ : Computed { f₂ with axes := grown } := hcomputed₂.congr rfl fun _ => rfl
  obtain ⟨hcomputed, hview, hothers⟩ := recomputed tensor hcomputed₃ htensor₂ hnone rfl
  refine hgrown.handOver tensor cache ?_ ?_ hcomputed ?_ ?_ ?_ ?_
  · rw [axes_pushExpr]
    rfl
  · rw [transforms_pushExpr, ← htransforms₂]
    rfl
  · rintro v (rfl | ⟨e, he, hv⟩)
    · rfl
    · have he := hdef.symm.trans he
      cases he
      have hmem := (h.computed.defines v definition).1 hv
      rw [houtputs] at hmem
      exact List.mem_singleton.1 hmem
  · rw [hview, if_pos rfl]
  · have hcopy : f₂.view cache = { domain := (f.view tensor).domain } :=
      (hview₂ cache).trans (if_pos rfl)
    rw [hview, if_neg hne.symm]
    change (f₂.view cache).domain = (f.view tensor).domain
    rw [hcopy]
  · intro v hv hvc
    rw [hview, if_neg hv, hothers v hv]
    exact ⟨(hview₂ v).trans (if_neg hvc), hothers₂ v hv hvc⟩

/-! ## Factored reductions -/

/-- Copies are paired with the axes that they copy. -/
theorem copyAxes_keys {axes : List (AxisId × AxisKind)} {pairs : List (AxisId × AxisId)}
    (h : Edit.Gives (copyAxes axes) f pairs f') : pairs.map (·.1) = axes.map (·.1) := by
  induction axes generalizing f pairs with
  | nil =>
      obtain ⟨rfl, -⟩ := Edit.gives_pure.1 h
      rfl
  | cons a axes ih =>
      unfold copyAxes at h
      simp only [Edit.gives_bind, Edit.gives_pure] at h
      obtain ⟨b, f₁, -, bs, f₂, hbs, rfl, rfl⟩ := h
      rw [List.map_cons, ih hbs, List.map_cons]

/-- Copies of axes are spare. -/
theorem copyAxes_spare {axes : List (AxisId × AxisKind)} {pairs : List (AxisId × AxisId)}
    (h : Edit.Gives (copyAxes axes) f pairs f') (hf : OwnAxes f spare) :
    OwnAxes f' (pairs.map (·.2) ++ spare) := by
  induction axes generalizing f pairs spare with
  | nil =>
      obtain ⟨rfl, rfl⟩ := Edit.gives_pure.1 h
      exact hf
  | cons a axes ih =>
      unfold copyAxes at h
      simp only [Edit.gives_bind, Edit.gives_pure] at h
      obtain ⟨b, f₁, hb, bs, f₂, hbs, rfl, rfl⟩ := h
      exact (ih hbs (freshAxis_spare hb hf)).perm List.perm_middle.symm

/-- Repeating a transform on copies of axes gives no root to anything. -/
theorem repeatTransform_owns (tensor : ValueId) (t : TransformId) (m : AxisMap) :
    EditE.Owns (repeatTransform tensor t m) := by
  unfold repeatTransform
  refine .get_bind fun f => ?_
  split
  · split
    · exact .pure _
    · exact .bind (splitAxis_owns _ _ _) fun _ => .pure _
  · split
    · exact .bind (.mapError (mergeAxes_owns _ _)) fun _ => .pure _
    · exact .pure _

/-- Repeating a history on copies of axes gives no root to anything. -/
theorem repeatTransforms_owns (tensor : ValueId) (ts : List TransformId) (m : AxisMap) :
    EditE.Owns (repeatTransforms tensor ts m) := by
  induction ts generalizing m with
  | nil => exact .pure _
  | cons t ts ih => exact .bind (repeatTransform_owns _ _ _) fun m => ih m

/-- Changes of axes move no axis. -/
theorem foldl_modifyAxis_ownAxes (axes : List AxisId) (k : AxisId → AxisId) (g : Axis → Axis)
    (hf : OwnAxes f spare) :
    OwnAxes (axes.foldl (fun f a => f.modifyAxis (k a) g) f) spare := by
  induction axes generalizing f with
  | nil => exact hf
  | cons a axes ih => exact ih (hf.modifyAxis (k a) g)

/-- Copying executions to new axes moves no axis. -/
theorem copyParallel_owns (pairs : List (AxisId × AxisId)) : Edit.Owns (copyParallel pairs) :=
  .forM fun _ => .modify fun _ _ hf => hf.modifyAxis _ _

/-- What had an image still has one. -/
theorem repeatTransform_contains {tensor : ValueId} {t : TransformId} {m m' : AxisMap}
    {a : AxisId} (h : (repeatTransform tensor t m).Returns f m' f') (ha : m.contains a = true) :
    m'.contains a = true := by
  unfold repeatTransform at h
  obtain ⟨f₀, f₁, hget, h⟩ := EditE.returns_bind.1 h
  split at h
  · split at h
    · rwa [← (EditE.returns_pure.1 h).1]
    · obtain ⟨⟨o, i⟩, f₂, -, h⟩ := EditE.returns_bind.1 h
      rw [← (EditE.returns_pure.1 h).1]
      exact AxisMap.contains_insert (AxisMap.contains_insert ha)
  · split at h
    · obtain ⟨out, f₂, -, h⟩ := EditE.returns_bind.1 h
      rw [← (EditE.returns_pure.1 h).1]
      exact AxisMap.contains_insert ha
    · rwa [← (EditE.returns_pure.1 h).1]

/-- What has an image keeps one, and new images are made. -/
theorem repeatTransforms_images {tensor : ValueId} {ts : List TransformId} {m m' : AxisMap}
    (hf : Sound f) (hts : ∀ t ∈ ts, f.HasTransform t) (hm : f.Images m)
    (h : (repeatTransforms tensor ts m).Returns f m' f') :
    (∀ a, m.contains a = true → m'.contains a = true) ∧
      ∀ b ∈ m'.images, b ∈ m.images ∨ f'.Made b := by
  induction ts generalizing f m with
  | nil =>
      obtain ⟨rfl, rfl⟩ := EditE.returns_pure.1 h
      exact ⟨fun _ => id, fun _ => .inl⟩
  | cons t ts ih =>
      obtain ⟨m₁, f₁, hstep, h⟩ := EditE.returns_bind.1 h
      have ht := hts t List.mem_cons_self
      have hts' : ∀ s ∈ ts, f.HasTransform s := fun s hs => hts s (List.mem_cons_of_mem t hs)
      obtain ⟨hkeeps, hm₁⟩ := repeatTransform_keeps hf ht hm hstep
      have hts₁ : ∀ s ∈ ts, f₁.HasTransform s := fun s hs => hkeeps.ext.hasTransform (hts' s hs)
      obtain ⟨hcontains, himages⟩ := ih hkeeps.sound hts₁ hm₁ h
      have hext := (repeatTransforms_keeps hkeeps.sound hts₁ hm₁ h).1.ext
      refine ⟨fun a ha => hcontains a (repeatTransform_contains hstep ha), fun b hb => ?_⟩
      rcases himages b hb with hb | hb
      · obtain ⟨rfl, rfl⟩ | ⟨x, hrec, hnew⟩ := repeatTransform_records hf ht hm hstep
        · exact .inl hb
        · refine (hnew b hb).imp id fun hx => ?_
          exact Made.mono ((made_push hrec.transforms).2 (.inr hx)) hext
      · exact .inr hb

/-- The domain of the partial tensor: its root axes are spare, and its shape adds axes that
transforms make. -/
theorem partialDomain_spare {tensor : ValueId} {p : Factoring} {d : TensorDomain} (hf : Sound f)
    (hp : Planned f p) (hcall : (p.partialDomain tensor).Returns f d f') (h : OwnAxes f spare) :
    OwnAxes f' (d.root ++ spare) ∧ ∀ a ∈ d.logical, a ∈ d.root ∨ f'.Made a := by
  obtain ⟨roots, f₁, m, f₂, u, hcopy, hrepeat, hparallel, rfl⟩ := returns_partialDomain hcall
  obtain ⟨h₁, hroots⟩ := copyAxes_keeps hf (fun q hq => by
    obtain ⟨a, ha, rfl⟩ := List.mem_map.1 hq
    exact hp.root a ha) hcopy
  have hhistory := (hp.mono h₁.ext).history
  have h₂ := (repeatTransforms_keeps h₁.sound hhistory (images_ofPairs hroots) hrepeat).1
  have hmodified := foldl_modifyAxis_ownAxes p.rfactored (imageOf m)
    (fun x => { x with kind := .iteration, isRFactor := true })
    (repeatTransforms_owns _ _ _ _ _ _ _ hrepeat (copyAxes_spare hcopy h))
  have h₃ : Keeps False f₂ _ := (SameExtents.foldl (fun g a =>
    SameExtents.modifyAxis g (imageOf m a)
      (g := fun x => { x with kind := .iteration, isRFactor := true }) fun _ => rfl)
    p.rfactored f₂).keeps h₂.sound
  have h₄ := h₃.trans (copyParallel_keeps h₃.sound hparallel)
  refine ⟨copyParallel_owns _ _ _ _ _ hparallel hmodified, fun a ha => ?_⟩
  obtain ⟨b, hb, rfl⟩ := List.mem_map.1 ha
  -- an axis of the shape is a root axis, which has an image, or a needed transform makes it
  obtain ⟨hcontains, himages⟩ :=
    repeatTransforms_images h₁.sound hhistory (images_ofPairs hroots) hrepeat
  unfold imageOf
  cases hget : m.get? b with
  | some c =>
      rcases himages c (AxisMap.mem_images_of_get? hget) with hc | hc
      · exact .inl (AxisMap.mem_images_ofPairs hc)
      · exact .inr (Made.mono hc h₄.ext)
  | none =>
      rcases Factoring.mem_frontier hb with hroot | ⟨t, ht, hmade⟩
      · have hkey : b ∈ roots.map (·.1) := by
          rw [copyAxes_keys hcopy, List.map_map]
          exact List.mem_map.2 ⟨b, hroot, rfl⟩
        obtain ⟨c, hc⟩ := AxisMap.contains_iff.1 (hcontains b (AxisMap.contains_ofPairs hkey))
        rw [hget] at hc
        cases hc
      · exact .inr (Made.mono ⟨t, hp.needed t ht, hmade⟩ ((h₁.trans h₂).trans h₄).ext)

/-- The domain of the second stage consists of spare axes. -/
theorem finalDomain_spare {tensor : ValueId} {p : Factoring} {d : TensorDomain}
    (hcall : (p.finalDomain tensor).Returns f d f') (h : OwnAxes f spare) :
    OwnAxes f' (d.root ++ spare) ∧ d.rfactor = none := by
  obtain ⟨roots, f₁, m, f₂, u, hcopy, hrepeat, -, hparallel, rfl⟩ := returns_finalDomain hcall
  have h₂ := repeatTransforms_owns _ _ _ _ _ _ _ hrepeat (copyAxes_spare hcopy h)
  exact ⟨copyParallel_owns _ _ _ _ _ hparallel h₂, rfl⟩

/-- New tensors over one domain. -/
structure NewTensors (f : Fusion) (d : TensorDomain) (news : List ValueId) (f' : Fusion) : Prop where
  flow : SameFlow f f'
  values : f.values.size ≤ f'.values.size
  axes : f'.axes = f.axes
  transforms : f'.transforms = f.transforms
  nodup : news.Nodup
  new : ∀ v ∈ news, ¬ f.HasValue v ∧ f'.HasValue v
  isTensor : ∀ v, f.HasValue v → f'.isTensor v = f.isTensor v
  view : ∀ v, f'.view v = if v ∈ news then { domain := d } else f.view v

/-- The tensors of a stage are new. -/
theorem newTensors_new {d : TensorDomain} {t : ValueId → DataType} {vs news : List ValueId}
    (h : (vs.mapM fun v => (liftM (Edit.newTensor d (t v)) : Schedule ValueId)).Returns f news f') :
    NewTensors f d news f' := by
  induction vs generalizing f news with
  | nil =>
      obtain ⟨rfl, rfl⟩ := EditE.returns_pure.1 h
      exact ⟨.refl f, Nat.le_refl _, rfl, rfl, List.nodup_nil, by simp, by simp, by simp⟩
  | cons v vs ih =>
      rw [List.mapM_cons] at h
      simp only [EditE.returns_bind, EditE.returns_lift, EditE.returns_pure, Edit.newTensor,
        Edit.gives_newValue] at h
      obtain ⟨new, f₁, ⟨rfl, rfl⟩, news, f₂, hnews, rfl, rfl⟩ := h
      have hrest := ih hnews
      have hsize : (f.pushValue (t v) (.tensor { domain := d })).values.size = f.values.size + 1 :=
        Array.size_push _
      have hle := hrest.values
      rw [hsize] at hle
      have hbelow : ∀ w ∈ news, f.values.size < w.index := by
        intro w hw
        have hnot := (hrest.new w hw).1
        rw [HasValue, hsize] at hnot
        omega
      refine ⟨(SameFlow.pushValue f _ _).trans hrest.flow, by omega, hrest.axes, hrest.transforms,
        List.nodup_cons.2 ⟨fun hmem => Nat.lt_irrefl _ (hbelow _ hmem), hrest.nodup⟩,
        fun w hw => ?_, fun w hw => ?_, fun w => ?_⟩
      · rcases List.mem_cons.1 hw with rfl | hw
        · exact ⟨Nat.lt_irrefl _, hle⟩
        · exact ⟨Nat.not_lt.2 (Nat.le_of_lt (hbelow w hw)), (hrest.new w hw).2⟩
      · have hext := extends_pushValue f (t v) (.tensor { domain := d })
        rw [hrest.isTensor w (hext.hasValue hw), hext.isTensor w hw]
      · rw [hrest.view, view_newTensor]
        by_cases hw : w = ⟨f.values.size⟩
        · simp [hw]
        · simp [hw]

/-- An expression that is taken apart computes its results from the partial ones. -/
theorem NewTensors.takenApart_computed {d : TensorDomain} {partials : List ValueId}
    (hn : NewTensors f d partials f₁) (h : Computed f) (e : ExprId) :
    Computed (takenApart f₁ e (f.expr e) partials) ∧ ∃ first last, ∀ v,
      (takenApart f₁ e (f.expr e) partials).definition v =
        if v ∈ (f.expr e).outputs then some last
        else if v ∈ partials then some first else f.definition v := by
  have hhas : ∀ v ∈ (f.expr e).outputs, f.HasValue v := fun v hv =>
    hasValue_of_definition ((h.defines v e).2 hv)
  have hapart : ∀ v ∈ (f.expr e).outputs, v ∉ partials := fun v hv hmem =>
    (hn.new v hmem).1 (hhas v hv)
  have hnone : ∀ v ∈ partials, f₁.definition v = none := by
    intro v hv
    rw [hn.flow.definition, Fusion.definition, value_of_not_hasValue (hn.new v hv).1]
    rfl
  obtain ⟨hcomputed, hdefinition⟩ := (h.congr hn.flow.exprs hn.flow.definition).replaceExpr
    (e := e) (x := ⟨(f.expr e).kind, (f.expr e).inputs, partials⟩) hn.nodup
    (fun v hv => (hn.new v hv).2) fun v hv => .inl (hnone v hv)
  have hhas₁ : ∀ v ∈ (f.expr e).outputs, ((f₁.removeExpr e).pushExpr
      ⟨(f.expr e).kind, (f.expr e).inputs, partials⟩).HasValue v := by
    intro v hv
    rw [HasValue, size_pushExpr, size_removeExpr]
    exact Nat.lt_of_lt_of_le (hhas v hv) hn.values
  refine ⟨hcomputed.pushExpr (h.distinct e) hhas₁ fun v hv => ?_,
    ⟨(f₁.removeExpr e).exprs.size⟩, ⟨((f₁.removeExpr e).pushExpr
      ⟨(f.expr e).kind, (f.expr e).inputs, partials⟩).exprs.size⟩, fun v => ?_⟩
  · rw [hdefinition, if_neg (hapart v hv), hn.flow.definition, if_pos ((h.defines v e).2 hv)]
  · rw [takenApart, definition_pushExpr, hdefinition, hn.flow.definition]
    by_cases hv : v ∈ (f.expr e).outputs
    · rw [if_pos ⟨hv, hhas₁ v hv⟩, if_pos hv]
    · have hother : f.definition v ≠ some e := fun hd => hv ((h.defines v e).1 hd)
      rw [if_neg fun hmem => hv hmem.1, if_neg hv, if_neg hother]

/-- The partial results of an expression that is taken apart get spare axes. -/
theorem NewTensors.takenApart_ownAxes {d : TensorDomain} {partials : List ValueId}
    (hn : NewTensors f d partials f₁) (h : OwnAxes f (d.root ++ rest))
    (hlogical : ∀ a ∈ d.logical, a ∈ d.root ∨ f.Made a) (e : ExprId) :
    OwnAxes (takenApart f₁ e (f.expr e) partials) rest := by
  obtain ⟨hcomputed, first, last, hdefinition⟩ := hn.takenApart_computed h.computed e
  have hview : ∀ v, (takenApart f₁ e (f.expr e) partials).view v =
      if v ∈ partials then { domain := d } else f.view v := by
    intro v
    rw [view_takenApart, hn.view]
  have hold : ∀ v c, f.definition v = some c → v ∉ partials := fun v c hc hmem =>
    (hn.new v hmem).1 (hasValue_of_definition hc)
  refine h.advance (fun u v => u = v ∧ v ∉ partials) ?_ ?_ ?_ ?_ ?_ ?_ hcomputed
  · rw [axes_takenApart, hn.axes]
  · rw [takenApart, transforms_pushExpr, transforms_pushExpr, transforms_removeExpr, hn.transforms]
  · intro v a ha
    rw [hview] at ha
    split at ha
    case isTrue => exact .inl ha
    case isFalse hv => exact .inr ⟨v, ⟨rfl, hv⟩, ha⟩
  · rintro u v u' v' ⟨rfl, hu⟩ ⟨rfl, hu'⟩ (rfl | ⟨c, hc, hc'⟩)
    · exact .refl _ u
    -- the two are results of the expression, or nothing has changed for them
    by_cases hce : c = e
    · rw [hce, h.computed.defines] at hc hc'
      exact .inr ⟨last, (hdefinition u).trans (if_pos hc), (hdefinition u').trans (if_pos hc')⟩
    · have hkept : ∀ w, f.definition w = some c → w ∉ partials →
          (takenApart f₁ e (f.expr e) partials).definition w = some c := by
        intro w hw hnot
        have hother : w ∉ (f.expr e).outputs := by
          rw [← h.computed.defines, hw]
          exact fun heq => hce (Option.some.inj heq)
        rw [hdefinition, if_neg hother, if_neg hnot, hw]
      exact .inr ⟨c, hkept u hc hu, hkept u' hc' hu'⟩
  · have honly : ∀ v, ∀ a ∈ d.root,
        a ∈ ((takenApart f₁ e (f.expr e) partials).view v).domain.root → v ∈ partials := by
      intro v a htake ha
      rw [hview] at ha
      split at ha
      case isTrue hv => exact hv
      case isFalse => exact absurd (List.mem_append_left _ htake) (h.root v a ha).2.2
    have hfirst : ∀ v ∈ partials,
        (takenApart f₁ e (f.expr e) partials).definition v = some first := by
      intro v hv
      have hnot : v ∉ (f.expr e).outputs := fun hmem =>
        hold v e ((h.computed.defines v e).2 hmem) hv
      rw [hdefinition, if_neg hnot, if_pos hv]
    intro u v a htake hu hv
    exact .inr ⟨first, hfirst u (honly u a htake hu), hfirst v (honly v a htake hv)⟩
  · intro v a ha
    rw [hview] at ha ⊢
    split
    case isTrue hv =>
        rw [if_pos hv] at ha
        exact hlogical a ha
    case isFalse hv =>
        rw [if_neg hv] at ha
        exact h.logical v a ha

/-- A factored reduction goes over to new axes in both of its stages. -/
theorem rfactor_ownAxes {tensor out : ValueId} {axes : List Int} (hf : Sound f)
    (h : OwnAxes f spare) (hcall : (rfactor tensor axes).Returns f out f') : OwnAxes f' spare := by
  obtain ⟨p, d₁, f₁, d₂, f₂, partials, f₃, ht, hplan, hpartial, hfinal, hpartials, rfl, -⟩ :=
    returns_rfactor hcall
  obtain ⟨-, hplanned⟩ := plan_planned hf hplan
  obtain ⟨h₁, hlogical⟩ := partialDomain_spare hf hplanned hpartial h
  have hkeeps := (partialDomain_keeps hf hplanned hpartial).1
  have hext := (finalDomain_keeps hkeeps.sound (hplanned.mono hkeeps.ext) hfinal).1.ext
  obtain ⟨h₂, hrfactor⟩ := finalDomain_spare hfinal h₁
  have hswap : OwnAxes f₂ (d₁.root ++ (d₂.root ++ spare)) := by
    refine h₂.perm ?_
    rw [← List.append_assoc, ← List.append_assoc]
    exact List.perm_append_comm.append_right spare
  have hhas := hasValue_of_isTensor ht
  have hext' := hkeeps.ext.trans hext
  have hnew := newTensors_new hpartials
  have h₃ := hnew.takenApart_ownAxes hswap
    (fun a ha => (hlogical a ha).imp id fun hmade => hmade.mono hext) p.definition
  have hsame := SameGraph.modifyView (takenApart f₃ p.definition (f₂.expr p.definition) partials)
    tensor fun v => { v with domain := d₂ }
  refine OwnAxes.syncSiblings ?_ tensor
  refine h₃.place (v := tensor) hrfactor hsame.axes hsame.transforms hsame.exprs
    hsame.definition ?_ fun w hw => ?_
  · have htensor : (takenApart f₃ p.definition (f₂.expr p.definition) partials).isTensor tensor =
        true := by
      rw [isTensor_takenApart, hnew.isTensor tensor (hext'.hasValue hhas), hext'.isTensor tensor hhas,
        ht]
    rw [view_modifyView, if_pos ⟨rfl, htensor⟩]
  · rw [view_modifyView, if_neg fun heq => hw heq.1]

end Schedule

/-! ## Sequences of calls -/

namespace Call

variable {f f' : Fusion} {c : Call}

/-- A building call keeps axes apart. -/
theorem perform_building_owns (replayer : Schedule.Replayer) (hscope : c.scope = .building) :
    EditE.Owns (c.perform replayer) := by
  cases c with
  | scalar t => exact EditE.Owns.discard (.lift Edit.newScalar_owns)
  | constant c => exact EditE.Owns.discard (.lift Edit.newScalar_owns)
  | constantTyped c t => exact EditE.Owns.discard (.lift Edit.newScalar_owns)
  | tensor sizes contiguity t => exact .discard (.lift (Build.declareTensor_owns _ _ _))
  | unary op x => exact .discard (Schedule.build_owns (Build.unaryOp_owns op x))
  | copy x => exact .discard (Schedule.build_owns (Build.copy_owns x))
  | cast x t => exact .discard (Schedule.build_owns (Build.cast_owns x t))
  | binary op x y => exact .discard (Schedule.build_owns (Build.binaryOp_owns op x y))
  | select x y z => exact .discard (Schedule.build_owns (Build.select_owns x y z))
  | reduceFrom op axes init tensor =>
      exact .discard (Schedule.build_owns (Build.reductionOp_owns op axes init tensor))
  | reduce op tensor axes => exact .discard (Schedule.build_owns (Build.reduce_owns op tensor axes))
  | welford tensor axes => exact .discard (Schedule.build_owns (Build.welford_owns tensor axes))
  | broadcast tensor flags => exact .discard (Schedule.build_owns (Build.broadcast_owns tensor flags))
  | input v => exact Schedule.build_owns (Build.addInput_owns v)
  | output v => exact Schedule.build_owns (Build.addOutput_owns v)
  | removeInput v => exact .modify fun f _ hf => hf.ofValues rfl rfl (Nat.le_refl _) rfl
  | removeOutput v => exact .modify fun f _ hf => hf.ofValues rfl rfl (Nat.le_refl _) rfl
  | aliasing out into => exact Schedule.build_owns (Build.addAlias_owns out into)
  | _ => cases hscope

/-- A scheduling call keeps axes apart. -/
theorem perform_scheduling_ownAxes (hscope : c.scope ≠ .building) (hf : Sound f)
    (h : OwnAxes f []) {u : Unit} (hcall : (c.perform Schedule.replay).Returns f u f') :
    OwnAxes f' [] := by
  have howns : EditE.Owns (c.perform Schedule.replay) → OwnAxes f' [] := fun hc =>
    hc f u f' [] hcall h
  cases c with
  | split tensor axis factor innerSplit => exact howns (Schedule.split_owns _ _ _ _)
  | merge tensor outer inner => exact howns (Schedule.merge_owns _ _ _)
  | reorder tensor moves => exact howns (Schedule.reorder_owns _ _)
  | computeAt producer consumer pos => exact howns (Schedule.computeAt_owns _ _ _)
  | propagate reference => exact howns (Schedule.propagateTransforms_owns _)
  | replayProducer roots producer consumer pos mode =>
      exact howns (Schedule.replayOntoProducer_owns _ _ _ _ _).discard
  | replayConsumer roots consumer producer pos mode =>
      exact howns (Schedule.replayOntoConsumer_owns _ _ _ _ _).discard
  | parallelize tensor axis parallel => exact howns (Schedule.parallelize_owns _ _ _)
  | parallelizeLike reference vs types => exact howns (Schedule.parallelizeLike_owns _ _ _)
  | rfactor tensor axes =>
      obtain ⟨v, hcall⟩ := EditE.returns_discard.1 hcall
      exact Schedule.rfactor_ownAxes hf h hcall
  | cacheAfter tensor => exact howns (Schedule.cacheAfter_owns _).discard
  | cacheBefore tensor =>
      obtain ⟨v, hcall⟩ := EditE.returns_discard.1 hcall
      exact Schedule.cacheBefore_ownAxes hf h hcall
  | cacheFork tensor => exact howns (Schedule.cacheFork_owns _).discard
  | setMemory tensor memory => exact howns (Schedule.setMemory_owns _ _)
  | _ => exact absurd rfl hscope

/-- A call keeps axes apart and values of one expression together. -/
theorem outcome_ownAxes (hf : Regular f) (h : OwnAxes f [])
    (hcall : c.outcome Schedule.replay f = some f') : Regular f' ∧ OwnAxes f' [] := by
  obtain ⟨hknown, u, hcall⟩ := outcome_eq_some hcall
  by_cases hscope : c.scope = .building
  · exact ⟨(perform_building_freezes hscope hf hknown hcall.leaves).regular,
      perform_building_owns Schedule.replay hscope f u f' [] hcall h⟩
  · exact ⟨(perform_scheduling_freezes hscope hf hcall.leaves).regular,
      perform_scheduling_ownAxes hscope hf.sound h hcall⟩

end Call

namespace Fusion

variable {f : Fusion} {calls : List Call}

/-- After calls that succeed, every tensor has axes of its own. -/
theorem applyAll_regular_ownAxes (h : applyAll Schedule.replay calls {} = some f) :
    Regular f ∧ OwnAxes f [] := by
  have hrun : ∀ g : Fusion, Regular g → OwnAxes g [] →
      applyAll Schedule.replay calls g = some f → Regular f ∧ OwnAxes f [] := by
    clear h
    induction calls with
    | nil =>
        intro g hg hown h
        cases h
        exact ⟨hg, hown⟩
    | cons c calls ih =>
        intro g hg hown h
        obtain ⟨f₁, hone, h⟩ := Option.bind_eq_some_iff.1 h
        obtain ⟨hregular, hown₁⟩ := c.outcome_ownAxes hg hown hone
        exact ih f₁ hregular hown₁ h
  exact hrun {} regular_empty ownAxes_empty h

/-- After every sequence of calls, tensors that one expression computes have one view. -/
theorem applyAll_regular (h : applyAll Schedule.replay calls {} = some f) : Regular f :=
  (applyAll_regular_ownAxes h).1

/-- After every sequence of calls, each tensor has root axes of its own. -/
theorem applyAll_ownAxes (h : applyAll Schedule.replay calls {} = some f) : OwnAxes f [] :=
  (applyAll_regular_ownAxes h).2

end Fusion
end FusionCompiler
