import FusionCompiler.Proofs.Schedule.Copies
import FusionCompiler.Proofs.Schedule.Factoring
import FusionCompiler.Proofs.Schedule.OwningStages

/-!
# Shapes of factored reductions

The second stage of a factored reduction gets a new root: copies of the axes that the
partial results are listed by.  What its consumers see of it are the axes among them
that are no reductions.  These are the axes they saw before, as long as only
reductions lead to the reductions that are left.

A broadcast axis that was merged into a remaining reduction is lost.

Main results:

- Theorem `Schedule.outline_finalDomain`: what consumers see of the second stage.
- Theorem `Schedule.Factoring.Splits.unreduced_frontier`: the axes that are no
  reductions, where only reductions lead to the remaining reductions.
- Theorem `Fusion.rfactor_keeps_outline`: consumers see the same axes of the tensor
  and of its siblings.
-/

namespace FusionCompiler

namespace Fusion

/-- Kinds and extents of listed axes. -/
def described (f : Fusion) (axes : List AxisId) : List (AxisKind × ValueId) :=
  axes.map fun a => ((f.axis a).kind, f.extent a)

/-- Kinds and extents of the axes of a tensor as its consumers see them. -/
def outline (f : Fusion) (v : ValueId) : List (AxisKind × ValueId) :=
  f.described (f.shape v)

theorem described_filter (f : Fusion) (axes : List AxisId) :
    f.described (axes.filter fun a => !(f.axis a).isReduction) =
      (f.described axes).filter (·.1 != .reduction) := by
  unfold described
  rw [List.filter_map]
  rfl

theorem described_congr {f f' : Fusion} {axes : List AxisId}
    (hkind : ∀ a ∈ axes, (f'.axis a).kind = (f.axis a).kind)
    (hextent : ∀ a ∈ axes, f'.extent a = f.extent a) : f'.described axes = f.described axes :=
  List.map_congr_left fun a ha => Prod.ext (hkind a ha) (hextent a ha)

end Fusion

open Fusion

namespace Schedule

variable {f f' f₁ f₂ : Fusion} {tensor : ValueId} {p : Factoring} {d : TensorDomain}

/-! ## Axes while schedules are repeated -/

/-- Repeating transforms leaves the axes there are alone and maps to new axes. -/
theorem repeatTransforms_axes {ts : List TransformId} {m m' : AxisMap} (hf : Sound f)
    (hts : ∀ t ∈ ts, f.HasTransform t) (hm : f.Images m)
    (h : (repeatTransforms tensor ts m).Returns f m' f') :
    (∀ a, f.HasAxis a → f'.axis a = f.axis a) ∧
      ∀ b ∈ m'.images, b ∈ m.images ∨ ¬ f.HasAxis b := by
  induction ts generalizing f m with
  | nil =>
      obtain ⟨rfl, rfl⟩ := EditE.returns_pure.1 h
      exact ⟨fun _ _ => rfl, fun b hb => .inl hb⟩
  | cons t ts ih =>
      obtain ⟨m₁, f₁, hstep, h⟩ := EditE.returns_bind.1 h
      have ht := hts t List.mem_cons_self
      obtain ⟨hone, hm₁⟩ := repeatTransform_keeps hf ht hm hstep
      obtain ⟨haxis, himages⟩ := ih hone.sound
        (fun s hs => hone.ext.hasTransform (hts s (List.mem_cons_of_mem t hs))) hm₁ h
      have hlate : ∀ {b}, ¬ f₁.HasAxis b → ¬ f.HasAxis b :=
        fun hb hold => hb (hone.ext.hasAxis hold)
      obtain ⟨rfl, rfl⟩ | ⟨x, hrec, hnew⟩ := repeatTransform_records hf ht hm hstep
      · exact ⟨haxis, himages⟩
      · refine ⟨fun a ha => (haxis a (hrec.ext.hasAxis ha)).trans (hrec.axis a ha), fun b hb => ?_⟩
        rcases himages b hb with hb | hb
        · rcases hnew b hb with hb | hb
          · exact .inl hb
          · exact .inr (hrec.fresh b hb)
        · exact .inr (hlate hb)

theorem copyParallel_kind {pairs : List (AxisId × AxisId)} {u : Unit}
    (h : Edit.Gives (copyParallel pairs) f u f') (b : AxisId) :
    (f'.axis b).kind = (f.axis b).kind := by
  unfold copyParallel at h
  induction pairs generalizing f with
  | nil =>
      obtain ⟨-, rfl⟩ := Edit.gives_pure.1 h
      rfl
  | cons p pairs ih =>
      obtain ⟨_, f₁, hstep, h⟩ := Edit.gives_bind.1 h
      obtain rfl := Edit.gives_modify.1 hstep
      rw [ih h, axis_modifyAxis]
      split
      case isTrue hb => rw [hb.1]
      case isFalse => rfl

/-- Changing axes leaves the other ones alone. -/
theorem axis_foldl_modifyAxis {axes : List AxisId} {k : AxisId → AxisId} {g : Axis → Axis}
    {a : AxisId} (ha : ∀ b ∈ axes, k b ≠ a) :
    (axes.foldl (fun f b => f.modifyAxis (k b) g) f).axis a = f.axis a := by
  induction axes generalizing f with
  | nil => rfl
  | cons b axes ih =>
      rw [List.foldl_cons, ih fun c hc => ha c (List.mem_cons_of_mem b hc), axis_modifyAxis,
        if_neg fun heq => ha b List.mem_cons_self heq.1.symm]

/-! ## The domains of both stages -/

/-- The frontier of a plan stays the same. -/
theorem Planned.frontier_eq (hp : Planned f p) (hext : Extends f f') :
    p.frontier f' = p.frontier f := by
  unfold Factoring.frontier
  refine List.foldl_ext _ _ _ fun axes t ht => ?_
  rw [hext.transform t (hp.needed t ht)]

/-- The partial tensor changes kinds only of what it iterates over in place of a reduction. -/
theorem partialDomain_kind (hf : Sound f) (hp : Planned f p)
    (h : (p.partialDomain tensor).Returns f d f') {a : AxisId} (ha : f.HasAxis a)
    (hr : a ∉ p.rfactored) : (f'.axis a).kind = (f.axis a).kind := by
  obtain ⟨roots, f₁, m, f₂, u, hcopy, hrepeat, hparallel, -⟩ := returns_partialDomain h
  have hd := copyAxes_duplicates hf (fun q hq => by
    obtain ⟨b, hb, rfl⟩ := List.mem_map.1 hq
    exact hp.root b hb) hcopy
  have hroots : ∀ q ∈ roots, f₁.HasAxis q.2 := fun q hq => (hd.new q hq).1
  obtain ⟨haxis, himages⟩ := repeatTransforms_axes hd.adjoins.sound
    (hp.mono hd.adjoins.ext).history (images_ofPairs hroots) hrepeat
  have hfresh : ∀ b ∈ m.images, ¬ f.HasAxis b := by
    intro b hb hold
    rcases himages b hb with hb | hb
    · obtain ⟨q, hq, rfl⟩ := List.mem_map.1 (AxisMap.mem_images_ofPairs hb)
      exact (hd.new q hq).2 hold
    · exact hb (hd.adjoins.ext.hasAxis hold)
  have hother : ∀ b ∈ p.rfactored, imageOf m b ≠ a := by
    intro b hb heq
    unfold imageOf at heq
    cases himage : m.get? b with
    | none =>
        rw [himage] at heq
        exact hr (heq ▸ hb)
    | some c =>
        rw [himage, Option.getD_some] at heq
        exact hfresh c (AxisMap.mem_images_of_get? himage) (heq ▸ ha)
  rw [copyParallel_kind hparallel, axis_foldl_modifyAxis hother,
    haxis a (hd.adjoins.ext.hasAxis ha), hd.adjoins.axis a ha]

/-- The root of the second stage describes what it is made for. -/
theorem described_finalDomain (hf : Sound f) (hp : Planned f p)
    (h : (p.finalDomain tensor).Returns f d f') :
    d.rfactor = none ∧
      f'.described d.root = (p.finalKinds f).map fun q => (q.2, f.extent q.1) := by
  obtain ⟨roots, f₁, m, f₂, u, hcopy, hrepeat, -, hparallel, rfl⟩ := returns_finalDomain h
  refine ⟨rfl, ?_⟩
  have hd := copyAxes_duplicates hf (hp.finalKinds hf) hcopy
  have hroots : ∀ q ∈ roots, f₁.HasAxis q.2 := fun q hq => (hd.new q hq).1
  have hrest : ∀ t ∈ p.history.filter fun t => !p.needed.contains t, f₁.HasTransform t :=
    fun t ht => (hp.mono hd.adjoins.ext).history t (List.mem_filter.1 ht).1
  obtain ⟨h₂, hm⟩ := repeatTransforms_keeps hd.adjoins.sound hrest (images_ofPairs hroots) hrepeat
  obtain ⟨haxis, -⟩ := repeatTransforms_axes hd.adjoins.sound hrest (images_ofPairs hroots) hrepeat
  have hext := (h₂.trans (copyParallel_keeps h₂.sound hparallel)).ext
  have hcopies : f'.described (roots.map (·.2)) = f₁.described (roots.map (·.2)) := by
    refine described_congr (fun a ha => ?_) fun a ha => ?_
    · obtain ⟨q, hq, rfl⟩ := List.mem_map.1 ha
      rw [copyParallel_kind hparallel, haxis _ (hroots q hq)]
    · obtain ⟨q, hq, rfl⟩ := List.mem_map.1 ha
      exact hext.extent _ (hroots q hq)
  change f'.described (roots.map (·.2)) = _
  rw [hcopies, ← hd.kinds, described, List.map_map, List.map_map]
  exact List.map_congr_left fun q hq => Prod.ext rfl (hd.extent q hq)

/-- What consumers see of the root of the second stage: the axes at the frontier that are no
reductions. -/
theorem described_finalKinds (p : Factoring) (f : Fusion) :
    ((p.finalKinds f).map fun q => (q.2, f.extent q.1)).filter (·.1 != .reduction) =
      f.described ((p.frontier f).filter fun a =>
        !p.rfactored.contains a && !(f.axis a).isReduction) := by
  unfold Factoring.finalKinds described
  induction p.frontier f with
  | nil => rfl
  | cons a axes ih =>
      by_cases hr : a ∈ p.rfactored
      · simpa [hr] using ih
      · cases hred : (f.axis a).isReduction with
        | true => simpa [hr, hred] using ih
        | false =>
            have hkind : (f.axis a).kind ≠ .reduction := fun heq => by
              rw [Axis.isReduction, heq] at hred
              cases hred
            simpa [hr, hred, hkind] using ih

/-! ## Reductions that only reductions lead to -/

/-- Ancestors of axes are the axes and what is consumed to make ancestors. -/
theorem exists_of_mem_withAncestors {goal : List AxisId} {a : AxisId}
    (h : a ∈ withAncestors f goal) : a ∈ goal ∨ ∃ x ∈ f.transforms.toList, a ∈ x.inputs ∧
      ∃ b ∈ x.outputs, b ∈ withAncestors f goal := by
  have hwalk : ∀ l : List (Transform × Nat),
      let w := l.foldr (fun q w => traceStep [] ⟨q.2⟩ q.1 w) ⟨goal, []⟩
      ∀ a ∈ w.wanted, a ∈ goal ∨ ∃ q ∈ l, a ∈ q.1.inputs ∧ ∃ b ∈ q.1.outputs, b ∈ w.wanted := by
    intro l
    induction l with
    | nil => exact fun a ha => .inl ha
    | cons q l ih =>
        rw [List.foldr_cons]
        generalize l.foldr (fun q w => traceStep [] ⟨q.2⟩ q.1 w) ⟨goal, []⟩ = w at ih ⊢
        dsimp only at ih ⊢
        unfold traceStep
        split
        case isTrue hcond =>
            obtain ⟨b, hb, hwant⟩ := List.any_eq_true.1 hcond
            have hb' : b ∈ w.wanted := by simpa using hwant
            intro a ha
            rcases List.mem_append.1 ha with ha | ha
            · exact .inr ⟨q, List.mem_cons_self, ha, b, hb, List.mem_append_right _ hb'⟩
            · refine (ih a ha).imp_right ?_
              rintro ⟨r, hr, hin, c, hc, hwant⟩
              exact ⟨r, List.mem_cons_of_mem q hr, hin, c, hc, List.mem_append_right _ hwant⟩
        case isFalse =>
            intro a ha
            refine (ih a ha).imp_right ?_
            rintro ⟨r, hr, hrest⟩
            exact ⟨r, List.mem_cons_of_mem q hr, hrest⟩
  refine (hwalk f.transforms.toList.zipIdx a h).imp_right ?_
  rintro ⟨q, hq, hrest⟩
  exact ⟨q.1, (List.mem_zipIdx hq).2.2 ▸ List.getElem_mem _, hrest⟩

/-- Whatever leads to the reductions that are left for the second stage transforms reductions
only. -/
def Factoring.Unmixed (p : Factoring) (f : Fusion) : Prop :=
  ∀ x ∈ f.transforms.toList, (∃ b ∈ x.outputs, b ∈ withAncestors f (p.kept f)) →
    ∀ a ∈ x.inputs ++ x.outputs, (f.axis a).isReduction = true

instance (p : Factoring) (f : Fusion) : Decidable (p.Unmixed f) :=
  inferInstanceAs (Decidable (∀ x ∈ f.transforms.toList,
    (∃ b ∈ x.outputs, b ∈ withAncestors f (p.kept f)) →
      ∀ a ∈ x.inputs ++ x.outputs, (f.axis a).isReduction = true))

theorem Factoring.Unmixed.isReduction (h : p.Unmixed f) {a : AxisId}
    (ha : a ∈ withAncestors f (p.kept f)) : (f.axis a).isReduction = true := by
  rcases exists_of_mem_withAncestors ha with hkept | ⟨x, hx, hin, hout⟩
  · exact (Factoring.mem_kept.1 hkept).2.1
  · exact h x hx hout a (List.mem_append_left _ hin)

theorem transform_mem_toList {t : TransformId} (ht : f.HasTransform t) :
    f.transform t ∈ f.transforms.toList := by
  unfold transform
  rw [Array.getD_eq_getD_getElem?, Array.getElem?_eq_getElem ht, Option.getD_some]
  exact Array.getElem_mem_toList _

/-- The axes at the frontier that are no reductions are those that consumers see. -/
theorem Factoring.Splits.unreduced_frontier (hp : p.Splits f tensor) (hplanned : Planned f p)
    (h : p.Unmixed f) : ((p.frontier f).filter fun a =>
      !p.rfactored.contains a && !(f.axis a).isReduction) = f.shape tensor := by
  have hkept : ∀ a, (!p.rfactored.contains a && !(f.axis a).isReduction) =
      !(f.axis a).isReduction := by
    intro a
    cases hred : (f.axis a).isReduction with
    | true => simp
    | false =>
        have hr : a ∉ p.rfactored := fun hr => by
          rw [h.isReduction ((hp.rfactored a).1 hr).1] at hred
          cases hred
        simpa using hr
  have hlogical : (f.view tensor).domain.logical = p.domain.root := by
    rw [← hp.domain, TensorDomain.logical, hp.unfactored]
    rfl
  simp only [hkept]
  rw [shape, hlogical, Factoring.frontier]
  refine filter_foldl_applyInPlace fun t ht a ha => ?_
  have hred := h _ (transform_mem_toList (hplanned.needed t ht)) (hp.mem_needed.1 ht).2 a ha
  rw [hred]
  rfl

end Schedule

namespace Fusion

open Schedule

variable {f f' f₁ f₂ : Fusion} {tensor out : ValueId} {p : Factoring} {d₁ d₂ : TensorDomain}

/-- What consumers see of the second stage before it replaces the tensor. -/
theorem outline_finalDomain (hf : Sound f) (hp : p.Splits f tensor) (hplanned : Planned f p)
    (hunmixed : p.Unmixed f) (hpartial : (p.partialDomain tensor).Returns f d₁ f₁)
    (hfinal : (p.finalDomain tensor).Returns f₁ d₂ f₂) :
    f₂.described (d₂.logical.filter fun a => !(f₂.axis a).isReduction) = f.outline tensor := by
  obtain ⟨h₁, -⟩ := partialDomain_keeps hf hplanned hpartial
  obtain ⟨hunfactored, hroot⟩ := described_finalDomain h₁.sound (hplanned.mono h₁.ext) hfinal
  have hlogical : d₂.logical = d₂.root := by
    rw [TensorDomain.logical, hunfactored]
    rfl
  have hfrontier := hplanned.frontier_eq h₁.ext
  have hkind : ∀ a ∈ p.frontier f, a ∉ p.rfactored → (f₁.axis a).kind = (f.axis a).kind :=
    fun a ha hr => partialDomain_kind hf hplanned hpartial (hplanned.frontier hf a ha) hr
  have hfilter : ((p.frontier f).filter fun a =>
      !p.rfactored.contains a && !(f₁.axis a).isReduction) = f.shape tensor := by
    rw [← hp.unreduced_frontier hplanned hunmixed]
    refine List.filter_congr fun a ha => ?_
    by_cases hr : a ∈ p.rfactored
    · simp [hr]
    · rw [Axis.isReduction, hkind a ha hr, Axis.isReduction]
  rw [hlogical, described_filter, hroot, described_finalKinds, hfrontier, hfilter]
  have hmem : ∀ a ∈ f.shape tensor, a ∈ p.frontier f ∧ a ∉ p.rfactored := by
    intro a ha
    rw [← hfilter] at ha
    obtain ⟨hfrontier, hcond⟩ := List.mem_filter.1 ha
    exact ⟨hfrontier, by simpa using (Bool.and_eq_true_iff.1 hcond).1⟩
  exact described_congr (fun a ha => hkind a (hmem a ha).1 (hmem a ha).2)
    fun a ha => h₁.ext.extent a (hplanned.frontier hf a (hmem a ha).1)

/-! ## Expressions taken apart -/

/-- What taking an expression apart leads to: all its results get one domain, and they are computed
from as many new tensors over another domain, which take over its operands. -/
structure TakesApart (f : Fusion) (x : Expr) (first last : TensorDomain) (partials : List ValueId)
    (f' : Fusion) : Prop where
  length : partials.length = x.outputs.length
  new : ∀ v ∈ partials, ¬ f.HasValue v
  firsts : ∀ v ∈ partials, f'.view v = { domain := first }
  lasts : ∀ v ∈ x.outputs, (f'.view v).domain = last
  others : ∀ v, v ∉ partials → v ∉ x.outputs → f'.view v = f.view v
  operands : ∀ v ∈ partials, f'.definingExpr? v = some ⟨x.kind, x.inputs, partials⟩
  combines : ∀ v ∈ x.outputs, f'.definingExpr? v = some ⟨x.kind, partials, x.outputs⟩

theorem length_newTensors {d : TensorDomain} {t : ValueId → DataType} {vs news : List ValueId}
    (h : (vs.mapM fun v => (liftM (Edit.newTensor d (t v)) : Schedule ValueId)).Returns f news f') :
    news.length = vs.length := by
  induction vs generalizing f news with
  | nil =>
      obtain ⟨rfl, -⟩ := EditE.returns_pure.1 h
      rfl
  | cons v vs ih =>
      rw [List.mapM_cons] at h
      simp only [EditE.returns_bind, EditE.returns_pure] at h
      obtain ⟨new, f₁, -, news, f₂, hnews, rfl, rfl⟩ := h
      rw [List.length_cons, List.length_cons, ih hnews]

/-- Both expressions that an expression is taken apart into. -/
theorem definingExpr?_takenApart {e : ExprId} {x : Expr} {partials : List ValueId} {v : ValueId}
    (hv : f.HasValue v) :
    (v ∈ x.outputs →
      (takenApart f e x partials).definingExpr? v = some ⟨x.kind, partials, x.outputs⟩) ∧
    (v ∈ partials → v ∉ x.outputs →
      (takenApart f e x partials).definingExpr? v = some ⟨x.kind, x.inputs, partials⟩) := by
  constructor
  · intro hresult
    refine definingExpr?_pushExpr _ hresult ?_
    rwa [HasValue, size_pushExpr, size_removeExpr]
  · intro hpartial hother
    have hnew : (f.removeExpr e).HasValue v := by rwa [HasValue, size_removeExpr]
    rw [takenApart, definingExpr?, definition_pushExpr, if_neg fun h => hother h.1,
      definition_pushExpr, if_pos ⟨hpartial, hnew⟩, Option.map_some, Fusion.expr, expr?_pushExpr,
      if_neg (by rw [exprs_size_pushExpr]; exact Nat.ne_of_lt (Nat.lt_succ_self _)),
      expr?_pushExpr, if_pos rfl]
    rfl

/-- After an expression has been taken apart, a change of the view of one of its results reaches
all of them. -/
theorem view_of_takenApart {e : ExprId} {x : Expr} {partials : List ValueId}
    {g : TensorView → TensorView} {v : ValueId} (ht : f.isTensor tensor = true)
    (hmem : tensor ∈ x.outputs) (hv : v ∈ x.outputs) (htv : f.isTensor v = true) :
    (((takenApart f e x partials).modifyView tensor g).syncSiblings tensor).view v =
      g (f.view tensor) := by
  have hdef : (takenApart f e x partials).definingExpr? tensor =
      some ⟨x.kind, partials, x.outputs⟩ :=
    definingExpr?_pushExpr _ hmem (by
      rw [HasValue, size_pushExpr, size_removeExpr]
      exact hasValue_of_isTensor ht)
  have hreached : v = tensor ∨ v ∈ (takenApart f e x partials).siblings tensor := by
    by_cases hne : v = tensor
    · exact .inl hne
    · refine .inr (mem_siblings.2 ⟨_, hdef, hv, hne, ?_⟩)
      rwa [isTensor_takenApart]
  rw [view_modify_sync, if_pos hreached, isTensor_takenApart, if_pos ht, view_takenApart]

/-- Factoring a reduction makes the domains of both stages, and takes its expression apart. -/
theorem rfactor_takesApart {axes : List Int} (hf : Sound f)
    (h : (rfactor tensor axes).Returns f out f') :
    ∃ p d₁ f₁ d₂ f₂ x partials, f.definingExpr? tensor = some x ∧ tensor ∈ x.outputs ∧
      Factoring.plan f tensor axes = .ok p ∧ (p.partialDomain tensor).Returns f d₁ f₁ ∧
      (p.finalDomain tensor).Returns f₁ d₂ f₂ ∧ f'.axes = f₂.axes ∧
      f'.transforms = f₂.transforms ∧ Extends f₂ f' ∧ TakesApart f₂ x d₁ d₂ partials f' ∧
      out = partials.getD ((x.outputs.idxOf? tensor).getD 0) default := by
  obtain ⟨p, d₁, f₁, d₂, f₂, partials, f₃, ht, hplan, hpartial, hfinal, hpartials, rfl, rfl⟩ :=
    returns_rfactor h
  obtain ⟨hdef, hplanned⟩ := plan_planned hf hplan
  obtain ⟨h₁, hd₁⟩ := partialDomain_keeps hf hplanned hpartial
  obtain ⟨h₂, hd₂⟩ := finalDomain_keeps h₁.sound (hplanned.mono h₁.ext) hfinal
  have hext := (h₁.trans h₂).ext
  have hadds := (partialDomain_adding _ _ f f₁ hpartial.leaves).trans
    (finalDomain_adding _ _ f₁ f₂ hfinal.leaves)
  have hcomputes := ComputesTensors.ofDefinition hf ht hdef
  have h₃ := takenApart_keeps h₂.sound (hcomputes.mono hf hext)
    (fun a ha => h₂.ext.hasAxis (hd₁ a ha)) hpartials
  have h₄ := h₃.modify_sync (v := tensor) (g := fun x => { x with domain := d₂ })
    (fun a ha => h₃.ext.hasAxis (hd₂ a ha)) False.elim
  have hexpr : f.definingExpr? tensor = some (f₂.expr p.definition) ∧
      f₂.expr p.definition = f.expr p.definition ∧ tensor ∈ (f₂.expr p.definition).outputs := by
    obtain ⟨x, hx, hmem⟩ := hf.defined tensor p.definition hdef
    have hsame : f₂.expr p.definition = f.expr p.definition := by
      rw [Fusion.expr, hadds.expr? _ (index_lt_of_expr? hx), Fusion.expr]
    refine ⟨by rw [definingExpr?, hdef, Option.map_some, hsame], hsame, ?_⟩
    rw [hsame, Fusion.expr, hx]
    exact hmem
  obtain ⟨hexpr, hsame, htensor⟩ := hexpr
  have hresult : ∀ v ∈ (f₂.expr p.definition).outputs, f.isTensor v = true := by
    rw [hsame]
    exact fun v hv => isTensor_of_mem_outputs hcomputes.outputs hv
  have hnew := newTensors_new hpartials
  have hresult₃ : ∀ v ∈ (f₂.expr p.definition).outputs, f₃.isTensor v = true := by
    intro v hv
    have hhas := hasValue_of_isTensor (hresult v hv)
    rw [hnew.isTensor v (hext.hasValue hhas), hext.isTensor v hhas, hresult v hv]
  have hapart : ∀ v ∈ partials, v ∉ (f₂.expr p.definition).outputs := fun v hv hmem =>
    (hnew.new v hv).1 (hext.hasValue (hasValue_of_isTensor (hresult v hmem)))
  have hgraph := sameGraph_modify_sync
    (takenApart f₃ p.definition (f₂.expr p.definition) partials) tensor
    fun v => { v with domain := d₂ }
  -- only the results of the expression are siblings of the tensor
  have hothers : ∀ v, v ∉ (f₂.expr p.definition).outputs →
      (((takenApart f₃ p.definition (f₂.expr p.definition) partials).modifyView tensor
        fun v => { v with domain := d₂ }).syncSiblings tensor).view v = f₃.view v := by
    intro v hv
    rw [view_modify_sync, if_neg, view_takenApart]
    rintro (rfl | hmem)
    · exact hv htensor
    · obtain ⟨y, hy, hmem, -, -⟩ := mem_siblings.1 hmem
      rw [(definingExpr?_takenApart (hasValue_of_isTensor (hresult₃ tensor htensor))).1 htensor] at hy
      cases hy
      exact hv hmem
  refine ⟨p, d₁, f₁, d₂, f₂, _, partials, hexpr, htensor, hplan, hpartial, hfinal, ?_, ?_,
    h₄.ext, ⟨length_newTensors hpartials, fun v hv => (hnew.new v hv).1, ?_, ?_, ?_, ?_, ?_⟩, rfl⟩
  · exact hgraph.axes.trans ((axes_takenApart _ _ _ _).trans hnew.axes)
  · rw [hgraph.transforms, takenApart, transforms_pushExpr, transforms_pushExpr,
      transforms_removeExpr, hnew.transforms]
  · intro v hv
    rw [hothers v (hapart v hv), hnew.view, if_pos hv]
  · intro v hv
    rw [view_of_takenApart (hresult₃ tensor htensor) htensor hv (hresult₃ v hv)]
  · intro v hv hother
    rw [hothers v hother, hnew.view, if_neg hv]
  · intro v hv
    rw [hgraph.definingExpr?]
    exact (definingExpr?_takenApart (hnew.new v hv).2).2 hv (hapart v hv)
  · intro v hv
    rw [hgraph.definingExpr?]
    exact (definingExpr?_takenApart (hasValue_of_isTensor (hresult₃ v hv))).1 hv

/-- Factoring a reduction that only reductions lead to keeps what consumers see of the tensor and of
its siblings: as many axes, with the same kinds and extents position by position. -/
theorem rfactor_keeps_outline {calls : List Call} {axes : List Int}
    (hcalls : attemptAll calls {} = f) (h : (rfactor tensor axes).Returns f out f')
    (hplan : Factoring.plan f tensor axes = .ok p) (hunmixed : p.Unmixed f) :
    ∀ v, v = tensor ∨ v ∈ f.siblings tensor → f'.outline v = f.outline v := by
  have hf : Regular f := hcalls ▸ (attemptAll_freezes calls regular_empty).regular
  obtain ⟨q, d₁, f₁, d₂, f₂, x, partials, hexpr, htensor, hplan', hpartial, hfinal, haxes, -, -,
    hapart, -⟩ := rfactor_takesApart hf.sound h
  cases hplan.symm.trans hplan'
  obtain ⟨-, hplanned⟩ := plan_planned hf.sound hplan
  have houtline :=
    outline_finalDomain hf.sound (plan_splits hplan) hplanned hunmixed hpartial hfinal
  intro v hv
  -- the tensor and its siblings are the results of the expression that is taken apart
  have hresult : v ∈ x.outputs := by
    rcases hv with rfl | hv
    · exact htensor
    · obtain ⟨y, hy, hmem, -, -⟩ := mem_siblings.1 hv
      cases hexpr.symm.trans hy
      exact hmem
  have hbefore : f.outline v = f.outline tensor := by
    obtain ⟨e, he, hx⟩ := Option.map_eq_some_iff.1 hexpr
    obtain ⟨y, hy, hmem⟩ := hf.sound.defined tensor e he
    rw [Fusion.expr, hy] at hx
    cases hx
    rw [outline, shape, hf.shares hy htensor hresult, outline, shape]
  rw [hbefore, ← houtline, outline, shape, hapart.lasts v hresult]
  simp only [described, Fusion.axis, Fusion.extent, haxes]

/-- Mean, deviations and count of the rows of a matrix, in blocks of two. -/
def rowMoments : List Call :=
  [.tensor [4, 6] [true, true] .float, .input ⟨0⟩, .welford ⟨0⟩ [1], .output ⟨7⟩,
    .split ⟨7⟩ 1 (.const 2) true]

theorem rowMoments_keep_outline :
    ∃ f f', attemptAll rowMoments {} = f ∧ (rfactor ⟨7⟩ [2]).Returns f ⟨13⟩ f' ∧
      f.siblings ⟨7⟩ = [⟨8⟩, ⟨9⟩] ∧
      ∀ v, v = ⟨7⟩ ∨ v ∈ f.siblings ⟨7⟩ → f'.outline v = f.outline v := by
  have hrun : ((attemptAll rowMoments {}).siblings ⟨7⟩ == [⟨8⟩, ⟨9⟩] &&
      match Factoring.plan (attemptAll rowMoments {}) ⟨7⟩ [2],
        (rfactor ⟨7⟩ [2]).run.run (attemptAll rowMoments {}) with
      | .ok p, (.ok ⟨13⟩, f') => decide (p.Unmixed (attemptAll rowMoments {}))
      | _, _ => false) = true := by
    decide +kernel
  obtain ⟨hsiblings, h⟩ := Bool.and_eq_true_iff.1 hrun
  split at h
  case h_2 => cases h
  case h_1 p f' hplan hfactored =>
      exact ⟨_, f', rfl, hfactored, eq_of_beq hsiblings,
        rfactor_keeps_outline rfl hfactored hplan (of_decide_eq_true h)⟩

/-- A sum over the last two axes of a tensor whose first axis is a broadcast, which is then merged
with the axis before the last. -/
def mergedBroadcast : List Call :=
  [.tensor [1, 4, 5] [true, true, true] .float, .input ⟨0⟩, .reduce .add ⟨0⟩ [1, 2],
    .output ⟨10⟩, .merge ⟨10⟩ 0 1]

/-- Consumers see the broadcast before the reduction is factored, and nothing after. -/
theorem mergedBroadcast_loses_axis :
    ∃ f f', attemptAll mergedBroadcast {} = f ∧ (rfactor ⟨10⟩ [1]).Returns f ⟨13⟩ f' ∧
      (f.outline ⟨10⟩).length = 1 ∧ (f'.outline ⟨10⟩).length = 0 := by
  have hrun : (match (rfactor ⟨10⟩ [1]).run.run (attemptAll mergedBroadcast {}) with
      | (.ok ⟨13⟩, f') => decide (((attemptAll mergedBroadcast {}).outline ⟨10⟩).length = 1 ∧
          (f'.outline ⟨10⟩).length = 0)
      | _ => false) = true := by
    decide +kernel
  split at hrun
  case h_2 => cases hrun
  case h_1 f' hfactored =>
      obtain ⟨hbefore, hafter⟩ := of_decide_eq_true hrun
      exact ⟨_, f', rfl, hfactored, hbefore, hafter⟩

end Fusion
end FusionCompiler
