import FusionCompiler.Proofs.Fusion.Failing

/-!
# Steps that only append

Splits and merges append: the quotient or the product is a new scalar, the new
axes come behind the old ones, and so does the transform.  `Fusion.Appends` says
of two fusions that the later one is the earlier one with scalars, axes and
transforms behind it.  Of what there was, only scalars take notice, as operands of
the new scalars.

Main results:

- Theorem `Fusion.Appends.trans`: appending twice is appending.
- Theorems `Fusion.Appends.pushExpr` and `Fusion.Appends.pushTransform`: a scalar
  expression and a transform of new axes may be appended.
- Theorem `Build.binaryOp_appends`: an operator over scalars appends.
-/

namespace FusionCompiler
namespace Fusion

variable {f f' f₁ f₂ f₃ : Fusion} {v : ValueId} {a : AxisId}

/-- The later fusion is the earlier one with new scalars, axes and transforms.  Tensors, axes,
transforms and expressions are unchanged, and so are inputs, outputs and aliases; an old scalar
can only get further uses.  New expressions compute new scalars, and new transforms make new
axes. -/
structure Appends (f f' : Fusion) : Prop where
  values : f.values.size ≤ f'.values.size
  exprs : f.exprs.size ≤ f'.exprs.size
  axes : f.axes.size ≤ f'.axes.size
  transforms : f.transforms.size ≤ f'.transforms.size
  tensor : ∀ v, f.isTensor v = true → f'.value v = f.value v
  scalar : ∀ v, f.HasValue v →
    ∃ more, f'.value v = { f.value v with uses := f.uses v ++ more }
  fresh : ∀ v, ¬ f.HasValue v → f'.isTensor v = false
  expr? : ∀ e : ExprId, e.index < f.exprs.size → f'.expr? e = f.expr? e
  computes : ∀ e x, f.exprs.size ≤ e.index → f'.expr? e = some x →
    ∀ v ∈ x.outputs, f'.HasValue v ∧ ¬ f.HasValue v
  axis : ∀ a, f.HasAxis a → f'.axis a = f.axis a
  transform : ∀ t, f.HasTransform t → f'.transform t = f.transform t
  makes : ∀ t, ¬ f.HasTransform t → f'.HasTransform t →
    ∀ a ∈ (f'.transform t).outputs, ¬ f.HasAxis a
  inputs : f'.inputs = f.inputs
  outputs : f'.outputs = f.outputs
  aliases : f'.aliases = f.aliases

namespace Appends

/-- What there was is still there. -/
theorem hasValue (h : Appends f f') (hv : f.HasValue v) : f'.HasValue v :=
  Nat.lt_of_lt_of_le hv h.values

/-- Axes that there were are still there. -/
theorem hasAxis (h : Appends f f') (ha : f.HasAxis a) : f'.HasAxis a :=
  Nat.lt_of_lt_of_le ha h.axes

/-- Transforms that there were are still there. -/
theorem hasTransform (h : Appends f f') {t : TransformId} (ht : f.HasTransform t) :
    f'.HasTransform t :=
  Nat.lt_of_lt_of_le ht h.transforms

/-- No tensor is appended. -/
theorem isTensor (h : Appends f f') (v : ValueId) : f'.isTensor v = f.isTensor v := by
  by_cases hv : f.HasValue v
  · obtain ⟨more, hvalue⟩ := h.scalar v hv
    rw [Fusion.isTensor, hvalue, Fusion.isTensor]
    rfl
  · rw [h.fresh v hv, Fusion.isTensor, value_of_not_hasValue hv]
    rfl

/-- No view is changed. -/
theorem view (h : Appends f f') (v : ValueId) : f'.view v = f.view v := by
  by_cases hv : f.HasValue v
  · obtain ⟨more, hvalue⟩ := h.scalar v hv
    rw [Fusion.view, hvalue, Fusion.view]
    rfl
  · have hscalar := h.fresh v hv
    rw [view_of_not_hasValue hv, Fusion.view]
    rw [Fusion.isTensor, Value.isTensor, Option.isSome_eq_false_iff, Option.isNone_iff_eq_none]
      at hscalar
    rw [hscalar]
    rfl

/-- No definition is changed. -/
theorem definition (h : Appends f f') (hv : f.HasValue v) : f'.definition v = f.definition v := by
  obtain ⟨more, hvalue⟩ := h.scalar v hv
  rw [Fusion.definition, hvalue, Fusion.definition]

/-- Nothing is appended. -/
protected theorem refl (f : Fusion) : Appends f f := by
  refine ⟨Nat.le_refl _, Nat.le_refl _, Nat.le_refl _, Nat.le_refl _, fun _ _ => rfl,
    fun v _ => ⟨[], ?_⟩, fun v hv => ?_, fun _ _ => rfl, fun e x he hx => ?_, fun _ _ => rfl,
    fun _ _ => rfl, fun t hnot ht => absurd ht hnot, rfl, rfl, rfl⟩
  · rw [List.append_nil, Fusion.uses]
  · rw [Fusion.isTensor, value_of_not_hasValue hv]
    rfl
  · exact absurd (index_lt_of_expr? hx) (Nat.not_lt.2 he)

/-- Appending twice is appending. -/
protected theorem trans (h : Appends f₁ f₂) (h' : Appends f₂ f₃) : Appends f₁ f₃ where
  values := Nat.le_trans h.values h'.values
  exprs := Nat.le_trans h.exprs h'.exprs
  axes := Nat.le_trans h.axes h'.axes
  transforms := Nat.le_trans h.transforms h'.transforms
  tensor v hv := by
    rw [h'.tensor v ((h.isTensor v).trans hv), h.tensor v hv]
  scalar v hv := by
    obtain ⟨more, hmore⟩ := h.scalar v hv
    obtain ⟨more', hmore'⟩ := h'.scalar v (h.hasValue hv)
    refine ⟨more ++ more', ?_⟩
    rw [hmore', Fusion.uses, hmore, List.append_assoc]
  fresh v hv := by
    rw [h'.isTensor v, h.fresh v hv]
  expr? e he := by
    rw [h'.expr? e (Nat.lt_of_lt_of_le he h.exprs), h.expr? e he]
  computes e x he hx v hv := by
    by_cases he₂ : e.index < f₂.exprs.size
    · rw [h'.expr? e he₂] at hx
      obtain ⟨hhas, hnew⟩ := h.computes e x he hx v hv
      exact ⟨h'.hasValue hhas, hnew⟩
    · obtain ⟨hhas, hnew⟩ := h'.computes e x (Nat.not_lt.1 he₂) hx v hv
      exact ⟨hhas, fun hold => hnew (h.hasValue hold)⟩
  axis a ha := (h'.axis a (h.hasAxis ha)).trans (h.axis a ha)
  transform t ht := (h'.transform t (h.hasTransform ht)).trans (h.transform t ht)
  makes t hnot ht a ha hold := by
    by_cases ht₂ : f₂.HasTransform t
    · rw [h'.transform t ht₂] at ha
      exact h.makes t hnot ht₂ a ha hold
    · exact h'.makes t ht₂ ht a ha (h.hasAxis hold)
  inputs := h'.inputs.trans h.inputs
  outputs := h'.outputs.trans h.outputs
  aliases := h'.aliases.trans h.aliases

/-- What there was has its definition. -/
theorem definingExpr? (h : Appends f f') (hf : Sound f) (hv : f.HasValue v) :
    f'.definingExpr? v = f.definingExpr? v := by
  unfold Fusion.definingExpr?
  rw [h.definition hv]
  cases hdef : f.definition v with
  | none => rfl
  | some e =>
      obtain ⟨x, hx, -⟩ := hf.defined v e hdef
      rw [Option.map_some, Option.map_some, Fusion.expr, h.expr? e (index_lt_of_expr? hx),
        Fusion.expr]

/-! ### Values and expressions -/

/-- Changes of values leave the aliases alone. -/
theorem aliases_modifyValues (f : Fusion) (vs : List ValueId) (g : Value → Value) :
    (vs.foldl (fun f v => f.modifyValue v g) f).aliases = f.aliases := by
  induction vs generalizing f with
  | nil => rfl
  | cons v vs ih => exact ih _

/-- A new expression makes no alias. -/
theorem aliases_pushExpr (f : Fusion) (x : Expr) : (f.pushExpr x).aliases = f.aliases := by
  unfold Fusion.pushExpr
  simp only [aliases_modifyValues]

/-- Origins are no aliases. -/
theorem aliases_setOrigins (f : Fusion) (axes : List AxisId) (t : TransformId) :
    (f.setOrigins axes t).aliases = f.aliases := by
  unfold setOrigins
  induction axes generalizing f with
  | nil => rfl
  | cons a axes ih => exact ih _

/-- Steps that leave values and expressions alone and append among axes and transforms. -/
theorem ofNodes (h : Appends f f₁) (hvalues : f₂.values = f₁.values) (hexprs : f₂.exprs = f₁.exprs)
    (haxes : f₁.axes.size ≤ f₂.axes.size) (haxis : ∀ a, f.HasAxis a → f₂.axis a = f₁.axis a)
    (htransforms : f₁.transforms.size ≤ f₂.transforms.size)
    (htransform : ∀ t, f₁.HasTransform t → f₂.transform t = f₁.transform t)
    (hmakes : ∀ t, ¬ f₁.HasTransform t → f₂.HasTransform t →
      ∀ a ∈ (f₂.transform t).outputs, ¬ f.HasAxis a)
    (hinputs : f₂.inputs = f₁.inputs) (houtputs : f₂.outputs = f₁.outputs)
    (haliases : f₂.aliases = f₁.aliases) : Appends f f₂ := by
  have hvalue : ∀ v, f₂.value v = f₁.value v := fun v => by
    rw [Fusion.value, hvalues, Fusion.value]
  have hexpr : ∀ e, f₂.expr? e = f₁.expr? e := fun e => by rw [Fusion.expr?, hexprs, Fusion.expr?]
  refine ⟨hvalues ▸ h.values, hexprs ▸ h.exprs, Nat.le_trans h.axes haxes,
    Nat.le_trans h.transforms htransforms, fun v hv => (hvalue v).trans (h.tensor v hv),
    fun v hv => ?_, fun v hv => ?_, fun e he => (hexpr e).trans (h.expr? e he),
    fun e x he hx v hv => ?_, fun a ha => (haxis a ha).trans (h.axis a ha), fun t ht => ?_,
    fun t hnot ht a ha => ?_, hinputs.trans h.inputs, houtputs.trans h.outputs,
    haliases.trans h.aliases⟩
  · rw [hvalue]
    exact h.scalar v hv
  · rw [Fusion.isTensor, hvalue]
    exact h.fresh v hv
  · rw [hexpr] at hx
    rw [HasValue, hvalues]
    exact h.computes e x he hx v hv
  · rw [htransform t (h.hasTransform ht), h.transform t ht]
  · by_cases ht₁ : f₁.HasTransform t
    · rw [htransform t ht₁] at ha
      exact h.makes t hnot ht₁ a ha
    · exact hmakes t ht₁ ht a ha

/-- A new scalar. -/
theorem pushScalar (h : Appends f f₁) (t : DataType) (k : ScalarKind) :
    Appends f (f₁.pushValue t (.scalar k)) := by
  have hvalue : ∀ v, f.HasValue v → (f₁.pushValue t (.scalar k)).value v = f₁.value v :=
    fun v hv => value_pushValue_old (h.hasValue hv)
  have hsize : f₁.values.size ≤ (f₁.pushValue t (.scalar k)).values.size := by
    simp [Fusion.pushValue]
  refine { h with
    values := Nat.le_trans h.values hsize
    tensor := fun v hv => ?_
    scalar := fun v hv => ?_
    fresh := fun v hv => ?_
    computes := fun e x he hx v hv => ?_ }
  · rw [hvalue v (hasValue_of_isTensor hv), h.tensor v hv]
  · rw [hvalue v hv]
    exact h.scalar v hv
  · rw [Build.isTensor_pushScalar]
    exact h.fresh v hv
  · obtain ⟨hhas, hnew⟩ := h.computes e x he hx v hv
    exact ⟨Nat.lt_of_lt_of_le hhas hsize, hnew⟩

/-- An expression that computes new scalars from scalars. -/
theorem pushExpr (h : Appends f f₁) {x : Expr} (hin : ∀ v ∈ x.inputs, f₁.isTensor v = false)
    (hout : ∀ v ∈ x.outputs, f₁.HasValue v ∧ ¬ f.HasValue v) : Appends f (f₁.pushExpr x) := by
  have hold : ∀ v, f.HasValue v → (f₁.pushExpr x).value v =
      if v ∈ x.inputs then noteUse ⟨f₁.exprs.size⟩ (f₁.value v) else f₁.value v := by
    intro v hv
    rw [value_pushExpr]
    dsimp only
    rw [if_neg fun hmem => (hout v hmem.1).2 hv]
    simp only [h.hasValue hv, and_true]
  have haxis : (f₁.pushExpr x).axes = f₁.axes := axes_pushExpr f₁ x
  have htransforms : (f₁.pushExpr x).transforms = f₁.transforms := transforms_pushExpr f₁ x
  have htransform : ∀ t, (f₁.pushExpr x).transform t = f₁.transform t := fun t => by
    rw [Fusion.transform, htransforms, Fusion.transform]
  refine ⟨?_, ?_, haxis ▸ h.axes, htransforms ▸ h.transforms, fun v hv => ?_, fun v hv => ?_,
    fun v hv => ?_, fun e he => ?_, fun e y he hy v hv => ?_, fun a ha => ?_,
    fun t ht => (htransform t).trans (h.transform t ht), fun t hnot ht => ?_, ?_, ?_, ?_⟩
  · rw [size_pushExpr]
    exact h.values
  · rw [exprs_size_pushExpr]
    exact Nat.le_succ_of_le h.exprs
  · -- no tensor is an operand
    have hnot : v ∉ x.inputs := by
      intro hmem
      have hscalar := hin v hmem
      rw [h.isTensor v, hv] at hscalar
      cases hscalar
    rw [hold v (hasValue_of_isTensor hv), if_neg hnot]
    exact h.tensor v hv
  · obtain ⟨more, hmore⟩ := h.scalar v hv
    rw [hold v hv]
    split
    · unfold noteUse
      split
      · exact ⟨more, hmore⟩
      · exact ⟨more ++ [⟨f₁.exprs.size⟩], by simp [hmore]⟩
    · exact ⟨more, hmore⟩
  · rw [isTensor_pushExpr]
    exact h.fresh v hv
  · rw [expr?_pushExpr, if_neg (Nat.ne_of_lt (Nat.lt_of_lt_of_le he h.exprs))]
    exact h.expr? e he
  · rw [HasValue, size_pushExpr]
    rw [expr?_pushExpr] at hy
    split at hy
    · cases hy
      exact hout v hv
    · exact h.computes e y he hy v hv
  · rw [Fusion.axis, haxis]
    exact h.axis a ha
  · rw [htransform]
    refine h.makes t hnot ?_
    rwa [HasTransform, htransforms] at ht
  · rw [inputs_pushExpr]
    exact h.inputs
  · rw [outputs_pushExpr]
    exact h.outputs
  · rw [aliases_pushExpr]
    exact h.aliases

/-! ### Axes and transforms -/

/-- A new axis is appended. -/
theorem pushAxis (h : Appends f f₁) (x : Axis) : Appends f (f₁.pushAxis x) :=
  h.ofNodes rfl rfl (by simp) (fun _ ha => axis_pushAxis_old (h.hasAxis ha)) (Nat.le_refl _)
    (fun _ _ => rfl) (fun _ hnot ht => absurd ht hnot) rfl rfl rfl

/-- A change of an axis that is new, or that is none. -/
theorem modifyAxis (h : Appends f f₁) {g : Axis → Axis}
    (hg : f.HasAxis a → g (f₁.axis a) = f₁.axis a) : Appends f (f₁.modifyAxis a g) := by
  refine h.ofNodes rfl rfl (by simp) (fun b hb => ?_) (Nat.le_refl _) (fun _ _ => rfl)
    (fun _ hnot ht => absurd ht hnot) rfl rfl rfl
  rw [axis_modifyAxis]
  split
  case isTrue heq =>
      rw [heq.1] at hb ⊢
      exact hg hb
  case isFalse => rfl

/-- A transform that makes new axes. -/
theorem pushTransform (h : Appends f f₁) {x : Transform} (hnew : ∀ a ∈ x.outputs, ¬ f.HasAxis a) :
    Appends f (f₁.pushTransform x) := by
  have hsame := sameExtents_setOrigins f₁ x.outputs ⟨f₁.transforms.size⟩
  have hsize : (f₁.pushTransform x).axes.size = f₁.axes.size := hsame.size
  have hpush := transforms_pushTransform f₁ x
  refine h.ofNodes hsame.values hsame.exprs (Nat.le_of_eq hsize.symm) (fun a ha => ?_) ?_
    (fun t ht => ?_) (fun t hnot ht a ha => ?_) hsame.inputs hsame.outputs ?_
  · exact axis_setOrigins_of_not_mem fun hmem => hnew a hmem ha
  · rw [hpush]
    simp
  · exact (extends_pushTransform f₁ x).transform t ht
  · -- the only new transform is the last one
    rw [HasTransform, hpush, Array.size_push] at ht
    have hlast : t.index = f₁.transforms.size := by
      have := Nat.not_lt.1 hnot
      omega
    rw [transform_pushTransform, if_pos hlast] at ha
    exact hnew a ha
  · exact aliases_setOrigins f₁ x.outputs _

end Appends
end Fusion

open Fusion

namespace Build

variable {f f' : Fusion}

/-- Literals of operands are appended. -/
theorem AddsLiterals.appends (h : AddsLiterals f f') : Appends f f' := by
  induction h with
  | refl => exact .refl f
  | push _ hc ih =>
      obtain ⟨-, rfl⟩ := Edit.gives_newValue.1 hc
      exact ih.pushScalar _ _

/-- An operator over scalars appends a literal, or a scalar with the expression that computes it. -/
theorem binaryOp_appends {op : BinaryOp} {x y z : ValueId} (hx : f.isTensor x = false)
    (hy : f.isTensor y = false) (h : (binaryOp op (.value x) (.value y)).Returns f z f') :
    Appends f f' := by
  unfold binaryOp resolve at h
  simp only [EditE.returns_bind, EditE.returns_lift, Edit.gives_pure, EditE.returns_get] at h
  obtain ⟨a, f₁, ⟨rfl, rfl⟩, b, f₂, ⟨rfl, rfl⟩, f₀, f₃, ⟨rfl, rfl⟩, h⟩ := h
  have hs : ∀ v ∈ [x, y], f.isTensor v = false := by
    intro v hv
    simp only [List.mem_cons, List.not_mem_nil, or_false] at hv
    rcases hv with rfl | rfl
    · exact hx
    · exact hy
  split at h
  · simp at h
  · split at h
    · obtain ⟨-, rfl⟩ := Edit.gives_newValue.1 (EditE.returns_lift.1 h)
      exact (Appends.refl f).pushScalar _ _
    · obtain ⟨rfl, rfl⟩ := elementwise_scalar hs h
      refine ((Appends.refl f).pushScalar _ _).pushExpr (fun v hv => ?_) fun v hv => ?_
      · rw [isTensor_pushScalar]
        exact hs v hv
      · rw [List.mem_singleton.1 hv]
        simp [HasValue, pushValue]

end Build
end FusionCompiler
