import FusionCompiler.Fusion.Build
import FusionCompiler.Proofs.Fusion.Building

/-!
# Building operations

Every operation that builds a fusion, from the declaration of a tensor to the
moments of a reduction, is a building step in the sense of `Fusion.Builds`,
whatever its operands are.

Main results:

- Theorem `Build.elementwise_builds`: an element-wise operation is a building
  step.
- Theorem `Build.welford_builds`: the three results of a reduction to moments are
  made by one building step.
- Theorem `Build.binaryOp_isResult`: an operator over two integer scalars makes
  a scalar that records its value and adds no axis.
-/

namespace FusionCompiler

open Fusion

namespace Build

variable {f f' : Fusion}

/-! ## Tensors -/

/-- A fresh size or literal is an integer scalar. -/
theorem integerScalar_pushValue {t : DataType} {k : ScalarKind} (ht : t.isInt = true) :
    (f.pushValue t (.scalar k)).IntegerScalar ⟨f.values.size⟩ where
  has := by simp [HasValue, pushValue]
  scalar := by simp [isTensor, value_pushValue, Value.isTensor, Value.view?]
  integer := by simpa [dtype, value_pushValue] using ht

/-- The axes of an input tensor are new and plain. -/
theorem declareAxes_makes {tensor : ValueId} {plain : Prop} (hf : Sound f) {dim : Nat}
    {sizes : List Int} {as : List AxisId}
    (h : Edit.Gives (declareAxes tensor dim sizes) f as f') : MakesAxes plain f as f' := by
  induction sizes generalizing f dim as with
  | nil =>
      obtain ⟨rfl, rfl⟩ := Edit.gives_pure.1 h
      exact .nil
  | cons size sizes ih =>
      -- every branch makes the extent `k`, then the axis, then the remaining axes
      have hstep : ∀ {k : ScalarKind} {kind : AxisKind} {v : ValueId} {f₁ : Fusion},
          (∀ c, k = .const c → ∃ n, c = .int n ∧ (kind = .broadcast → n = 1)) →
          (k = .symbolic → False) → (kind = .broadcast → ∃ c, k = .const c) →
          Edit.Gives (Edit.newValue .int64 (.scalar k)) f v f₁ →
          Edit.Gives (do
            let axis ← Edit.newAxis v kind
            return axis :: (← declareAxes tensor (dim + 1) sizes)) f₁ as f' →
          MakesAxes plain f as f' := by
        intro k kind v f₁ hk hsym hbroadcast hv hrest
        obtain ⟨rfl, rfl⟩ := Edit.gives_newValue.1 hv
        have hb₁ : Builds f (f.pushValue .int64 (.scalar k)) := by
          refine Builds.pushScalar hf fun c hc _ => ?_
          obtain ⟨n, hn, -⟩ := hk c hc
          exact ⟨n, hn⟩
        obtain ⟨a, f₂, ha, hrest⟩ := Edit.gives_bind.1 hrest
        obtain ⟨as, f₃, has, hpure⟩ := Edit.gives_bind.1 hrest
        obtain ⟨rfl, rfl⟩ := Edit.gives_pure.1 hpure
        obtain ⟨hb₂, hnew, hhas, hextent, hkind⟩ :=
          Edit.newAxis_builds hb₁.sound (integerScalar_pushValue rfl) ha
        have hint : (f.pushValue .int64 (.scalar k)).IntegerScalar ⟨f.values.size⟩ :=
          integerScalar_pushValue rfl
        have hvalue : (f₂.value ⟨f.values.size⟩).kind = .scalar k := by
          rw [hb₂.ext.kind _ hint.has hint.scalar, value_pushValue, if_pos rfl]
        refine .cons (hb₁.trans hb₂) (fun h => hnew (hb₁.ext.hasAxis h)) hhas (fun _ => ?_)
          (ih hb₂.sound has)
        cases k with
        | symbolic => exact (hsym rfl).elim
        | const c =>
            obtain ⟨n, rfl, hone⟩ := hk c rfl
            refine .literal n ?_ fun h => hone ?_
            · rw [hextent, const?, Value.const?, hvalue]
            · rw [← hkind]
              simpa [Axis.isBroadcast] using h
        | tensorSize t d =>
            refine .size t d ?_ ?_ ?_
            · rw [hextent, hvalue]
            · rw [hextent, hb₂.ext.definingExpr _ hint.has hint.scalar, definingExpr?,
                Fusion.definition, value_pushValue, if_pos rfl]
              rfl
            · rw [Axis.isBroadcast, hkind]
              by_contra h
              obtain ⟨c, hc⟩ := hbroadcast (by simpa using h)
              cases hc
      unfold declareAxes at h
      dsimp only at h
      split at h
      · obtain ⟨v, f₁, hv, hrest⟩ := Edit.gives_bind.1 h
        exact hstep (by simp) (by simp) (by simp) hv hrest
      · split at h
        · obtain ⟨v, f₁, hv, hrest⟩ := Edit.gives_bind.1 h
          exact hstep (by simp) (by simp) (by simp) hv hrest
        · obtain ⟨v, f₁, hv, hrest⟩ := Edit.gives_bind.1 h
          exact hstep (by simp) (by simp) (by simp) hv hrest

/-- Declaring a tensor is a building step. -/
theorem declareTensor_builds (hf : Sound f) {sizes : List Int} {contiguity : List Bool}
    {t : DataType} {v : ValueId} (h : Edit.Gives (declareTensor sizes contiguity t) f v f') :
    Builds f f' := by
  obtain ⟨tensor, f₁, htensor, h⟩ := Edit.gives_bind.1 h
  obtain ⟨root, f₂, hroot, h⟩ := Edit.gives_bind.1 h
  obtain ⟨u, f₃, hmodify, h⟩ := Edit.gives_bind.1 h
  obtain ⟨rfl, rfl⟩ := Edit.gives_pure.1 h
  obtain rfl := Edit.gives_modify.1 hmodify
  obtain ⟨rfl, rfl⟩ := Edit.gives_newValue.1 htensor
  have hb₁ : Builds f (f.pushValue t (.tensor { domain := .contiguous [] })) :=
    (Builds.refl hf).pushTensor List.nodup_nil (by simp) (by simp)
  have hmakes : MakesAxes (Plain f) _ root f₂ := declareAxes_makes hb₁.sound hroot
  have hb₂ := hmakes.builds hb₁.sound
  have hnew := hmakes.new hb₁.sound
  have hnot : ¬ f.HasValue ⟨f.values.size⟩ := Nat.lt_irrefl _
  have hhas : (f.pushValue t (.tensor { domain := .contiguous [] })).HasValue ⟨f.values.size⟩ := by
    simp [HasValue, pushValue]
  have hold : f₂.view ⟨f.values.size⟩ = { domain := .contiguous [] } := by
    rw [hb₂.view _ hhas, Fusion.view, value_pushValue, if_pos rfl]
    rfl
  -- only the new tensor has another view afterwards
  have hview : ∀ w, ((f₂.modifyView ⟨f.values.size⟩ fun x =>
      { x with domain := .ofRoot root contiguity }).view w) =
        if w = ⟨f.values.size⟩ then { domain := .ofRoot root contiguity } else f₂.view w := by
    intro w
    have htensor : f₂.isTensor ⟨f.values.size⟩ = true := by
      rw [hb₂.ext.isTensor _ hhas, isTensor, value_pushValue, if_pos rfl]
      rfl
    rw [view_modifyView, hold]
    by_cases hw : w = ⟨f.values.size⟩ <;> simp [hw, htensor]
  have hb := hb₁.trans hb₂
  have hsame := SameGraph.modifyView f₂ ⟨f.values.size⟩ fun x =>
    { x with domain := .ofRoot root contiguity }
  obtain ⟨hsound, hext⟩ := hb₂.sound.sameGraph hsame fun w a ha => by
    rw [hview] at ha
    split at ha
    · refine (hnew a ?_).2.1
      simpa [TensorDomain.listed, TensorDomain.logical, TensorDomain.ofRoot] using ha
    · exact hb₂.sound.domains w a ha
  refine ⟨hsound, hb.ext.trans hext, hb.transforms, hb.axis, ?_, ?_, ?_,
    fun hw => (hb.wired hw).sameFlow (.modifyView f₂ _ _) hext⟩
  · intro w hw
    rw [hview, if_neg]
    · exact hb.view w hw
    · rintro rfl
      exact hnot hw
  · intro w hw
    rw [hview]
    split
    · exact Unscheduled.ofRoot (hmakes.nodup hb₁.sound) contiguity
    · exact hb.fresh w hw
  · intro hp
    refine Builds.plain_of_kept hb₂.sound hext (fun _ _ => rfl) (fun w => ?_) (hb.plain hp)
    rw [hview]
    split
    · refine .inr ⟨Unscheduled.ofRoot (hmakes.nodup hb₁.sound) contiguity, fun a ha _ => ?_⟩
      exact ((hnew a ha).2.2 hp).mono hb₂.sound (hnew a ha).2.1 hext rfl
    · exact .inl rfl

/-! ## Element-wise operations -/

/-- An axis over the extent of an axis that is there. -/
theorem copyExtent_makes {plain : Prop} {kind : AxisKind} {a b : AxisId} {as : List AxisId}
    {f₁ : Fusion} (hf : Sound f) (hb : f.HasAxis b) (hplain : plain → f.PlainAxis b)
    (hkind : kind = .broadcast → (f.axis b).isBroadcast = true)
    (h : Edit.Gives (Edit.newAxis (f.extent b) kind) f a f₁)
    (hrest : Builds f f₁ → MakesAxes plain f₁ as f') : MakesAxes plain f (a :: as) f' := by
  obtain ⟨hstep, hnew, hhas, hextent, hk⟩ := Edit.newAxis_builds hf (hf.extents b hb) h
  refine .cons hstep hnew hhas (fun hp => ?_) (hrest hstep)
  refine (hplain hp).copied hf hb hstep.ext hextent fun hbroadcast => hkind ?_
  rw [← hk]
  simpa [Axis.isBroadcast] using hbroadcast

/-- The axes of an element-wise result are new, and plain if those of the operands are. -/
theorem elementwiseAxes_makes {plain : Prop} (hf : Sound f) {columns : List (List AxisId)}
    {as : List AxisId}
    (hcolumns : ∀ column ∈ columns, column ≠ [] ∧
      ∀ a ∈ column, f.HasAxis a ∧ (plain → f.PlainAxis a))
    (h : Edit.Gives (elementwiseAxes columns) f as f') : MakesAxes plain f as f' := by
  induction columns generalizing f as with
  | nil =>
      obtain ⟨rfl, rfl⟩ := Edit.gives_pure.1 h
      exact .nil
  | cons column columns ih =>
      obtain ⟨hne, hcolumn⟩ := hcolumns column List.mem_cons_self
      have hrest : ∀ {f₁ : Fusion} {as : List AxisId},
          Edit.Gives (elementwiseAxes columns) f₁ as f' → Builds f f₁ →
          MakesAxes plain f₁ as f' := by
        intro f₁ as has hb
        refine ih hb.sound (fun c hc => ?_) has
        obtain ⟨hne, hc⟩ := hcolumns c (List.mem_cons_of_mem column hc)
        refine ⟨hne, fun a ha => ⟨hb.ext.hasAxis (hc a ha).1, fun hp => ?_⟩⟩
        exact ((hc a ha).2 hp).mono hf (hc a ha).1 hb.ext (hb.axis a (hc a ha).1)
      unfold elementwiseAxes at h
      obtain ⟨f₀, f₁, hget, h⟩ := Edit.gives_bind.1 h
      obtain ⟨rfl, rfl⟩ := Edit.gives_get.1 hget
      dsimp only at h
      split at h
      case h_1 b hb =>
          obtain ⟨a, f₂, ha, h⟩ := Edit.gives_bind.1 h
          obtain ⟨as, f₃, has, h⟩ := Edit.gives_bind.1 h
          obtain ⟨rfl, rfl⟩ := Edit.gives_pure.1 h
          have hmem := List.mem_of_find?_eq_some hb
          exact copyExtent_makes hf (hcolumn b hmem).1 (hcolumn b hmem).2 (by simp) ha (hrest has)
      case h_2 hb =>
          obtain ⟨a, f₂, ha, h⟩ := Edit.gives_bind.1 h
          obtain ⟨as, f₃, has, h⟩ := Edit.gives_bind.1 h
          obtain ⟨rfl, rfl⟩ := Edit.gives_pure.1 h
          obtain ⟨b, rest, rfl⟩ := List.exists_cons_of_ne_nil hne
          refine copyExtent_makes hf (hcolumn b List.mem_cons_self).1
            (hcolumn b List.mem_cons_self).2 (fun _ => ?_) ha (hrest has)
          simpa using List.find?_eq_none.1 hb b List.mem_cons_self

/-- Operands that are all scalars make a scalar, defined by the expression. -/
theorem elementwise_scalar {kind : ExprKind} {operands : List ValueId} {t : DataType}
    {out : ValueId} (hs : ∀ v ∈ operands, f.isTensor v = false)
    (h : (elementwise kind operands t).Returns f out f') :
    out = ⟨f.values.size⟩ ∧
      f' = (f.pushValue t (.scalar .symbolic)).pushExpr ⟨kind, operands, [out]⟩ := by
  unfold elementwise at h
  obtain ⟨f₀, f₁, hget, h⟩ := EditE.returns_bind.1 h
  obtain ⟨rfl, rfl⟩ := EditE.returns_get.1 hget
  have hnone : operands.filter f.isTensor = [] := by
    rw [List.filter_eq_nil_iff]
    intro v hv
    simp [hs v hv]
  dsimp only at h
  rw [hnone] at h
  simp only [EditE.returns_bind, EditE.returns_lift, EditE.returns_discard, EditE.returns_pure,
    Edit.newScalar, Edit.gives_newValue, Edit.gives_addExpr] at h
  obtain ⟨v, f₁, ⟨rfl, rfl⟩, -, f₂, ⟨e, -, rfl⟩, rfl, rfl⟩ := h
  exact ⟨rfl, rfl⟩

/-- The columns of shapes of one rank hold axes of the shapes. -/
theorem mem_columns {shapes : List (List AxisId)} {column : List AxisId}
    (hrank : ∀ s ∈ shapes, s.length = (shapes.headD []).length) (h : column ∈ columns shapes) :
    column.length = shapes.length ∧ ∀ a ∈ column, ∃ s ∈ shapes, a ∈ s := by
  obtain ⟨d, hd, rfl⟩ := List.mem_map.1 h
  refine ⟨by simp, fun a ha => ?_⟩
  obtain ⟨s, hs, rfl⟩ := List.mem_map.1 ha
  have hlt : d < s.length := by
    rw [hrank s hs]
    exact List.mem_range.1 hd
  refine ⟨s, hs, ?_⟩
  rw [List.getD_eq_getElem?_getD, List.getElem?_eq_getElem hlt]
  exact List.getElem_mem hlt

/-- The axes of a shape are axes of the fusion. -/
theorem hasAxis_of_mem_shape (hf : Sound f) {v : ValueId} {a : AxisId} (ha : a ∈ f.shape v) :
    f.HasAxis a := by
  refine hf.domains v a ?_
  simp [TensorDomain.listed, (List.mem_filter.1 ha).1]

/-- Without factored shapes, the axes of a shape are root axes. -/
theorem plainAxis_of_mem_shape (hp : Plain f) {v : ValueId} {a : AxisId} (ha : a ∈ f.shape v) :
    f.PlainAxis a := by
  have hmem := (List.mem_filter.1 ha).1
  rw [TensorDomain.logical, hp.rfactor v] at hmem
  exact hp.root v a hmem

/-- Making a tensor over new axes, defined by an expression. -/
theorem tensorResult_builds {root : List AxisId} {f₁ : Fusion} {t : DataType} {kind : ExprKind}
    {operands : List ValueId} (hf : Sound f) (hmakes : MakesAxes (Plain f) f root f₁)
    (hops : ∀ v ∈ operands, f.HasValue v) :
    Builds f ((f₁.pushValue t (.tensor { domain := .contiguous root })).pushExpr
      ⟨kind, operands, [⟨f₁.values.size⟩]⟩) := by
  have hb : Builds f (f₁.pushValue t (.tensor { domain := .contiguous root })) :=
    hmakes.pushTensor hf
  have hout : ∀ v ∈ [(⟨f₁.values.size⟩ : ValueId)],
      (f₁.pushValue t (.tensor { domain := .contiguous root })).isTensor v = true := by
    intro v hv
    rw [List.mem_singleton.1 hv]
    simp [isTensor, value_pushValue, Value.isTensor, Value.view?]
  refine hb.pushExpr hf (.inr hout) ⟨?_, ?_, .inl hout⟩ (fun v hv _ => hout v hv) ?_
  · exact fun v hv => hb.ext.hasValue (hops v hv)
  · exact fun v hv => hasValue_of_isTensor (hout v hv)
  · intro hw v hv
    have hb₁ := hmakes.builds hf
    rw [List.mem_singleton.1 hv]
    refine ⟨(hb₁.wired hw).unlinked_pushValue t _, fun hmem => ?_⟩
    exact Nat.lt_irrefl _ (hb₁.ext.hasValue (hops _ hmem))

/-- Operands with a tensor among them make a tensor, defined by the expression, with one new axis for
each column of their axes. -/
theorem elementwise_columns {kind : ExprKind} {operands : List ValueId} {t : DataType}
    {out : ValueId} (hs : ¬ ∀ v ∈ operands, f.isTensor v = false)
    (h : (elementwise kind operands t).Returns f out f') :
    ∃ cols root f₁, (∀ column ∈ cols, column ≠ [] ∧
        ∀ a ∈ column, ∃ v ∈ operands, f.isTensor v = true ∧ a ∈ f.shape v) ∧
      Edit.Gives (elementwiseAxes cols) f root f₁ ∧ out = ⟨f₁.values.size⟩ ∧
      f' = (f₁.pushValue t (.tensor { domain := .contiguous root })).pushExpr
        ⟨kind, operands, [out]⟩ := by
  unfold elementwise at h
  obtain ⟨f₀, f₁, hget, h⟩ := EditE.returns_bind.1 h
  obtain ⟨rfl, rfl⟩ := EditE.returns_get.1 hget
  dsimp only at h
  split at h
  case h_1 hnil =>
      refine (hs fun v hv => ?_).elim
      have hfilter := List.filter_eq_nil_iff.1 hnil v hv
      simpa using hfilter
  case h_2 first others hcons =>
      split at h
      · simp at h
      case h_2 hrank =>
          simp only [EditE.returns_bind, EditE.returns_lift, EditE.returns_discard,
            EditE.returns_pure, Edit.newTensor, Edit.gives_newValue, Edit.gives_addExpr] at h
          obtain ⟨root, f₁, hroot, v, f₂, ⟨rfl, rfl⟩, -, f₃, ⟨e, -, rfl⟩, rfl, rfl⟩ := h
          have hranks : ∀ s ∈ (operands.filter f.isTensor).map f.shape,
              s.length = (((operands.filter f.isTensor).map f.shape).headD []).length := by
            intro s hs
            obtain ⟨v, hv, rfl⟩ := List.mem_map.1 hs
            rw [hcons] at hv ⊢
            rcases List.mem_cons.1 hv with rfl | hv
            · rfl
            · have hother := List.find?_eq_none.1 hrank v hv
              simpa using hother
          refine ⟨_, root, f₁, fun column hcolumn => ?_, hroot, rfl, rfl⟩
          obtain ⟨hlength, hmem⟩ := mem_columns hranks hcolumn
          refine ⟨?_, fun a ha => ?_⟩
          · rintro rfl
            rw [hcons] at hlength
            simp at hlength
          · obtain ⟨s, hs, has⟩ := hmem a ha
            obtain ⟨v, hv, rfl⟩ := List.mem_map.1 hs
            obtain ⟨hv, ht⟩ := List.mem_filter.1 hv
            exact ⟨v, hv, ht, has⟩

/-- Operands with a tensor among them make a tensor over new axes, defined by the expression. -/
theorem elementwise_tensor {kind : ExprKind} {operands : List ValueId} {t : DataType}
    {out : ValueId} (hf : Sound f) (hs : ¬ ∀ v ∈ operands, f.isTensor v = false)
    (h : (elementwise kind operands t).Returns f out f') :
    ∃ root f₁, MakesAxes (Plain f) f root f₁ ∧ out = ⟨f₁.values.size⟩ ∧
      f' = (f₁.pushValue t (.tensor { domain := .contiguous root })).pushExpr
        ⟨kind, operands, [out]⟩ := by
  obtain ⟨cols, root, f₁, hcols, hroot, hout, hresult⟩ := elementwise_columns hs h
  refine ⟨root, f₁, elementwiseAxes_makes hf (fun column hcolumn => ?_) hroot, hout, hresult⟩
  obtain ⟨hne, hmem⟩ := hcols column hcolumn
  refine ⟨hne, fun a ha => ?_⟩
  obtain ⟨v, -, -, has⟩ := hmem a ha
  exact ⟨hasAxis_of_mem_shape hf has, fun hp => plainAxis_of_mem_shape hp has⟩

/-- An element-wise operation is a building step. -/
theorem elementwise_builds {kind : ExprKind} {operands : List ValueId} {t : DataType}
    {out : ValueId} (hf : Sound f) (hops : ∀ v ∈ operands, f.HasValue v) (hne : operands ≠ [])
    (h : (elementwise kind operands t).Returns f out f') : Builds f f' := by
  by_cases hs : ∀ v ∈ operands, f.isTensor v = false
  · obtain ⟨rfl, rfl⟩ := elementwise_scalar hs h
    have hb : Builds f (f.pushValue t (.scalar .symbolic)) :=
      Builds.pushScalar hf fun c hc _ => by cases hc
    have hscalar : (f.pushValue t (.scalar .symbolic)).isTensor ⟨f.values.size⟩ = false := by
      simp [isTensor, value_pushValue, Value.isTensor, Value.view?]
    refine hb.pushExpr hf (.inl rfl) ⟨?_, ?_, .inr ⟨⟨f.values.size⟩, rfl, hscalar, hne, ?_⟩⟩ ?_ ?_
    · exact fun v hv => hb.ext.hasValue (hops v hv)
    · intro v hv
      rw [List.mem_singleton.1 hv]
      simp [HasValue, pushValue]
    · intro u hu
      refine ⟨?_, hops u hu⟩
      rw [hb.ext.isTensor u (hops u hu)]
      exact hs u hu
    · intro v hv hhas
      rw [List.mem_singleton.1 hv] at hhas
      exact absurd hhas (Nat.lt_irrefl _)
    · intro hw v hv
      rw [List.mem_singleton.1 hv]
      exact ⟨hw.unlinked_pushValue t _, fun hmem => Nat.lt_irrefl _ (hops _ hmem)⟩
  · obtain ⟨root, f₁, hmakes, rfl, rfl⟩ := elementwise_tensor hf hs h
    exact tensorResult_builds hf hmakes hops

/-- The operand names nothing that the fusion does not have. -/
def Known (f : Fusion) : Operand → Prop
  | .value v => f.HasValue v
  | .literal _ => True

instance (f : Fusion) (x : Operand) : Decidable (Known f x) :=
  match x with
  | .value v => inferInstanceAs (Decidable (f.HasValue v))
  | .literal _ => inferInstanceAs (Decidable True)

/-- Operands stay known. -/
theorem Known.mono {x : Operand} (hx : Known f x) (h : Extends f f') : Known f' x := by
  cases x with
  | value v => exact h.hasValue hx
  | literal c => trivial

/-- A literal operand becomes a new scalar, which the fusion has then. -/
theorem resolve_builds (hf : Sound f) {x : Operand} {v : ValueId} (hx : Known f x)
    (h : Edit.Gives (resolve x) f v f') : Builds f f' ∧ f'.HasValue v := by
  cases x with
  | value w =>
      obtain ⟨rfl, rfl⟩ := Edit.gives_pure.1 h
      exact ⟨Builds.refl hf, hx⟩
  | literal c =>
      refine ⟨Edit.newConst_builds hf h, ?_⟩
      obtain ⟨rfl, rfl⟩ := Edit.gives_newValue.1 h
      simp [HasValue, pushValue]

/-- A conversion to an integer type gives an integer. -/
theorem cast_int {t : DataType} (ht : t.isInt = true) (c : Constant) :
    ∃ n, c.cast t = .int n := by
  cases t <;> cases ht <;> cases c <;> exact ⟨_, rfl⟩

/-- A literal of a chosen type is a new scalar. -/
theorem newConstTyped_builds (hf : Sound f) {c : Constant} {t : DataType} {v : ValueId}
    (h : Edit.Gives (Edit.newConstTyped c t) f v f') : Builds f f' := by
  obtain ⟨rfl, rfl⟩ := Edit.gives_newValue.1 h
  refine Builds.pushScalar hf fun c' hc ht => ?_
  cases hc
  exact cast_int ht c

section Operations

variable {x y z : Operand} {out : ValueId}

/-- A unary operation is a building step. -/
theorem unaryOp_builds {op : UnaryOp} (hf : Sound f) (hx : Known f x)
    (h : (unaryOp op x).Returns f out f') : Builds f f' := by
  unfold unaryOp at h
  obtain ⟨v, f₁, hv, h⟩ := EditE.returns_bind.1 h
  obtain ⟨hb, hhas⟩ := resolve_builds hf hx (EditE.returns_lift.1 hv)
  obtain ⟨f₀, f₂, hget, h⟩ := EditE.returns_bind.1 h
  obtain ⟨rfl, rfl⟩ := EditE.returns_get.1 hget
  dsimp only at h
  split at h
  · simp at h
  · split at h
    · exact hb.trans (newConstTyped_builds hb.sound (EditE.returns_lift.1 h))
    · exact hb.trans (elementwise_builds hb.sound (by simpa using hhas) (by simp) h)

/-- A copy is a building step. -/
theorem copy_builds (hf : Sound f) (hx : Known f x) (h : (copy x).Returns f out f') :
    Builds f f' := by
  unfold copy at h
  obtain ⟨v, f₁, hv, h⟩ := EditE.returns_bind.1 h
  obtain ⟨hb, hhas⟩ := resolve_builds hf hx (EditE.returns_lift.1 hv)
  obtain ⟨f₀, f₂, hget, h⟩ := EditE.returns_bind.1 h
  obtain ⟨rfl, rfl⟩ := EditE.returns_get.1 hget
  exact hb.trans (elementwise_builds hb.sound (by simpa using hhas) (by simp) h)

/-- A copy of a tensor is a tensor, computed by one expression and read by none. -/
theorem copy_tensor {v : ValueId} (hf : Sound f) (hv : f.isTensor v = true)
    (h : (copy (.value v)).Returns f out f') :
    f'.isTensor out = true ∧ ¬ f.HasValue out ∧ (Wired f → f'.uses out = []) ∧
      ∃ e, f'.expr? e = some ⟨.unary .set, [v], [out]⟩ := by
  unfold copy resolve at h
  simp only [EditE.returns_bind, EditE.returns_lift, Edit.gives_pure, EditE.returns_get] at h
  obtain ⟨_, f₁, ⟨rfl, rfl⟩, f₀, f₂, ⟨rfl, rfl⟩, h⟩ := h
  obtain ⟨root, f₁, hmakes, rfl, rfl⟩ := elementwise_tensor hf (by simp [hv]) h
  have hb := hmakes.builds hf
  refine ⟨?_, fun h => Nat.lt_irrefl _ (hb.ext.hasValue h), fun hw => ?_, ⟨f₁.exprs.size⟩,
    by simp [expr?_pushExpr, pushValue]⟩
  · rw [isTensor_pushExpr]
    simp [isTensor, value_pushValue, Value.isTensor, Value.view?]
  · have hunlinked := (hb.wired hw).unlinked_pushValue (f.dtype v)
      (.tensor { domain := .contiguous root })
    refine List.eq_nil_iff_forall_not_mem.2 fun e he => ?_
    rcases mem_uses_pushExpr.1 he with he | ⟨-, hmem, -⟩
    · rw [hunlinked.uses] at he
      cases he
    · have hold := hb.ext.hasValue (hasValue_of_isTensor hv)
      rw [← List.mem_singleton.1 hmem] at hold
      exact Nat.lt_irrefl _ hold

/-- A conversion is a building step. -/
theorem cast_builds {t : DataType} (hf : Sound f) (hx : Known f x)
    (h : (cast x t).Returns f out f') : Builds f f' := by
  unfold cast at h
  obtain ⟨v, f₁, hv, h⟩ := EditE.returns_bind.1 h
  obtain ⟨hb, hhas⟩ := resolve_builds hf hx (EditE.returns_lift.1 hv)
  obtain ⟨f₀, f₂, hget, h⟩ := EditE.returns_bind.1 h
  obtain ⟨rfl, rfl⟩ := EditE.returns_get.1 hget
  split at h
  · exact hb.trans (newConstTyped_builds hb.sound (EditE.returns_lift.1 h))
  · exact hb.trans (elementwise_builds hb.sound (by simpa using hhas) (by simp) h)

/-- A binary operation is a building step. -/
theorem binaryOp_builds {op : BinaryOp} (hf : Sound f) (hx : Known f x) (hy : Known f y)
    (h : (binaryOp op x y).Returns f out f') : Builds f f' := by
  unfold binaryOp at h
  obtain ⟨u, f₁, hu, h⟩ := EditE.returns_bind.1 h
  obtain ⟨hb₁, hhas₁⟩ := resolve_builds hf hx (EditE.returns_lift.1 hu)
  obtain ⟨v, f₂, hv, h⟩ := EditE.returns_bind.1 h
  obtain ⟨hb₂, hhas₂⟩ := resolve_builds hb₁.sound (hy.mono hb₁.ext) (EditE.returns_lift.1 hv)
  have hb := hb₁.trans hb₂
  obtain ⟨f₀, f₃, hget, h⟩ := EditE.returns_bind.1 h
  obtain ⟨rfl, rfl⟩ := EditE.returns_get.1 hget
  dsimp only at h
  split at h
  · simp at h
  · split at h
    · exact hb.trans (newConstTyped_builds hb.sound (EditE.returns_lift.1 h))
    · refine hb.trans (elementwise_builds hb.sound ?_ (by simp) h)
      simp only [List.mem_cons, List.not_mem_nil, or_false]
      rintro w (rfl | rfl)
      · exact hb₂.ext.hasValue hhas₁
      · exact hhas₂

/-- A choice is a building step. -/
theorem select_builds (hf : Sound f) (hx : Known f x) (hy : Known f y) (hz : Known f z)
    (h : (select x y z).Returns f out f') : Builds f f' := by
  unfold select at h
  obtain ⟨u, f₁, hu, h⟩ := EditE.returns_bind.1 h
  obtain ⟨hb₁, hhas₁⟩ := resolve_builds hf hx (EditE.returns_lift.1 hu)
  obtain ⟨v, f₂, hv, h⟩ := EditE.returns_bind.1 h
  obtain ⟨hb₂, hhas₂⟩ := resolve_builds hb₁.sound (hy.mono hb₁.ext) (EditE.returns_lift.1 hv)
  obtain ⟨w, f₃, hw, h⟩ := EditE.returns_bind.1 h
  obtain ⟨hb₃, hhas₃⟩ := resolve_builds hb₂.sound (hz.mono (hb₁.trans hb₂).ext)
    (EditE.returns_lift.1 hw)
  have hb := (hb₁.trans hb₂).trans hb₃
  obtain ⟨f₀, f₄, hget, h⟩ := EditE.returns_bind.1 h
  obtain ⟨rfl, rfl⟩ := EditE.returns_get.1 hget
  dsimp only at h
  split at h
  · simp at h
  · split at h
    · exact hb.trans (newConstTyped_builds hb.sound (EditE.returns_lift.1 h))
    · refine hb.trans (elementwise_builds hb.sound ?_ (by simp) h)
      simp only [List.mem_cons, List.not_mem_nil, or_false]
      rintro a (rfl | rfl | rfl)
      · exact (hb₂.trans hb₃).ext.hasValue hhas₁
      · exact hb₃.ext.hasValue hhas₂
      · exact hhas₃

end Operations

/-! ## Reductions and broadcasts -/

/-- Looking up a tensor reads its view. -/
theorem returns_ensureTensor {v : ValueId} {x : TensorView} :
    (ensureTensor v).Returns f x f' ↔ (f.value v).view? = some x ∧ f = f' := by
  unfold ensureTensor
  simp only [EditE.returns_bind, EditE.returns_get]
  constructor
  · rintro ⟨f₀, f₁, ⟨rfl, rfl⟩, h⟩
    split at h
    case h_1 y hy =>
        obtain ⟨rfl, rfl⟩ := EditE.returns_pure.1 h
        exact ⟨hy, rfl⟩
    case h_2 => simp at h
  · rintro ⟨hx, rfl⟩
    refine ⟨f, f, ⟨rfl, rfl⟩, ?_⟩
    rw [hx]
    simp

/-- Only tensors have views. -/
theorem isTensor_of_view? {v : ValueId} {x : TensorView} (h : (f.value v).view? = some x) :
    f.isTensor v = true := by
  simp [isTensor, Value.isTensor, h]

/-- The axes of a reduction are new, and plain if those that it reads are. -/
theorem reducedAxes_makes {plain : Prop} (hf : Sound f) {reduced : List Nat} {i : Nat}
    {shape as : List AxisId} (hshape : ∀ a ∈ shape, f.HasAxis a ∧ (plain → f.PlainAxis a))
    (h : Edit.Gives (reducedAxes reduced i shape) f as f') : MakesAxes plain f as f' := by
  induction shape generalizing f i as with
  | nil =>
      obtain ⟨rfl, rfl⟩ := Edit.gives_pure.1 h
      exact .nil
  | cons b shape ih =>
      unfold reducedAxes at h
      obtain ⟨f₀, f₁, hget, h⟩ := Edit.gives_bind.1 h
      obtain ⟨rfl, rfl⟩ := Edit.gives_get.1 hget
      obtain ⟨a, f₂, ha, h⟩ := Edit.gives_bind.1 h
      obtain ⟨as, f₃, has, h⟩ := Edit.gives_bind.1 h
      obtain ⟨rfl, rfl⟩ := Edit.gives_pure.1 h
      obtain ⟨hb, hplain⟩ := hshape b List.mem_cons_self
      refine copyExtent_makes hf hb hplain (fun hkind => ?_) ha fun hstep => ?_
      · split at hkind
        · cases hkind
        · split at hkind
          case isTrue h => exact h
          case isFalse => cases hkind
      · refine ih hstep.sound (fun c hc => ?_) has
        obtain ⟨hc, hplain⟩ := hshape c (List.mem_cons_of_mem b hc)
        refine ⟨hstep.ext.hasAxis hc, fun hp => ?_⟩
        exact (hplain hp).mono hf hc hstep.ext (hstep.axis c hc)

/-- The root of a reduction is new and plain. -/
theorem reductionRoot_makes (hf : Sound f) {tensor : ValueId} {axes : List Int}
    {root : List AxisId} (h : (reductionRoot tensor axes).Returns f root f') :
    MakesAxes (Plain f) f root f' := by
  unfold reductionRoot at h
  dsimp only at h
  split at h
  · simp at h
  · simp only [EditE.returns_bind, EditE.returns_get, EditE.returns_ofExcept,
      EditE.returns_lift] at h
    obtain ⟨f₀, f₁, ⟨rfl, rfl⟩, reduced, f₂, ⟨-, rfl⟩, h⟩ := h
    refine reducedAxes_makes hf (fun a ha => ?_) h
    exact ⟨hasAxis_of_mem_shape hf ha, fun hp => plainAxis_of_mem_shape hp ha⟩

/-- A reduction with an initial value is a building step. -/
theorem reductionOp_builds {op : BinaryOp} {axes : List Int} {init : Constant}
    {tensor out : ValueId} (hf : Sound f)
    (h : (reductionOp op axes init tensor).Returns f out f') : Builds f f' := by
  unfold reductionOp at h
  obtain ⟨u, f₁, htensor, h⟩ := EditE.returns_bind.1 h
  obtain ⟨x, hx⟩ := EditE.returns_discard.1 htensor
  obtain ⟨hview, rfl⟩ := returns_ensureTensor.1 hx
  dsimp only at h
  split at h
  · simp at h
  · simp only [EditE.returns_bind, EditE.returns_get, EditE.returns_lift, EditE.returns_discard,
      EditE.returns_pure, Edit.newTensor, Edit.gives_newValue, Edit.gives_addExpr] at h
    obtain ⟨f₀, f₁, ⟨rfl, rfl⟩, root, f₂, hroot, v, f₃, ⟨rfl, rfl⟩, -, f₄, ⟨e, -, rfl⟩, rfl, rfl⟩ := h
    refine tensorResult_builds hf (reductionRoot_makes hf hroot) fun v hv => ?_
    rw [List.mem_singleton.1 hv]
    exact hasValue_of_isTensor (isTensor_of_view? hview)

/-- A reduction from the neutral value of its operator is a building step. -/
theorem reduce_builds {op : BinaryOp} {axes : List Int} {tensor out : ValueId} (hf : Sound f)
    (h : (reduce op tensor axes).Returns f out f') : Builds f f' := by
  unfold reduce at h
  obtain ⟨f₀, f₁, hget, h⟩ := EditE.returns_bind.1 h
  obtain ⟨rfl, rfl⟩ := EditE.returns_get.1 hget
  split at h
  · exact reductionOp_builds hf h
  · simp at h

/-- The axes of a broadcast are new, and plain if those that it reads are. -/
theorem broadcastAxes_makes {plain : Prop} (hf : Sound f) {flags : List Bool}
    {shape as : List AxisId} (hlength : (flags.filter (!·)).length = shape.length)
    (hshape : ∀ a ∈ shape, f.HasAxis a ∧ (plain → f.PlainAxis a))
    (h : Edit.Gives (broadcastAxes flags shape) f as f') : MakesAxes plain f as f' := by
  induction flags generalizing f shape as with
  | nil =>
      obtain ⟨rfl, rfl⟩ := Edit.gives_pure.1 h
      exact .nil
  | cons flag flags ih =>
      have hkeep : ∀ {f₁ : Fusion}, Builds f f₁ → ∀ c ∈ shape,
          f₁.HasAxis c ∧ (plain → f₁.PlainAxis c) := by
        intro f₁ hstep c hc
        obtain ⟨hc, hplain⟩ := hshape c hc
        refine ⟨hstep.ext.hasAxis hc, fun hp => ?_⟩
        exact (hplain hp).mono hf hc hstep.ext (hstep.axis c hc)
      cases flag with
      | true =>
          unfold broadcastAxes at h
          obtain ⟨one, f₁, hone, h⟩ := Edit.gives_bind.1 h
          obtain ⟨a, f₂, ha, h⟩ := Edit.gives_bind.1 h
          obtain ⟨as, f₃, has, h⟩ := Edit.gives_bind.1 h
          obtain ⟨rfl, rfl⟩ := Edit.gives_pure.1 h
          have hb₁ := Edit.newConst_builds hf hone
          obtain ⟨rfl, rfl⟩ := Edit.gives_newValue.1 hone
          have hint : (f.pushValue .int64 (.scalar (.const (.int 1)))).IntegerScalar
              ⟨f.values.size⟩ := integerScalar_pushValue rfl
          obtain ⟨hb₂, hnew, hhas, hextent, hkind⟩ := Edit.newAxis_builds hb₁.sound hint ha
          have hb := hb₁.trans hb₂
          refine .cons hb (fun h => hnew (hb₁.ext.hasAxis h)) hhas (fun _ => ?_)
            (ih hb.sound (by simpa using hlength) (hkeep hb) has)
          refine .literal 1 ?_ fun _ => rfl
          rw [hextent, hb₂.ext.const? hint.has hint.scalar, const?, value_pushValue, if_pos rfl]
          rfl
      | false =>
          cases shape with
          | nil => simp at hlength
          | cons b shape =>
              unfold broadcastAxes at h
              obtain ⟨f₀, f₁, hget, h⟩ := Edit.gives_bind.1 h
              obtain ⟨rfl, rfl⟩ := Edit.gives_get.1 hget
              obtain ⟨a, f₂, ha, h⟩ := Edit.gives_bind.1 h
              obtain ⟨as, f₃, has, h⟩ := Edit.gives_bind.1 h
              obtain ⟨rfl, rfl⟩ := Edit.gives_pure.1 h
              obtain ⟨hb, hplain⟩ := hshape b List.mem_cons_self
              refine copyExtent_makes hf hb hplain (fun hkind => ?_) ha fun hstep => ?_
              · split at hkind
                case isTrue h => exact h
                case isFalse => cases hkind
              · refine ih hstep.sound (by simpa using hlength) (fun c hc => ?_) has
                exact hkeep hstep c (List.mem_cons_of_mem b hc)

/-- A broadcast is a building step. -/
theorem broadcast_builds {tensor out : ValueId} {flags : List Bool} (hf : Sound f)
    (h : (broadcast tensor flags).Returns f out f') : Builds f f' := by
  unfold broadcast at h
  obtain ⟨u, f₁, htensor, h⟩ := EditE.returns_bind.1 h
  obtain ⟨x, hx⟩ := EditE.returns_discard.1 htensor
  obtain ⟨hview, rfl⟩ := returns_ensureTensor.1 hx
  obtain ⟨f₀, f₁, hget, h⟩ := EditE.returns_bind.1 h
  obtain ⟨rfl, rfl⟩ := EditE.returns_get.1 hget
  dsimp only at h
  split at h
  · simp at h
  case isFalse hlength =>
      simp only [EditE.returns_bind, EditE.returns_lift, EditE.returns_discard,
        EditE.returns_pure, Edit.newTensor, Edit.gives_newValue, Edit.gives_addExpr] at h
      obtain ⟨root, f₂, hroot, v, f₃, ⟨rfl, rfl⟩, -, f₄, ⟨e, -, rfl⟩, rfl, rfl⟩ := h
      have hmakes : MakesAxes (Plain f) f root f₂ := by
        refine broadcastAxes_makes hf (by simpa using hlength) (fun a ha => ?_) hroot
        exact ⟨hasAxis_of_mem_shape hf ha, fun hp => plainAxis_of_mem_shape hp ha⟩
      refine tensorResult_builds hf hmakes fun v hv => ?_
      rw [List.mem_singleton.1 hv]
      exact hasValue_of_isTensor (isTensor_of_view? hview)

/-- One of several tensors over the same new axes. -/
theorem newTensor_shares {f₁ f₂ : Fusion} {root : List AxisId} {t : DataType} {v : ValueId}
    (hb : Builds f f₁) (hnodup : root.Nodup)
    (hroot : ∀ a ∈ root, f₁.HasAxis a ∧ (Plain f → f₁.PlainAxis a))
    (h : Edit.Gives (Edit.newTensor (.contiguous root) t) f₁ v f₂) :
    Builds f f₂ ∧ Extends f₁ f₂ ∧ SameFlow f₁ f₂ ∧ ¬ f₁.HasValue v ∧ f₂.isTensor v = true ∧
      ∀ a ∈ root, f₂.HasAxis a ∧ (Plain f → f₂.PlainAxis a) := by
  obtain ⟨rfl, rfl⟩ := Edit.gives_newValue.1 h
  have hext := extends_pushValue f₁ t (.tensor { domain := .contiguous root })
  refine ⟨hb.pushTensor hnodup (fun a ha => (hroot a ha).1) fun hp a ha => (hroot a ha).2 hp,
    hext, .pushValue f₁ t _, Nat.lt_irrefl _, ?_,
    fun a ha => ⟨hext.hasAxis (hroot a ha).1, fun hp => ?_⟩⟩
  · simp [isTensor, value_pushValue, Value.isTensor, Value.view?]
  · exact ((hroot a ha).2 hp).mono hb.sound (hroot a ha).1 hext rfl

/-- A Welford reduction is a building step. -/
theorem welford_builds {tensor : ValueId} {axes : List Int} {out : Moments ValueId} (hf : Sound f)
    (h : (welford tensor axes).Returns f out f') : Builds f f' := by
  unfold welford at h
  obtain ⟨u, f₁, htensor, h⟩ := EditE.returns_bind.1 h
  obtain ⟨x, hx⟩ := EditE.returns_discard.1 htensor
  obtain ⟨hview, rfl⟩ := returns_ensureTensor.1 hx
  obtain ⟨f₀, f₁, hget, h⟩ := EditE.returns_bind.1 h
  obtain ⟨rfl, rfl⟩ := EditE.returns_get.1 hget
  dsimp only at h
  split at h
  · simp at h
  · simp only [EditE.returns_bind, EditE.returns_lift, EditE.returns_discard, EditE.returns_pure,
      Edit.gives_addExpr] at h
    obtain ⟨root, f₂, hroot, v₁, f₃, h₁, v₂, f₄, h₂, v₃, f₅, h₃, -, f₆, ⟨e, -, rfl⟩, -, rfl⟩ := h
    have hmakes := reductionRoot_makes hf hroot
    have hb := hmakes.builds hf
    obtain ⟨hb₁, hext₁, hflow₁, hnew₁, ht₁, hroot₁⟩ :=
      newTensor_shares hb (hmakes.nodup hf) (fun a ha => (hmakes.new hf a ha).2) h₁
    obtain ⟨hb₂, hext₂, hflow₂, hnew₂, ht₂, hroot₂⟩ :=
      newTensor_shares hb₁ (hmakes.nodup hf) hroot₁ h₂
    obtain ⟨hb₃, hext₃, hflow₃, hnew₃, ht₃, -⟩ := newTensor_shares hb₂ (hmakes.nodup hf) hroot₂ h₃
    have htensor : f.HasValue tensor := hasValue_of_isTensor (isTensor_of_view? hview)
    have hout : ∀ v ∈ [v₁, v₂, v₃], f₅.isTensor v = true ∧ ¬ f₂.HasValue v := by
      simp only [List.mem_cons, List.not_mem_nil, or_false]
      rintro v (rfl | rfl | rfl)
      · rw [(hext₂.trans hext₃).isTensor v (hasValue_of_isTensor ht₁)]
        exact ⟨ht₁, hnew₁⟩
      · rw [hext₃.isTensor v (hasValue_of_isTensor ht₂)]
        exact ⟨ht₂, fun h => hnew₂ (hext₁.hasValue h)⟩
      · exact ⟨ht₃, fun h => hnew₃ ((hext₁.trans hext₂).hasValue h)⟩
    have htensors : ∀ v ∈ [v₁, v₂, v₃], f₅.isTensor v = true := fun v hv => (hout v hv).1
    refine hb₃.pushExpr hf (.inr htensors) ⟨?_, ?_, .inl htensors⟩ (fun v hv _ => htensors v hv) ?_
    · intro v hv
      rw [List.mem_singleton.1 hv]
      exact hb₃.ext.hasValue htensor
    · exact fun v hv => hasValue_of_isTensor (htensors v hv)
    · intro hw v hv
      have hfresh := (hout v hv).2
      refine ⟨?_, fun hmem => hfresh ?_⟩
      · exact ((hb.wired hw).unlinked hfresh).sameFlow ((hflow₁.trans hflow₂).trans hflow₃)
      · rw [List.mem_singleton.1 hmem]
        exact hb.ext.hasValue htensor

/-! ## Inputs and outputs -/

/-- A change of the inputs, outputs and aliases is a building step, if new inputs are computed by
nothing and new outputs are tensors. -/
theorem setBoundary_builds (hf : Sound f) (inputs outputs : List ValueId)
    (aliases : List (ValueId × ValueId))
    (hin : ∀ v ∈ inputs, v ∉ f.inputs → f.HasValue v ∧ f.definition v = none)
    (hout : ∀ v ∈ outputs, v ∉ f.outputs → f.isTensor v = true)
    (hdistinct : f.inputs.Nodup → inputs.Nodup) :
    Builds f { f with inputs, outputs, aliases } := by
  have hsame : SameGraph f { f with inputs, outputs, aliases } :=
    ⟨rfl, rfl, rfl, rfl, fun _ => rfl, fun _ => rfl, fun _ => rfl, fun _ => rfl, fun _ _ => rfl⟩
  obtain ⟨hsound, hext⟩ := hf.sameGraph hsame hf.domains
  refine ⟨hsound, hext, rfl, fun _ _ => rfl, fun _ _ => rfl, (Builds.refl hf).fresh,
    Builds.plain_of_kept hf hext (fun _ _ => rfl) fun _ => .inl rfl, fun hw => ?_⟩
  refine ⟨hw.defines, hw.reads, hw.ranked, fun v hv => ?_, fun v hv => ?_, hdistinct hw.distinct,
    hw.once⟩
  · by_cases hold : v ∈ f.inputs
    · exact hw.inputs v hold
    · exact hin v hv hold
  · by_cases hold : v ∈ f.outputs
    · exact hw.outputs v hold
    · exact hout v hv hold

/-- What becomes an input is computed by nothing and no input yet. -/
theorem returns_addInput {v : ValueId} {u : Unit} :
    (addInput v).Returns f u f' ↔
      f.definition v = none ∧ v ∉ f.inputs ∧ { f with inputs := f.inputs ++ [v] } = f' := by
  unfold addInput
  simp only [EditE.returns_bind, EditE.returns_get, EditE.returns_guard, EditE.returns_set]
  constructor
  · rintro ⟨_, _, ⟨rfl, rfl⟩, hdef, hnew, h⟩
    exact ⟨by simpa using hdef, by simpa [isInput] using hnew, h⟩
  · rintro ⟨hdef, hnew, rfl⟩
    exact ⟨f, f, ⟨rfl, rfl⟩, by simp [hdef], by simpa [isInput] using hnew, rfl⟩

/-- What becomes an output is a tensor and no output yet. -/
theorem returns_addOutput {v : ValueId} {u : Unit} :
    (addOutput v).Returns f u f' ↔
      f.isTensor v = true ∧ v ∉ f.outputs ∧ { f with outputs := f.outputs ++ [v] } = f' := by
  unfold addOutput
  simp only [EditE.returns_bind, EditE.returns_get, EditE.returns_discard, returns_ensureTensor,
    EditE.returns_guard, EditE.returns_set]
  constructor
  · rintro ⟨_, _, ⟨x, hx, rfl⟩, _, _, ⟨rfl, rfl⟩, hnew, h⟩
    exact ⟨isTensor_of_view? hx, by simpa [isOutput] using hnew, h⟩
  · rintro ⟨htensor, hnew, rfl⟩
    obtain ⟨x, hx⟩ := Option.isSome_iff_exists.1 htensor
    exact ⟨(), f, ⟨x, hx, rfl⟩, f, f, ⟨rfl, rfl⟩, by simpa [isOutput] using hnew, rfl⟩

/-- An alias changes nothing else. -/
theorem returns_addAlias {output input : ValueId} {u : Unit}
    (h : (addAlias output input).Returns f u f') :
    { f with aliases := f.aliases ++ [(output, input)] } = f' := by
  unfold addAlias at h
  simp only [EditE.returns_bind, EditE.returns_get, EditE.returns_guard, EditE.returns_set] at h
  obtain ⟨f₀, f₁, ⟨rfl, rfl⟩, -, -, -, -, -, h⟩ := h
  exact h

/-- Declaring an input is a building step. -/
theorem addInput_builds {v : ValueId} {u : Unit} (hf : Sound f) (hv : f.HasValue v)
    (h : (addInput v).Returns f u f') : Builds f f' := by
  obtain ⟨hdef, hnot, rfl⟩ := returns_addInput.1 h
  refine setBoundary_builds hf _ _ _ (fun w hw hnew => ?_) (fun w hw hnew => absurd hw hnew)
    fun hnodup => ?_
  · rcases List.mem_append.1 hw with hw | hw
    · exact absurd hw hnew
    · rw [List.mem_singleton.1 hw]
      exact ⟨hv, hdef⟩
  · refine List.nodup_append.2 ⟨hnodup, List.pairwise_singleton _ v, fun w hw u hu => ?_⟩
    rw [List.mem_singleton.1 hu]
    rintro rfl
    exact hnot hw

/-- Declaring an output is a building step. -/
theorem addOutput_builds {v : ValueId} {u : Unit} (hf : Sound f)
    (h : (addOutput v).Returns f u f') : Builds f f' := by
  obtain ⟨htensor, -, rfl⟩ := returns_addOutput.1 h
  refine setBoundary_builds hf _ _ _ (fun w hw hnew => absurd hw hnew) (fun w hw hnew => ?_) id
  rcases List.mem_append.1 hw with hw | hw
  · exact absurd hw hnew
  · rw [List.mem_singleton.1 hw]
    exact htensor

/-- Declaring an alias is a building step. -/
theorem addAlias_builds {output input : ValueId} {u : Unit} (hf : Sound f)
    (h : (addAlias output input).Returns f u f') : Builds f f' := by
  rw [← returns_addAlias h]
  exact setBoundary_builds hf _ _ _ (fun _ hw hnew => absurd hw hnew)
    (fun _ hw hnew => absurd hw hnew) id

/-! ## Extents -/

/-- Axes, tensors and definitions are those of before. -/
structure AddsScalars (f f' : Fusion) : Prop where
  axes : f'.axes = f.axes
  view : ∀ v, f'.view v = f.view v
  isTensor : ∀ v, f'.isTensor v = f.isTensor v
  definition : ∀ v, f.HasValue v → f'.definition v = f.definition v
  definingExpr : ∀ v, f.HasValue v → f'.definingExpr? v = f.definingExpr? v
  inputs : f'.inputs = f.inputs
  outputs : f'.outputs = f.outputs

/-- A new scalar is no tensor. -/
theorem isTensor_pushScalar (f : Fusion) (t : DataType) (k : ScalarKind) (v : ValueId) :
    (f.pushValue t (.scalar k)).isTensor v = f.isTensor v := by
  unfold isTensor
  rw [value_pushValue]
  split
  case isTrue hv =>
      have hnew : ¬ f.HasValue v := by simp [HasValue, hv]
      rw [value_of_not_hasValue hnew]
      rfl
  case isFalse => rfl

/-- A new literal. -/
theorem AddsScalars.pushConst (f : Fusion) (t : DataType) (c : Constant) :
    AddsScalars f (f.pushValue t (.scalar (.const c))) := by
  have hdef : ∀ v, f.HasValue v →
      (f.pushValue t (.scalar (.const c))).definition v = f.definition v := by
    intro v hv
    unfold Fusion.definition
    rw [value_pushValue_old hv]
  refine ⟨rfl, Builds.view_pushScalar f _ _, isTensor_pushScalar f _ _, hdef, fun v hv => ?_, rfl,
    rfl⟩
  unfold definingExpr?
  rw [hdef v hv]
  rfl

/-- An expression that defines a new scalar. -/
theorem AddsScalars.pushExpr (hf : Sound f) (t : DataType) (kind : ExprKind)
    (operands : List ValueId) :
    AddsScalars f ((f.pushValue t (.scalar .symbolic)).pushExpr
      ⟨kind, operands, [⟨f.values.size⟩]⟩) := by
  have hdef : ∀ v, f.HasValue v → ((f.pushValue t (.scalar .symbolic)).pushExpr
      ⟨kind, operands, [⟨f.values.size⟩]⟩).definition v = f.definition v := by
    intro v hv
    have hold : v ∉ [(⟨f.values.size⟩ : ValueId)] := by
      intro hmem
      rw [List.mem_singleton.1 hmem] at hv
      exact Nat.lt_irrefl _ hv
    rw [definition_pushExpr, if_neg fun h => hold h.1, Fusion.definition, value_pushValue_old hv]
    rfl
  refine ⟨?_, fun v => ?_, fun v => ?_, hdef, fun v hv => ?_, inputs_pushExpr _ _,
    outputs_pushExpr _ _⟩
  · rw [axes_pushExpr]
    rfl
  · rw [view_pushExpr]
    exact Builds.view_pushScalar f _ _ v
  · rw [isTensor_pushExpr]
    exact isTensor_pushScalar f _ _ v
  · unfold definingExpr?
    rw [hdef v hv]
    cases hd : f.definition v with
    | none => rfl
    | some d =>
        obtain ⟨x, hx, -⟩ := hf.defined v d hd
        have hlt : d.index < f.exprs.size := index_lt_of_expr? hx
        have hne : d.index ≠ (f.pushValue t (.scalar .symbolic)).exprs.size := Nat.ne_of_lt hlt
        simp only [Option.map_some, expr, expr?_pushExpr, if_neg hne]
        rfl

/-- Integers are promoted to integers. -/
theorem isInt_promote {s t : DataType} (hs : s.isInt = true) (ht : t.isInt = true) :
    (s.promote t).isInt = true := by
  unfold DataType.promote
  split
  · exact ht
  · exact hs

/-- Two scalars have the later one of their types. -/
theorem promotedType_scalars {x y : ValueId} (hx : f.isTensor x = false)
    (hy : f.isTensor y = false) :
    promotedType f [x, y] = (f.dtype x).promote (f.dtype y) := by
  simp [promotedType, hx, hy]

/-- An operator over two integer scalars makes a scalar that records its value, and changes no
axis, tensor or definition. -/
theorem binaryOp_isResult {op : BinaryOp} {x y z : ValueId} (hf : Sound f)
    (hx : f.IntegerScalar x) (hy : f.IntegerScalar y) (hop : op.yieldsBool = false)
    (h : (binaryOp op (.value x) (.value y)).Returns f z f') :
    f'.IntegerScalar z ∧ f'.IsResult op z x y ∧ f'.Evaluates op z x y ∧ AddsScalars f f' := by
  unfold binaryOp resolve at h
  simp only [EditE.returns_bind, EditE.returns_lift, Edit.gives_pure, EditE.returns_get] at h
  obtain ⟨a, f₁, ⟨rfl, rfl⟩, b, f₂, ⟨rfl, rfl⟩, f₀, f₃, ⟨rfl, rfl⟩, h⟩ := h
  have hint := isInt_promote hx.integer hy.integer
  rw [promotedType_scalars hx.scalar hy.scalar, hop] at h
  simp only [Bool.false_eq_true, if_false] at h
  split at h
  · simp at h
  · split at h
    case h_1 c hfold =>
        -- both operands are literals and the operator has a value
        obtain ⟨rfl, rfl⟩ := Edit.gives_newValue.1 (EditE.returns_lift.1 h)
        have hext := extends_pushValue f ((f.dtype x).promote (f.dtype y))
          (.scalar (.const (c.cast ((f.dtype x).promote (f.dtype y)))))
        split at hfold
        case h_2 => cases hfold
        case h_1 a b ha hb =>
            obtain ⟨m, rfl⟩ := hf.literals x a ha hx.integer
            obtain ⟨n, rfl⟩ := hf.literals y b hb hy.integer
            simp only [foldBinary, hint] at hfold
            have hz : (f.pushValue ((f.dtype x).promote (f.dtype y)) (.scalar (.const
                (c.cast ((f.dtype x).promote (f.dtype y)))))).const? ⟨f.values.size⟩ =
                some (c.cast ((f.dtype x).promote (f.dtype y))) := by
              simp [const?, value_pushValue, Value.const?]
            have htz : (f.pushValue ((f.dtype x).promote (f.dtype y)) (.scalar (.const
                (c.cast ((f.dtype x).promote (f.dtype y)))))).dtype ⟨f.values.size⟩ =
                (f.dtype x).promote (f.dtype y) := by
              simp [dtype, value_pushValue]
            have hcx := (hext.const? hx.has hx.scalar).trans ha
            have hcy := (hext.const? hy.has hy.scalar).trans hb
            refine ⟨integerScalar_pushValue hint, .folded m n c hcx hcy hfold (htz.symm ▸ hz),
              ⟨?_, fun m' n' c' hm hn hc => ?_, fun hnone => ?_⟩, .pushConst f _ _⟩
            · rw [htz, hext.dtype x hx.has, hext.dtype y hy.has]
            · cases hcx.symm.trans hm
              cases hcy.symm.trans hn
              cases hfold.symm.trans hc
              rw [htz, hz]
            · rw [hnone m n hcx hcy] at hfold
              cases hfold
    case h_2 hopen =>
        have hs : ∀ v ∈ [x, y], f.isTensor v = false := by
          simp only [List.mem_cons, List.not_mem_nil, or_false]
          rintro v (rfl | rfl)
          · exact hx.scalar
          · exact hy.scalar
        obtain ⟨rfl, rfl⟩ := elementwise_scalar hs h
        have hz : (f.pushValue ((f.dtype x).promote (f.dtype y)) (.scalar .symbolic)).IntegerScalar
            ⟨f.values.size⟩ := integerScalar_pushValue hint
        generalize hlater : (f.pushValue ((f.dtype x).promote (f.dtype y))
          (.scalar .symbolic)).pushExpr ⟨.binary op, [x, y], [⟨f.values.size⟩]⟩ = f₁
        have hkind : (f₁.value ⟨f.values.size⟩).kind = .scalar .symbolic := by
          rw [← hlater, kind_pushExpr, value_pushValue, if_pos rfl]
        have hdefining : f₁.definingExpr? ⟨f.values.size⟩ =
            some ⟨.binary op, [x, y], [⟨f.values.size⟩]⟩ := by
          rw [← hlater, definingExpr?, definition_pushExpr,
            if_pos ⟨List.mem_singleton_self _, hz.has⟩]
          simp [expr, expr?_pushExpr]
        have hconst : ∀ w, f.HasValue w → f₁.const? w = f.const? w := by
          intro w hw
          rw [← hlater, const?, Value.const?, kind_pushExpr, value_pushValue_old hw]
          rfl
        have hdtype : ∀ w, f₁.dtype w =
            (f.pushValue ((f.dtype x).promote (f.dtype y)) (.scalar .symbolic)).dtype w := by
          intro w
          rw [← hlater, dtype_pushExpr]
        have hold := (extends_pushValue f ((f.dtype x).promote (f.dtype y)) (.scalar .symbolic)).dtype
        refine ⟨⟨?_, ?_, ?_⟩, .defined _ hkind hdefining rfl rfl,
          ⟨?_, fun m n c hm hn hc => ?_, fun _ => ⟨hkind, _, hdefining, rfl, rfl⟩⟩,
          hlater ▸ .pushExpr hf _ _ _⟩
        · rw [← hlater, HasValue, size_pushExpr]
          exact hz.has
        · rw [← hlater, isTensor_pushExpr]
          exact hz.scalar
        · rw [hdtype]
          exact hz.integer
        · rw [hdtype, hdtype, hdtype, hold x hx.has, hold y hy.has]
          simp [dtype, value_pushValue]
        · rw [hconst x hx.has] at hm
          rw [hconst y hy.has] at hn
          simp only [hm, hn, foldBinary, hint, hc] at hopen
          cases hopen

end Build
end FusionCompiler
