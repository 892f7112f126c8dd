import FusionCompiler.Proofs.Fusion.Wiring

/-!
# What building does

Building adds values, axes and expressions and leaves every schedule alone.
`Fusion.Builds` collects what holds between a fusion and the fusion after any
number of building steps, and this file proves it for the steps that operations
are made of.

Main results:

- Theorem `Fusion.Builds.trans`: building steps compose.
- Theorems `Fusion.Builds.pushScalar`, `Fusion.Builds.pushAxis`,
  `Fusion.Builds.pushTensor` and `Fusion.Builds.pushExpr`: the steps that
  operations are made of are building steps.
- Theorems `Fusion.MakesAxes.nodup` and `Fusion.MakesAxes.new`: axes made one
  after another are new and distinct.
-/

namespace FusionCompiler

/-! ## Steps of an edit -/

namespace Edit

variable {f f' : Fusion}

/-- What a new value does. -/
@[simp]
theorem gives_newValue {t : DataType} {kind : ValueKind} {v : ValueId} :
    Gives (newValue t kind) f v f' ↔ ⟨f.values.size⟩ = v ∧ f.pushValue t kind = f' :=
  Prod.mk.injEq _ _ _ _ ▸ Iff.rfl

/-- What a new axis does. -/
@[simp]
theorem gives_addAxis {x : Axis} {a : AxisId} :
    Gives (addAxis x) f a f' ↔ ⟨f.axes.size⟩ = a ∧ f.pushAxis x = f' :=
  Prod.mk.injEq _ _ _ _ ▸ Iff.rfl

/-- What a new transform does. -/
@[simp]
theorem gives_addTransform {x : Transform} {t : TransformId} :
    Gives (addTransform x) f t f' ↔ ⟨f.transforms.size⟩ = t ∧ f.pushTransform x = f' :=
  Prod.mk.injEq _ _ _ _ ▸ Iff.rfl

/-- What a new expression does. -/
@[simp]
theorem gives_addExpr {kind : ExprKind} {inputs outputs : List ValueId} {e : ExprId} :
    Gives (addExpr kind inputs outputs) f e f' ↔
      ⟨f.exprs.size⟩ = e ∧ f.pushExpr ⟨kind, inputs, outputs⟩ = f' :=
  Prod.mk.injEq _ _ _ _ ▸ Iff.rfl

end Edit

namespace Fusion

variable {f f' f₁ f₂ f₃ : Fusion}

/-! ## Unscheduled tensors and plain roots -/

/-- The view of a tensor that nothing has been done to. -/
structure Unscheduled (x : TensorView) : Prop where
  leaf : x.domain.leaf = x.domain.root
  rfactor : x.domain.rfactor = none
  nodup : x.domain.root.Nodup
  computeAt : x.computeAt = 0
  maxProducer : x.maxProducer = 0

/-- The view of a scalar counts as unscheduled. -/
theorem Unscheduled.empty : Unscheduled {} :=
  ⟨rfl, rfl, List.nodup_nil, rfl, rfl⟩

/-- A domain over its root is not scheduled. -/
theorem Unscheduled.ofRoot {root : List AxisId} (h : root.Nodup) (contiguity : List Bool) :
    Unscheduled { domain := .ofRoot root contiguity } :=
  ⟨rfl, rfl, h, rfl, rfl⟩

/-- The extent of an axis is a literal, which is one for a broadcast, or the size of an input, which
nothing computes. -/
inductive PlainAxis (f : Fusion) (a : AxisId) : Prop where
  | literal (n : Int) (hn : f.const? (f.extent a) = some (.int n))
      (hone : (f.axis a).isBroadcast = true → n = 1)
  | size (tensor : ValueId) (dim : Nat)
      (hkind : (f.value (f.extent a)).kind = .scalar (.tensorSize tensor dim))
      (hdef : f.definingExpr? (f.extent a) = none) (hnot : (f.axis a).isBroadcast = false)

/-- No tensor is factored or inlined, and all root axes are plain. -/
structure Plain (f : Fusion) : Prop where
  rfactor : ∀ v, (f.view v).domain.rfactor = none
  computeAt : ∀ v, (f.view v).computeAt = 0
  root : ∀ v, ∀ a ∈ (f.view v).domain.root, f.PlainAxis a

/-- Plain axes stay plain. -/
theorem PlainAxis.mono {a : AxisId} (ha : f.PlainAxis a) (hf : Sound f) (hhas : f.HasAxis a)
    (hext : Extends f f') (haxis : f'.axis a = f.axis a) : f'.PlainAxis a := by
  have hx := hf.extents a hhas
  have he : f'.extent a = f.extent a := hext.extent a hhas
  cases ha with
  | literal n hn hone =>
      refine .literal n ?_ (haxis ▸ hone)
      rw [he, hext.const? hx.has hx.scalar]
      exact hn
  | size tensor dim hkind hdef hnot =>
      refine .size tensor dim ?_ ?_ (haxis ▸ hnot)
      · rw [he, hext.kind _ hx.has hx.scalar]
        exact hkind
      · rw [he, hext.definingExpr _ hx.has hx.scalar]
        exact hdef

/-- What building steps do: they extend a fusion by values, axes and expressions and leave the
views and axes there are as they are. -/
structure Builds (f f' : Fusion) : Prop where
  sound : Sound f'
  ext : Extends f f'
  transforms : f'.transforms = f.transforms
  axis : ∀ a, f.HasAxis a → f'.axis a = f.axis a
  view : ∀ v, f.HasValue v → f'.view v = f.view v
  fresh : ∀ v, ¬ f.HasValue v → Unscheduled (f'.view v)
  plain : Plain f → Plain f'
  wired : Wired f → Wired f'

/-- What the fusion does not have has an empty view. -/
theorem view_of_not_hasValue {v : ValueId} (h : ¬ f.HasValue v) : f.view v = {} := by
  rw [view, value_of_not_hasValue h]
  rfl

namespace Builds

/-- Nothing is built. -/
protected theorem refl (hf : Sound f) : Builds f f where
  sound := hf
  ext := Extends.refl f
  transforms := rfl
  axis _ _ := rfl
  view _ _ := rfl
  fresh v hv := by
    rw [view_of_not_hasValue hv]
    exact Unscheduled.empty
  plain h := h
  wired h := h

/-- Building steps compose. -/
protected theorem trans (h : Builds f₁ f₂) (h' : Builds f₂ f₃) : Builds f₁ f₃ := by
  refine ⟨h'.sound, h.ext.trans h'.ext, h'.transforms.trans h.transforms, ?_, ?_, ?_,
    fun hp => h'.plain (h.plain hp), fun hw => h'.wired (h.wired hw)⟩
  · intro a ha
    rw [h'.axis a (h.ext.hasAxis ha), h.axis a ha]
  · intro v hv
    rw [h'.view v (h.ext.hasValue hv), h.view v hv]
  · intro v hv
    by_cases hv₂ : f₂.HasValue v
    · rw [h'.view v hv₂]
      exact h.fresh v hv
    · exact h'.fresh v hv₂

/-- Plainness of the roots that were there before a step carries over. -/
theorem plain_of_kept (hf : Sound f) (hext : Extends f f')
    (haxis : ∀ a, f.HasAxis a → f'.axis a = f.axis a)
    (hview : ∀ v, (f'.view v) = f.view v ∨ (Unscheduled (f'.view v) ∧
      ∀ a ∈ (f'.view v).domain.root, Plain f → f'.PlainAxis a)) (hp : Plain f) : Plain f' := by
  refine ⟨?_, ?_, ?_⟩
  · intro v
    rcases hview v with h | ⟨h, -⟩
    · rw [h]
      exact hp.rfactor v
    · exact h.rfactor
  · intro v
    rcases hview v with h | ⟨h, -⟩
    · rw [h]
      exact hp.computeAt v
    · exact h.computeAt
  · intro v a ha
    rcases hview v with h | ⟨-, h⟩
    · rw [h] at ha
      have hhas : f.HasAxis a := hf.domains v a (by simp [TensorDomain.listed, ha])
      exact (hp.root v a ha).mono hf hhas hext (haxis a hhas)
    · exact h a ha hp

/-- A new scalar shows no view. -/
theorem view_pushScalar (f : Fusion) (t : DataType) (k : ScalarKind) (v : ValueId) :
    (f.pushValue t (.scalar k)).view v = f.view v := by
  by_cases hv : f.HasValue v
  · rw [Fusion.view, value_pushValue_old hv, Fusion.view]
  · rw [view_of_not_hasValue hv, Fusion.view, value_pushValue]
    split
    · rfl
    · rw [value_of_not_hasValue hv]
      rfl

/-- A new scalar. -/
theorem pushScalar (hf : Sound f) {t : DataType} {k : ScalarKind}
    (hlit : ∀ c, k = .const c → t.isInt = true → ∃ n, c = .int n) :
    Builds f (f.pushValue t (.scalar k)) := by
  have hext := extends_pushValue f t (.scalar k)
  have hview := view_pushScalar f t k
  refine ⟨?_, hext, rfl, fun _ _ => rfl, fun v _ => hview v, ?_, ?_,
    fun hw => hw.sameFlow (.pushValue f t _) hext⟩
  · refine hf.pushValue (fun c hc => hlit c ?_) fun x hx => by cases hx
    injection hc
  · intro v hv
    rw [hview, view_of_not_hasValue hv]
    exact Unscheduled.empty
  · exact plain_of_kept hf hext (fun _ _ => rfl) fun v => .inl (hview v)

/-- A new axis over an integer scalar. -/
theorem pushAxis (hf : Sound f) {x : Axis} (hx : f.IntegerScalar x.extent) :
    Builds f (f.pushAxis x) := by
  have hext := extends_pushAxis f x
  refine ⟨hf.pushAxis hx, hext, rfl, fun a ha => axis_pushAxis_old ha, fun _ _ => rfl, ?_, ?_,
    fun hw => hw.sameFlow (.pushAxis f x) hext⟩
  · intro v hv
    have hview : (f.pushAxis x).view v = f.view v := rfl
    rw [hview, view_of_not_hasValue hv]
    exact Unscheduled.empty
  · exact plain_of_kept hf hext (fun a ha => axis_pushAxis_old ha) fun v => .inl rfl

/-- A new tensor over given axes, after the steps that made them. -/
theorem pushTensor (h : Builds f f₁) {t : DataType} {root : List AxisId} {contiguity : List Bool}
    (hnodup : root.Nodup) (hroot : ∀ a ∈ root, f₁.HasAxis a)
    (hplain : Plain f → ∀ a ∈ root, f₁.PlainAxis a) :
    Builds f (f₁.pushValue t (.tensor { domain := .ofRoot root contiguity })) := by
  have hext := extends_pushValue f₁ t (.tensor { domain := .ofRoot root contiguity })
  have hnew : ∀ v : ValueId, v.index = f₁.values.size →
      (f₁.pushValue t (.tensor { domain := .ofRoot root contiguity })).view v =
        { domain := .ofRoot root contiguity } := by
    intro v hv
    rw [Fusion.view, value_pushValue, if_pos hv]
    rfl
  have hold : ∀ v : ValueId, v.index ≠ f₁.values.size →
      (f₁.pushValue t (.tensor { domain := .ofRoot root contiguity })).view v = f₁.view v := by
    intro v hv
    rw [Fusion.view, value_pushValue, if_neg hv, Fusion.view]
  refine ⟨?_, h.ext.trans hext, h.transforms, h.axis, ?_, ?_, ?_,
    fun hw => (h.wired hw).sameFlow (.pushValue f₁ t _) hext⟩
  · refine h.sound.pushValue (fun c hc => by cases hc) fun x hx a ha => hroot a ?_
    cases hx
    simpa [TensorDomain.listed, TensorDomain.logical, TensorDomain.ofRoot] using ha
  · intro v hv
    rw [hold v (Nat.ne_of_lt (h.ext.hasValue hv)), h.view v hv]
  · intro v hv
    by_cases hv' : v.index = f₁.values.size
    · rw [hnew v hv']
      exact Unscheduled.ofRoot hnodup contiguity
    · rw [hold v hv']
      exact h.fresh v hv
  · intro hp
    refine plain_of_kept h.sound hext (fun _ _ => rfl) (fun v => ?_) (h.plain hp)
    by_cases hv : v.index = f₁.values.size
    · refine .inr ?_
      rw [hnew v hv]
      refine ⟨Unscheduled.ofRoot hnodup contiguity, fun a ha _ => ?_⟩
      exact (hplain hp a ha).mono h.sound (hroot a ha) hext rfl
    · exact .inl (hold v hv)

/-- A new expression leaves roots plain if it computes none of their extents. -/
theorem plain_pushExpr {x : Expr} (hp : Plain f)
    (hkept : ∀ v, ∀ a ∈ (f.view v).domain.root,
      (f.pushExpr x).definingExpr? (f.extent a) = f.definingExpr? (f.extent a)) :
    Plain (f.pushExpr x) := by
  have hextent : ∀ a, (f.pushExpr x).extent a = f.extent a := by
    intro a
    unfold extent Fusion.axis
    rw [axes_pushExpr]
  have haxis : ∀ a, (f.pushExpr x).axis a = f.axis a := by
    intro a
    unfold Fusion.axis
    rw [axes_pushExpr]
  refine ⟨?_, ?_, ?_⟩
  · intro v
    rw [view_pushExpr]
    exact hp.rfactor v
  · intro v
    rw [view_pushExpr]
    exact hp.computeAt v
  · intro v a ha
    rw [view_pushExpr] at ha
    cases hp.root v a ha with
    | literal n hn hone =>
        refine .literal n ?_ (by rwa [haxis])
        rw [const?, Value.const?, kind_pushExpr, hextent]
        exact hn
    | size tensor dim hkind hdef hnot =>
        refine .size tensor dim ?_ ?_ (by rwa [haxis])
        · rw [kind_pushExpr, hextent]
          exact hkind
        · rw [hextent, hkept v a ha]
          exact hdef

/-- A new expression, after the steps that made its results. -/
theorem pushExpr {x : Expr} (h : Builds f f₁) (hf : Sound f)
    (hf₁ : f₁.axes = f.axes ∨ ∀ v ∈ x.outputs, f₁.isTensor v = true) (hx : f₁.ExprSound x)
    (hout : ∀ v ∈ x.outputs, f.HasValue v → f₁.isTensor v = true)
    (hnew : Wired f → ∀ v ∈ x.outputs, f₁.Unlinked v ∧ v ∉ x.inputs) :
    Builds f (f₁.pushExpr x) := by
  have hext := extends_pushExpr h.sound h.ext hout
  have hkept : ∀ v, ∀ a ∈ (f₁.view v).domain.root,
      (f₁.pushExpr x).definingExpr? (f₁.extent a) = f₁.definingExpr? (f₁.extent a) := by
    intro v a ha
    have hhas : f₁.HasAxis a := h.sound.domains v a (by simp [TensorDomain.listed, ha])
    rcases hf₁ with haxes | htensor
    · -- no new axis, so the extent is older than the results
      have hold : f.HasAxis a := by rwa [HasAxis, haxes] at hhas
      have hx := hf.extents a hold
      rw [h.ext.extent a hold, hext.definingExpr _ hx.has hx.scalar,
        h.ext.definingExpr _ hx.has hx.scalar]
    · have hx := h.sound.extents a hhas
      have hkeeps := extends_pushExpr h.sound (.refl f₁) fun v hv _ => htensor v hv
      exact hkeeps.definingExpr _ hx.has hx.scalar
  refine ⟨?_, hext, (transforms_pushExpr f₁ x).trans h.transforms, ?_, ?_, ?_,
    fun hp => plain_pushExpr (h.plain hp) hkept,
    fun hw => (h.wired hw).pushExpr_unlinked hx.inputs hx.outputs (hnew hw)⟩
  · rcases hf₁ with haxes | htensor
    · exact hf.pushExpr h.ext h.sound haxes h.transforms hx hout
    · exact h.sound.pushExpr (Extends.refl f₁) h.sound rfl rfl hx fun v hv _ => htensor v hv
  · intro a ha
    unfold Fusion.axis
    rw [axes_pushExpr]
    exact h.axis a ha
  · intro v hv
    rw [view_pushExpr, h.view v hv]
  · intro v hv
    rw [view_pushExpr]
    exact h.fresh v hv

end Builds

/-! ## Lists of new axes -/

/-- Axes made one after another by building steps.  `plain` is a condition under which they are
plain. -/
inductive MakesAxes (plain : Prop) : Fusion → List AxisId → Fusion → Prop where
  | nil {f : Fusion} : MakesAxes plain f [] f
  | cons {f f₁ f' : Fusion} {a : AxisId} {as : List AxisId} (hstep : Builds f f₁)
      (hnew : ¬ f.HasAxis a) (hhas : f₁.HasAxis a) (hplain : plain → f₁.PlainAxis a)
      (hrest : MakesAxes plain f₁ as f') : MakesAxes plain f (a :: as) f'

namespace MakesAxes

variable {plain : Prop} {as : List AxisId}

/-- Making axes is a building step. -/
theorem builds (hf : Sound f) (h : MakesAxes plain f as f') : Builds f f' := by
  induction h with
  | nil => exact Builds.refl hf
  | cons hstep _ _ _ _ ih => exact hstep.trans (ih hstep.sound)

/-- The axes made are new. -/
theorem new (hf : Sound f) (h : MakesAxes plain f as f') :
    ∀ a ∈ as, ¬ f.HasAxis a ∧ f'.HasAxis a ∧ (plain → f'.PlainAxis a) := by
  induction h with
  | nil => simp
  | cons hstep hnew hhas hplain hrest ih =>
      intro b hb
      have hbuilds := hrest.builds hstep.sound
      rcases List.mem_cons.1 hb with rfl | hb
      · refine ⟨hnew, hbuilds.ext.hasAxis hhas, fun hp => ?_⟩
        exact (hplain hp).mono hstep.sound hhas hbuilds.ext (hbuilds.axis b hhas)
      · obtain ⟨hnew', hhas', hplain'⟩ := ih hstep.sound b hb
        exact ⟨fun h => hnew' (hstep.ext.hasAxis h), hhas', hplain'⟩

/-- The axes made are different. -/
theorem nodup (hf : Sound f) (h : MakesAxes plain f as f') : as.Nodup := by
  induction h with
  | nil => exact List.nodup_nil
  | cons hstep _ hhas _ hrest ih =>
      refine List.nodup_cons.2 ⟨fun hmem => ?_, ih hstep.sound⟩
      exact (hrest.new hstep.sound _ hmem).1 hhas

/-- The axes made become the root of a new tensor. -/
theorem pushTensor (hf : Sound f) {t : DataType} {contiguity : List Bool}
    (h : MakesAxes (Plain f) f as f') :
    Builds f (f'.pushValue t (.tensor { domain := .ofRoot as contiguity })) := by
  have hbuilds := h.builds hf
  have hnew := h.new hf
  refine hbuilds.pushTensor (h.nodup hf) (fun a ha => (hnew a ha).2.1) fun hp a ha => ?_
  exact (hnew a ha).2.2 hp

end MakesAxes

/-- An axis made over the extent of a plain one is plain, unless only the new one is a
broadcast. -/
theorem PlainAxis.copied {a b : AxisId} (hb : f.PlainAxis b) (hf : Sound f) (hhas : f.HasAxis b)
    (hext : Extends f f') (he : f'.extent a = f.extent b)
    (hk : (f'.axis a).isBroadcast = true → (f.axis b).isBroadcast = true) : f'.PlainAxis a := by
  have hx := hf.extents b hhas
  cases hb with
  | literal n hn hone =>
      refine .literal n ?_ fun h => hone (hk h)
      rw [he, hext.const? hx.has hx.scalar]
      exact hn
  | size tensor dim hkind hdef hnot =>
      refine .size tensor dim ?_ ?_ ?_
      · rw [he, hext.kind _ hx.has hx.scalar]
        exact hkind
      · rw [he, hext.definingExpr _ hx.has hx.scalar]
        exact hdef
      · by_contra h
        rw [hk (by simpa using h)] at hnot
        cases hnot

end Fusion

open Fusion

namespace Edit

variable {f f' : Fusion}

/-- A new literal. -/
theorem newConst_builds (hf : Sound f) {c : Constant} {v : ValueId}
    (h : Gives (newConst c) f v f') : Builds f f' := by
  obtain ⟨rfl, rfl⟩ := gives_newValue.1 h
  refine Builds.pushScalar hf fun c' hc hint => ?_
  cases hc
  cases c with
  | int n => exact ⟨n, rfl⟩
  | bool b => cases hint
  | float x => cases hint

/-- A new axis over an integer scalar. -/
theorem newAxis_builds (hf : Sound f) {extent : ValueId} {kind : AxisKind} {a : AxisId}
    (hx : f.IntegerScalar extent) (h : Gives (newAxis extent kind) f a f') :
    Builds f f' ∧ ¬ f.HasAxis a ∧ f'.HasAxis a ∧ f'.extent a = extent ∧
      (f'.axis a).kind = kind := by
  obtain ⟨start, f₁, hstart, haxis⟩ := gives_bind.1 h
  have hb₁ := newConst_builds hf hstart
  obtain ⟨-, rfl⟩ := gives_newValue.1 hstart
  obtain ⟨rfl, rfl⟩ := gives_addAxis.1 haxis
  have hb₂ := Builds.pushAxis (x := { start, extent, kind }) hb₁.sound (hx.mono hb₁.ext)
  refine ⟨hb₁.trans hb₂, Nat.lt_irrefl _, ?_, ?_, ?_⟩
  · simp [HasAxis, pushAxis]
  · simp [Fusion.extent, axis_pushAxis]
  · simp [axis_pushAxis]

end Edit

end FusionCompiler
