import FusionCompiler.Proofs.Fusion.Reading

/-!
# Sound fusions

`Fusion.Sound` says what every fusion satisfies that is made by building and
scheduling: definitions and uses point at live expressions, a scalar is computed
from older scalars only, an integer literal is an integer, extents are integer
scalars, and every recorded transform relates older axes to newer ones whose
extents are the quotient or the product that the transform stands for.

`Fusion.Extends` says what no step takes back: scalars keep their meaning, axes
their extents, and recorded transforms stay recorded.

Main results:

- Theorems `Fusion.IsResult.mono`, `Fusion.Recorded.mono`: what was recorded
  about extents stays true when a fusion is extended.
- Theorems `Fusion.Sound.pushValue`, `Fusion.Sound.pushAxis`,
  `Fusion.Sound.pushTransform`, `Fusion.Sound.sameGraph` and
  `Fusion.Sound.sameExtents`: updates of values, axes and transforms keep a
  fusion sound.
-/

namespace FusionCompiler

/-- The literal behind a value is its kind. -/
theorem Value.const?_eq_some_iff {x : Value} {c : Constant} :
    x.const? = some c ↔ x.kind = .scalar (.const c) := by
  unfold const?
  split
  case h_1 d hkind => simp [hkind]
  case h_2 hkind => exact ⟨nofun, fun h => absurd h (hkind c)⟩

/-- Every axis a domain lists. -/
def TensorDomain.listed (d : TensorDomain) : List AxisId :=
  d.root ++ d.logical ++ d.leaf

namespace Fusion

variable {f f' f₁ f₂ f₃ : Fusion}

/-! ## Literals -/

/-- Literals are kinds of scalars. -/
theorem kind_of_const? {v : ValueId} {c : Constant} (h : f.const? v = some c) :
    (f.value v).kind = .scalar (.const c) :=
  Value.const?_eq_some_iff.1 h

/-- A symbolic scalar is no literal. -/
theorem const?_of_symbolic {v : ValueId} (h : (f.value v).kind = .scalar .symbolic) :
    f.const? v = none := by
  rw [const?, Value.const?, h]

/-- A literal is a scalar. -/
theorem isTensor_of_const? {v : ValueId} {c : Constant} (h : f.const? v = some c) :
    f.isTensor v = false := by
  simp [isTensor, Value.isTensor, Value.view?, kind_of_const? h]

/-! ## What a sound fusion records -/

/-- A scalar of the fusion whose type is an integer type. -/
structure IntegerScalar (f : Fusion) (v : ValueId) : Prop where
  has : f.HasValue v
  scalar : f.isTensor v = false
  integer : (f.dtype v).isInt = true

/-- The scalar `z` records the value of an operator over two scalars: as a literal folded from two
literals, or by its definition. -/
inductive IsResult (f : Fusion) (op : BinaryOp) (z x y : ValueId) : Prop where
  | folded (m n : Int) (c : Constant) (hx : f.const? x = some (.int m))
      (hy : f.const? y = some (.int n)) (heval : op.evalInt m n = some c)
      (hz : f.const? z = some (c.cast (f.dtype z)))
  | defined (e : Expr) (hkind : (f.value z).kind = .scalar .symbolic)
      (hdef : f.definingExpr? z = some e) (hop : e.kind = .binary op) (hin : e.inputs = [x, y])

/-- The scalar `z` is what an operator makes of two integer scalars: a literal if both are literals
over which the operator has a value, and a computed scalar otherwise. -/
structure Evaluates (f : Fusion) (op : BinaryOp) (z x y : ValueId) : Prop where
  dtype : f.dtype z = (f.dtype x).promote (f.dtype y)
  folded : ∀ m n c, f.const? x = some (.int m) → f.const? y = some (.int n) →
    op.evalInt m n = some c → f.const? z = some (c.cast (f.dtype z))
  defined : (∀ m n, f.const? x = some (.int m) → f.const? y = some (.int n) →
    op.evalInt m n = none) → (f.value z).kind = .scalar .symbolic ∧
      ∃ e, f.definingExpr? z = some e ∧ e.kind = .binary op ∧ e.inputs = [x, y]

/-- The operands and results of an expression exist, and an expression over scalars has operands and
one result, which is newer than its operands. -/
structure ExprSound (f : Fusion) (x : Expr) : Prop where
  inputs : ∀ v ∈ x.inputs, f.HasValue v
  outputs : ∀ v ∈ x.outputs, f.HasValue v
  kinds : (∀ v ∈ x.outputs, f.isTensor v = true) ∨
    ∃ v, x.outputs = [v] ∧ f.isTensor v = false ∧ x.inputs ≠ [] ∧
      ∀ u ∈ x.inputs, f.isTensor u = false ∧ u.index < v.index

/-- A transform makes newer axes of older ones, and their extents record the quotient or the
product it stands for. -/
def Recorded (f : Fusion) : Transform → Prop
  | .split a o i k innerSplit =>
      f.HasAxis i ∧ a.index < o.index ∧ o.index < i.index ∧ f.IntegerScalar k ∧
        if innerSplit then f.extent i = k ∧ f.IsResult .ceilDiv (f.extent o) (f.extent a) k
        else f.extent o = k ∧ f.IsResult .ceilDiv (f.extent i) (f.extent a) k
  | .merge o i out =>
      f.HasAxis out ∧ o.index < out.index ∧ i.index < out.index ∧
        f.IsResult .mul (f.extent out) (f.extent o) (f.extent i)

/-- What every fusion made by building and scheduling satisfies. -/
structure Sound (f : Fusion) : Prop where
  defined : ∀ v e, f.definition v = some e → ∃ x, f.expr? e = some x ∧ v ∈ x.outputs
  used : ∀ v, ∀ e ∈ f.uses v, ∃ x, f.expr? e = some x ∧ v ∈ x.inputs
  exprs : ∀ e x, f.expr? e = some x → f.ExprSound x
  literals : ∀ v c, f.const? v = some c → (f.dtype v).isInt = true → ∃ n, c = .int n
  extents : ∀ a, f.HasAxis a → f.IntegerScalar (f.extent a)
  recorded : ∀ t, f.HasTransform t → f.Recorded (f.transform t)
  ordered : ∀ s t : TransformId, s.index < t.index → f.HasTransform t →
    ∀ a ∈ (f.transform s).outputs, ∀ b ∈ (f.transform t).outputs, a.index < b.index
  domains : ∀ v, ∀ a ∈ (f.view v).domain.listed, f.HasAxis a

/-- What no step of building or scheduling takes back. -/
structure Extends (f f' : Fusion) : Prop where
  values : f.values.size ≤ f'.values.size
  axes : f.axes.size ≤ f'.axes.size
  transforms : f.transforms.size ≤ f'.transforms.size
  dtype : ∀ v, f.HasValue v → f'.dtype v = f.dtype v
  isTensor : ∀ v, f.HasValue v → f'.isTensor v = f.isTensor v
  kind : ∀ v, f.HasValue v → f.isTensor v = false → (f'.value v).kind = (f.value v).kind
  definingExpr : ∀ v, f.HasValue v → f.isTensor v = false →
    f'.definingExpr? v = f.definingExpr? v
  extent : ∀ a, f.HasAxis a → f'.extent a = f.extent a
  transform : ∀ t, f.HasTransform t → f'.transform t = f.transform t
  exprs : f.exprs.size ≤ f'.exprs.size
  expr : ∀ e x, e.index < f.exprs.size → f'.expr? e = some x → f.expr? e = some x

namespace Extends

/-- Nothing happens. -/
protected theorem refl (f : Fusion) : Extends f f :=
  ⟨Nat.le_refl _, Nat.le_refl _, Nat.le_refl _, fun _ _ => rfl, fun _ _ => rfl,
    fun _ _ _ => rfl, fun _ _ _ => rfl, fun _ _ => rfl, fun _ _ => rfl, Nat.le_refl _,
    fun _ _ _ h => h⟩

/-- What the earlier fusion has, the later one has too. -/
theorem hasValue (h : Extends f f') {v : ValueId} (hv : f.HasValue v) : f'.HasValue v :=
  Nat.lt_of_lt_of_le hv h.values

/-- Axes are not taken back. -/
theorem hasAxis (h : Extends f f') {a : AxisId} (ha : f.HasAxis a) : f'.HasAxis a :=
  Nat.lt_of_lt_of_le ha h.axes

/-- Transforms are not taken back. -/
theorem hasTransform (h : Extends f f') {t : TransformId} (ht : f.HasTransform t) :
    f'.HasTransform t :=
  Nat.lt_of_lt_of_le ht h.transforms

/-- Extensions one after another. -/
protected theorem trans (h : Extends f₁ f₂) (h' : Extends f₂ f₃) : Extends f₁ f₃ where
  values := Nat.le_trans h.values h'.values
  axes := Nat.le_trans h.axes h'.axes
  transforms := Nat.le_trans h.transforms h'.transforms
  dtype v hv := (h'.dtype v (h.hasValue hv)).trans (h.dtype v hv)
  isTensor v hv := (h'.isTensor v (h.hasValue hv)).trans (h.isTensor v hv)
  kind v hv hs :=
    (h'.kind v (h.hasValue hv) ((h.isTensor v hv).trans hs)).trans (h.kind v hv hs)
  definingExpr v hv hs :=
    (h'.definingExpr v (h.hasValue hv) ((h.isTensor v hv).trans hs)).trans (h.definingExpr v hv hs)
  extent a ha := (h'.extent a (h.hasAxis ha)).trans (h.extent a ha)
  transform t ht := (h'.transform t (h.hasTransform ht)).trans (h.transform t ht)
  exprs := Nat.le_trans h.exprs h'.exprs
  expr e x he hx := h.expr e x he (h'.expr e x (Nat.lt_of_lt_of_le he h.exprs) hx)

/-- A literal keeps its value. -/
theorem const? (h : Extends f f') {v : ValueId} (hv : f.HasValue v) (hs : f.isTensor v = false) :
    f'.const? v = f.const? v := by
  unfold Fusion.const? Value.const?
  rw [h.kind v hv hs]

end Extends

/-- A scalar keeps its integer type. -/
theorem IntegerScalar.mono {v : ValueId} (hv : f.IntegerScalar v) (h : Extends f f') :
    f'.IntegerScalar v where
  has := h.hasValue hv.has
  scalar := (h.isTensor v hv.has).trans hv.scalar
  integer := by
    rw [h.dtype v hv.has]
    exact hv.integer

/-- A recorded result stays recorded. -/
theorem IsResult.mono {op : BinaryOp} {z x y : ValueId} (hr : f.IsResult op z x y)
    (hz : f.IntegerScalar z) (hx : f.IntegerScalar x) (hy : f.IntegerScalar y)
    (h : Extends f f') : f'.IsResult op z x y := by
  cases hr with
  | folded m n c hm hn heval hc =>
      refine .folded m n c ?_ ?_ heval ?_
      · rw [h.const? hx.has hx.scalar]
        exact hm
      · rw [h.const? hy.has hy.scalar]
        exact hn
      · rw [h.const? hz.has hz.scalar, h.dtype z hz.has]
        exact hc
  | defined e hkind hdef hop hin =>
      refine .defined e ?_ ?_ hop hin
      · rw [h.kind z hz.has hz.scalar]
        exact hkind
      · rw [h.definingExpr z hz.has hz.scalar]
        exact hdef

/-- What an operator has made of two scalars is the same in every later fusion. -/
theorem Evaluates.mono {op : BinaryOp} {x y z : ValueId} (h : f.Evaluates op z x y)
    (hz : f.IntegerScalar z) (hx : f.IntegerScalar x) (hy : f.IntegerScalar y)
    (hext : Extends f f') : f'.Evaluates op z x y := by
  have hcx := hext.const? hx.has hx.scalar
  have hcy := hext.const? hy.has hy.scalar
  refine ⟨?_, fun m n c hm hn hc => ?_, fun hnone => ?_⟩
  · rw [hext.dtype z hz.has, hext.dtype x hx.has, hext.dtype y hy.has]
    exact h.dtype
  · rw [hext.const? hz.has hz.scalar, hext.dtype z hz.has]
    exact h.folded m n c (hcx ▸ hm) (hcy ▸ hn) hc
  · rw [hext.kind z hz.has hz.scalar, hext.definingExpr z hz.has hz.scalar]
    rw [hcx, hcy] at hnone
    exact h.defined hnone

/-- The defining expression of a value is live and computes it. -/
theorem Sound.live_of_definingExpr? (hf : Sound f) {v : ValueId} {x : Expr}
    (h : f.definingExpr? v = some x) :
    ∃ e, f.definition v = some e ∧ f.expr? e = some x ∧ v ∈ x.outputs := by
  obtain ⟨e, he, rfl⟩ := Option.map_eq_some_iff.1 h
  obtain ⟨x, hx, hout⟩ := hf.defined v e he
  have hexpr : f.expr e = x := by
    rw [expr, hx]
    rfl
  rw [hexpr]
  exact ⟨e, he, hx, hout⟩

/-- An expression stays sound. -/
theorem ExprSound.mono {x : Expr} (hx : f.ExprSound x) (h : Extends f f') : f'.ExprSound x where
  inputs v hv := h.hasValue (hx.inputs v hv)
  outputs v hv := h.hasValue (hx.outputs v hv)
  kinds := by
    rcases hx.kinds with ht | ⟨v, hout, hv, hne, hin⟩
    · exact .inl fun v hv => (h.isTensor v (hx.outputs v hv)).trans (ht v hv)
    · refine .inr ⟨v, hout, ?_, hne, fun u hu => ⟨?_, (hin u hu).2⟩⟩
      · rw [h.isTensor v (hx.outputs v (by simp [hout]))]
        exact hv
      · rw [h.isTensor u (hx.inputs u hu)]
        exact (hin u hu).1

/-- A recorded transform stays recorded. -/
theorem Recorded.mono {x : Transform} (hf : ∀ a, f.HasAxis a → f.IntegerScalar (f.extent a))
    (hx : f.Recorded x) (h : Extends f f') : f'.Recorded x := by
  cases x with
  | split a o i k innerSplit =>
      obtain ⟨hi, hao, hoi, hk, hext⟩ := hx
      have ho : f.HasAxis o := Nat.lt_trans hoi hi
      have ha : f.HasAxis a := Nat.lt_trans hao ho
      refine ⟨h.hasAxis hi, hao, hoi, hk.mono h, ?_⟩
      rw [h.extent a ha, h.extent o ho, h.extent i hi]
      cases innerSplit with
      | true => exact ⟨hext.1, hext.2.mono (hf o ho) (hf a ha) hk h⟩
      | false => exact ⟨hext.1, hext.2.mono (hf i hi) (hf a ha) hk h⟩
  | merge o i out =>
      obtain ⟨hout, ho, hi, hext⟩ := hx
      have ho' : f.HasAxis o := Nat.lt_trans ho hout
      have hi' : f.HasAxis i := Nat.lt_trans hi hout
      refine ⟨h.hasAxis hout, ho, hi, ?_⟩
      rw [h.extent o ho', h.extent i hi', h.extent out hout]
      exact hext.mono (hf out hout) (hf o ho') (hf i hi') h

/-! ## Appending nodes -/

/-- The fusion with one more value. -/
def pushValue (f : Fusion) (t : DataType) (kind : ValueKind) : Fusion :=
  { f with values := f.values.push { dtype := t, kind } }

section PushValue

variable {t : DataType} {kind : ValueKind}

/-- A new value comes behind all others. -/
theorem value_pushValue (f : Fusion) (t : DataType) (kind : ValueKind) (w : ValueId) :
    (f.pushValue t kind).value w =
      if w.index = f.values.size then { dtype := t, kind } else f.value w :=
  value_push f _ w

/-- What was there keeps its value. -/
theorem value_pushValue_old {w : ValueId} (hw : f.HasValue w) :
    (f.pushValue t kind).value w = f.value w := by
  rw [value_pushValue, if_neg (Nat.ne_of_lt hw)]

/-- A new value takes nothing back. -/
theorem extends_pushValue (f : Fusion) (t : DataType) (kind : ValueKind) :
    Extends f (f.pushValue t kind) where
  values := by simp [pushValue]
  axes := Nat.le_refl _
  transforms := Nat.le_refl _
  dtype v hv := by rw [dtype, value_pushValue_old hv, dtype]
  isTensor v hv := by rw [isTensor, value_pushValue_old hv, isTensor]
  kind v hv _ := by rw [value_pushValue_old hv]
  definingExpr v hv _ := by
    unfold definingExpr? definition
    rw [value_pushValue_old hv]
    rfl
  extent _ _ := rfl
  transform _ _ := rfl
  exprs := Nat.le_refl _
  expr _ _ _ h := h

/-- A new value that is no float among the integers, and of which the axes are there. -/
theorem Sound.pushValue (hf : Sound f)
    (hlit : ∀ c, kind = .scalar (.const c) → t.isInt = true → ∃ n, c = .int n)
    (hdom : ∀ x, kind = .tensor x → ∀ a ∈ x.domain.listed, f.HasAxis a) :
    Sound (f.pushValue t kind) := by
  have hext := extends_pushValue f t kind
  refine ⟨?_, ?_, ?_, ?_, ?_, ?_, hf.ordered, ?_⟩
  · intro v e hv
    rw [definition, value_pushValue] at hv
    split at hv
    · simp at hv
    · exact hf.defined v e hv
  · intro v e he
    rw [uses, value_pushValue] at he
    split at he
    · simp at he
    · exact hf.used v e he
  · intro e x hx
    exact (hf.exprs e x hx).mono hext
  · intro v c hv hint
    rw [const?, value_pushValue] at hv
    rw [dtype, value_pushValue] at hint
    split at hv
    case isTrue h =>
        rw [if_pos h] at hint
        exact hlit c (Value.const?_eq_some_iff.1 hv) hint
    case isFalse h =>
        rw [if_neg h] at hint
        exact hf.literals v c hv hint
  · intro a ha
    exact (hf.extents a ha).mono hext
  · intro s hs
    exact (hf.recorded s hs).mono hf.extents hext
  · intro v a ha
    rw [view, value_pushValue] at ha
    split at ha
    · cases hk : kind with
      | scalar k => simp [Value.view?, hk, TensorDomain.listed, TensorDomain.logical] at ha
      | tensor x =>
          rw [hk] at ha
          exact hdom x hk a ha
    · exact hf.domains v a ha

end PushValue

/-- The fusion with one more axis. -/
def pushAxis (f : Fusion) (x : Axis) : Fusion :=
  { f with axes := f.axes.push x }

/-- A new axis is counted. -/
@[simp]
theorem size_pushAxis (f : Fusion) (x : Axis) : (f.pushAxis x).axes.size = f.axes.size + 1 := by
  simp [pushAxis]

/-- A new axis comes behind all others. -/
theorem axis_pushAxis (f : Fusion) (x : Axis) (b : AxisId) :
    (f.pushAxis x).axis b = if b.index = f.axes.size then x else f.axis b :=
  axis_push f x b

/-- What was there keeps its axis. -/
theorem axis_pushAxis_old {x : Axis} {b : AxisId} (hb : f.HasAxis b) :
    (f.pushAxis x).axis b = f.axis b := by
  rw [axis_pushAxis, if_neg (Nat.ne_of_lt hb)]

/-- A new axis takes nothing back. -/
theorem extends_pushAxis (f : Fusion) (x : Axis) : Extends f (f.pushAxis x) where
  values := Nat.le_refl _
  axes := by simp [pushAxis]
  transforms := Nat.le_refl _
  dtype _ _ := rfl
  isTensor _ _ := rfl
  kind _ _ _ := rfl
  definingExpr _ _ _ := rfl
  extent a ha := by rw [extent, axis_pushAxis_old ha, extent]
  transform _ _ := rfl
  exprs := Nat.le_refl _
  expr _ _ _ h := h

/-- A new axis of which the extent is an integer. -/
theorem Sound.pushAxis {x : Axis} (hf : Sound f) (hx : f.IntegerScalar x.extent) :
    Sound (f.pushAxis x) := by
  have hext := extends_pushAxis f x
  refine ⟨hf.defined, hf.used, ?_, hf.literals, ?_, ?_, hf.ordered, ?_⟩
  · intro e y hy
    exact (hf.exprs e y hy).mono hext
  · intro a ha
    rw [extent, axis_pushAxis]
    split
    case isTrue => exact hx.mono hext
    case isFalse h =>
        have hsize : a.index < f.axes.size + 1 := by
          simpa [HasAxis, Fusion.pushAxis] using ha
        exact (hf.extents a (by unfold HasAxis; omega)).mono hext
  · intro s hs
    exact (hf.recorded s hs).mono hf.extents hext
  · intro v a ha
    exact hext.hasAxis (hf.domains v a ha)

/-! ## Updates that keep the graph -/

/-- A change of views keeps a fusion sound as long as the axes in use exist. -/
theorem Sound.sameGraph (hf : Sound f) (h : SameGraph f f')
    (hdom : ∀ v, ∀ a ∈ (f'.view v).domain.listed, f.HasAxis a) : Sound f' ∧ Extends f f' := by
  have hext : Extends f f' := by
    refine ⟨Nat.le_of_eq h.size.symm, Nat.le_of_eq (by rw [h.axes]),
      Nat.le_of_eq (by rw [h.transforms]), fun v _ => h.dtype v, fun v _ => h.isTensor v,
      ?_, fun v _ _ => h.definingExpr? v, fun a _ => congrArg Axis.extent (h.axis a),
      fun t _ => h.transform t, Nat.le_of_eq (by rw [h.exprs]), ?_⟩
    · intro v _ hs
      rw [h.scalar v hs]
    · intro e x _ hx
      unfold expr? at hx ⊢
      rwa [h.exprs] at hx
  have htransform : f'.transform = f.transform := funext h.transform
  have hexpr : f'.expr? = f.expr? := by
    unfold expr?
    rw [h.exprs]
  refine ⟨⟨?_, ?_, ?_, ?_, ?_, ?_, ?_, fun v a ha => hext.hasAxis (hdom v a ha)⟩, hext⟩
  · intro v e hv
    rw [hexpr]
    exact hf.defined v e ((h.definition v).symm.trans hv)
  · intro v e he
    rw [hexpr]
    exact hf.used v e (h.uses v ▸ he)
  · intro e x hx
    rw [hexpr] at hx
    exact (hf.exprs e x hx).mono hext
  · intro v c hv hint
    rw [h.dtype] at hint
    have hs : f.isTensor v = false := by
      rw [← h.isTensor v]
      exact isTensor_of_const? hv
    rw [const?, h.scalar v hs] at hv
    exact hf.literals v c hv hint
  · intro a ha
    have ha' : f.HasAxis a := by
      unfold HasAxis
      rw [← h.axes]
      exact ha
    rw [hext.extent a ha']
    exact (hf.extents a ha').mono hext
  · intro t ht
    have ht' : f.HasTransform t := by
      unfold HasTransform
      rw [← h.transforms]
      exact ht
    rw [htransform]
    exact (hf.recorded t ht').mono hf.extents hext
  · intro s t hst ht
    rw [htransform]
    refine hf.ordered s t hst ?_
    unfold HasTransform
    rw [← h.transforms]
    exact ht

/-- The later fusion differs from the earlier one only in how axes are executed and counted. -/
structure SameExtents (f f' : Fusion) : Prop where
  values : f'.values = f.values
  exprs : f'.exprs = f.exprs
  transforms : f'.transforms = f.transforms
  inputs : f'.inputs = f.inputs
  outputs : f'.outputs = f.outputs
  size : f'.axes.size = f.axes.size
  extent : ∀ a, f'.extent a = f.extent a

namespace SameExtents

/-- Nothing is changed. -/
protected theorem refl (f : Fusion) : SameExtents f f :=
  ⟨rfl, rfl, rfl, rfl, rfl, rfl, fun _ => rfl⟩

/-- Changes of axes one after another. -/
protected theorem trans (h : SameExtents f₁ f₂) (h' : SameExtents f₂ f₃) : SameExtents f₁ f₃ :=
  ⟨h'.values.trans h.values, h'.exprs.trans h.exprs, h'.transforms.trans h.transforms,
    h'.inputs.trans h.inputs, h'.outputs.trans h.outputs, h'.size.trans h.size,
    fun a => (h'.extent a).trans (h.extent a)⟩

/-- A change of an axis that keeps its extent. -/
theorem modifyAxis (f : Fusion) (a : AxisId) {g : Axis → Axis} (hg : ∀ x, (g x).extent = x.extent) :
    SameExtents f (f.modifyAxis a g) where
  values := rfl
  exprs := rfl
  transforms := rfl
  inputs := rfl
  outputs := rfl
  size := size_modifyAxis f a g
  extent b := by
    unfold Fusion.extent
    rw [axis_modifyAxis]
    split
    case isTrue h =>
        rw [h.1]
        exact hg _
    case isFalse => rfl

/-- A list of steps that each keep the extents keeps them. -/
theorem foldl {α : Type} {step : Fusion → α → Fusion} (h : ∀ f x, SameExtents f (step f x))
    (l : List α) (f : Fusion) : SameExtents f (l.foldl step f) := by
  induction l generalizing f with
  | nil => exact SameExtents.refl f
  | cons x l ih => exact (h f x).trans (ih _)

/-- Values are the same. -/
theorem value (h : SameExtents f f') (v : ValueId) : f'.value v = f.value v := by
  unfold Fusion.value
  rw [h.values]

/-- Views are the same. -/
theorem view (h : SameExtents f f') (v : ValueId) : f'.view v = f.view v := by
  unfold Fusion.view
  rw [h.value]

/-- Expressions are the same. -/
theorem expr? (h : SameExtents f f') (e : ExprId) : f'.expr? e = f.expr? e := by
  unfold Fusion.expr?
  rw [h.exprs]

/-- Transforms are the same. -/
theorem transform (h : SameExtents f f') (t : TransformId) : f'.transform t = f.transform t := by
  unfold Fusion.transform
  rw [h.transforms]

/-- Definitions are the same. -/
theorem definingExpr? (h : SameExtents f f') (v : ValueId) :
    f'.definingExpr? v = f.definingExpr? v := by
  unfold Fusion.definingExpr? definition expr
  rw [h.value, funext h.expr?]

/-- Nothing is taken back. -/
theorem toExtends (h : SameExtents f f') : Extends f f' where
  values := Nat.le_of_eq (by rw [h.values])
  axes := Nat.le_of_eq h.size.symm
  transforms := Nat.le_of_eq (by rw [h.transforms])
  dtype v _ := by rw [dtype, h.value, dtype]
  isTensor v _ := by rw [isTensor, h.value, isTensor]
  kind v _ _ := by rw [h.value]
  definingExpr v _ _ := h.definingExpr? v
  extent a _ := h.extent a
  transform t _ := h.transform t
  exprs := Nat.le_of_eq (by rw [h.exprs])
  expr e x _ hx := by rwa [h.expr?] at hx

end SameExtents

/-- Soundness does not ask how an axis is executed. -/
theorem Sound.sameExtents (hf : Sound f) (h : SameExtents f f') : Sound f' := by
  have hext := h.toExtends
  have hhas : ∀ t, f'.HasTransform t → f.HasTransform t := by
    intro t ht
    unfold HasTransform
    rw [← h.transforms]
    exact ht
  refine ⟨?_, ?_, ?_, ?_, ?_, ?_, ?_, ?_⟩
  · intro v e hv
    rw [definition, h.value] at hv
    rw [h.expr?]
    exact hf.defined v e hv
  · intro v e he
    rw [uses, h.value] at he
    rw [h.expr?]
    exact hf.used v e he
  · intro e x hx
    rw [h.expr?] at hx
    exact (hf.exprs e x hx).mono hext
  · intro v c hv hint
    rw [const?, h.value] at hv
    rw [dtype, h.value] at hint
    exact hf.literals v c hv hint
  · intro a ha
    have ha' : f.HasAxis a := by
      unfold HasAxis
      rw [← h.size]
      exact ha
    rw [h.extent]
    exact (hf.extents a ha').mono hext
  · intro t ht
    rw [h.transform]
    exact (hf.recorded t (hhas t ht)).mono hf.extents hext
  · intro s t hst ht
    rw [h.transform, h.transform]
    exact hf.ordered s t hst (hhas t ht)
  · intro v a ha
    rw [h.view] at ha
    exact hext.hasAxis (hf.domains v a ha)

/-! ## Recording a transform -/

/-- Makes a transform the origin of axes. -/
def setOrigins (f : Fusion) (axes : List AxisId) (t : TransformId) : Fusion :=
  axes.foldl (fun f a => f.modifyAxis a fun x => { x with origin := some t }) f

/-- The fusion with one more transform, the origin of its outputs. -/
def pushTransform (f : Fusion) (x : Transform) : Fusion :=
  let f' := f.setOrigins x.outputs ⟨f.transforms.size⟩
  { f' with transforms := f'.transforms.push x }

/-- An origin is no extent. -/
theorem sameExtents_setOrigins (f : Fusion) (axes : List AxisId) (t : TransformId) :
    SameExtents f (f.setOrigins axes t) := by
  refine SameExtents.foldl (fun f a => ?_) axes f
  exact SameExtents.modifyAxis f a fun _ => rfl

/-- The origin of other axes stays. -/
theorem axis_setOrigins_of_not_mem {axes : List AxisId} {t : TransformId} {b : AxisId}
    (hb : b ∉ axes) : (f.setOrigins axes t).axis b = f.axis b := by
  unfold setOrigins
  induction axes generalizing f with
  | nil => rfl
  | cons a axes ih =>
      rw [List.foldl_cons, ih (fun h => hb (List.mem_cons_of_mem a h)), axis_modifyAxis, if_neg]
      rintro ⟨rfl, -⟩
      exact hb List.mem_cons_self

/-- The axes get the origin. -/
theorem origin_setOrigins {axes : List AxisId} {t : TransformId} {b : AxisId} (hb : b ∈ axes)
    (hhas : f.HasAxis b) : ((f.setOrigins axes t).axis b).origin = some t := by
  induction axes generalizing f with
  | nil => cases hb
  | cons a axes ih =>
      have hstep : SameExtents f (f.modifyAxis a fun x => { x with origin := some t }) :=
        SameExtents.modifyAxis f a fun _ => rfl
      by_cases hmem : b ∈ axes
      · exact ih hmem (hstep.toExtends.hasAxis hhas)
      · obtain rfl : b = a := (List.mem_cons.1 hb).resolve_right hmem
        change (((f.modifyAxis b _).setOrigins axes t).axis b).origin = some t
        rw [axis_setOrigins_of_not_mem hmem, axis_modifyAxis, if_pos ⟨rfl, hhas⟩]

/-- An origin is no kind. -/
theorem kind_setOrigins (f : Fusion) (axes : List AxisId) (t : TransformId) (b : AxisId) :
    ((f.setOrigins axes t).axis b).kind = (f.axis b).kind := by
  unfold setOrigins
  induction axes generalizing f with
  | nil => rfl
  | cons a axes ih =>
      rw [List.foldl_cons, ih, axis_modifyAxis]
      split
      case isTrue h => rw [h.1]
      case isFalse => rfl

/-- An origin is no mark of a factored axis. -/
theorem isRFactor_setOrigins (f : Fusion) (axes : List AxisId) (t : TransformId) (b : AxisId) :
    ((f.setOrigins axes t).axis b).isRFactor = (f.axis b).isRFactor := by
  unfold setOrigins
  induction axes generalizing f with
  | nil => rfl
  | cons a axes ih =>
      rw [List.foldl_cons, ih, axis_modifyAxis]
      split
      case isTrue h => rw [h.1]
      case isFalse => rfl

/-- A new transform comes behind all others. -/
theorem transforms_pushTransform (f : Fusion) (x : Transform) :
    (f.pushTransform x).transforms = f.transforms.push x := by
  have h := sameExtents_setOrigins f x.outputs ⟨f.transforms.size⟩
  exact congrArg (·.push x) h.transforms

/-- What was there keeps its transform. -/
theorem transform_pushTransform (f : Fusion) (x : Transform) (t : TransformId) :
    (f.pushTransform x).transform t =
      if t.index = f.transforms.size then x else f.transform t := by
  rw [← transform_push]
  unfold transform
  rw [transforms_pushTransform]

/-- A new transform takes nothing back. -/
theorem extends_pushTransform (f : Fusion) (x : Transform) : Extends f (f.pushTransform x) := by
  have h := sameExtents_setOrigins f x.outputs ⟨f.transforms.size⟩
  have hext := h.toExtends
  refine ⟨hext.values, hext.axes, ?_, hext.dtype, hext.isTensor, hext.kind, hext.definingExpr,
    hext.extent, ?_, hext.exprs, hext.expr⟩
  · rw [transforms_pushTransform]
    simp
  · intro t ht
    rw [transform_pushTransform, if_neg (Nat.ne_of_lt ht)]

/-- Recording a transform that relates axes as it should, and whose outputs are newer than those of
all others. -/
theorem Sound.pushTransform {x : Transform} (hf : Sound f) (hx : f.Recorded x)
    (hnew : ∀ s, f.HasTransform s → ∀ a ∈ (f.transform s).outputs, ∀ b ∈ x.outputs,
      a.index < b.index) : Sound (f.pushTransform x) := by
  have h := sameExtents_setOrigins f x.outputs ⟨f.transforms.size⟩
  have hf₁ := hf.sameExtents h
  have hext := extends_pushTransform f x
  have hhas : ∀ t, (f.pushTransform x).HasTransform t → t.index ≠ f.transforms.size →
      f.HasTransform t := by
    intro t ht hne
    unfold HasTransform at ht ⊢
    rw [transforms_pushTransform, Array.size_push] at ht
    omega
  refine ⟨hf₁.defined, hf₁.used, ?_, hf₁.literals, ?_, ?_, ?_, hf₁.domains⟩
  · intro e y hy
    have hy' : f.expr? e = some y := (h.expr? e).symm.trans hy
    exact (hf.exprs e y hy').mono hext
  · intro a ha
    have ha' : f.HasAxis a := by
      unfold HasAxis
      rw [← h.size]
      exact ha
    rw [hext.extent a ha']
    exact (hf.extents a ha').mono hext
  · intro t ht
    rw [transform_pushTransform]
    split
    case isTrue => exact hx.mono hf.extents hext
    case isFalse hne => exact (hf.recorded t (hhas t ht hne)).mono hf.extents hext
  · intro s t hst ht
    rw [transform_pushTransform, transform_pushTransform]
    have ht' : t.index ≤ f.transforms.size := by
      unfold HasTransform at ht
      rw [transforms_pushTransform, Array.size_push] at ht
      omega
    have hs : f.HasTransform s := Nat.lt_of_lt_of_le hst ht'
    rw [if_neg (Nat.ne_of_lt hs)]
    split
    case isTrue => exact fun a ha b hb => hnew s hs a ha b hb
    case isFalse hne => exact hf.ordered s t hst (hhas t ht hne)

end Fusion
end FusionCompiler
