import FusionCompiler.Fusion.Build
import FusionCompiler.Proofs.Fusion.Failing

/-!
# Steps that only add

Most steps of building and scheduling add scalars, axes, transforms and new
tensors and leave the tensors there are alone.  `Fusion.Adds` says so; it also
says that no new tensor is inlined, and that new tensors computed by one
expression have one view.

Whether a step only adds depends neither on the fusion it is applied to nor on
whether it fails, so the lemmas of this file follow the definitions of the steps.

Main results:

- Theorem `EditE.Adding.bind`: a sequence of steps that only add only adds.
- Theorems `Build.elementwise_adding`, `Build.reductionOp_adding`,
  `Build.welford_adding` and `Build.broadcast_adding`: operations only add.
-/

namespace FusionCompiler

open Fusion

namespace Fusion

variable {f f' f₁ f₂ f₃ : Fusion}

/-- The later fusion has more values and expressions, and what there was is as before.  New tensors
are not inlined, and those computed by one expression have one view. -/
structure Adds (f f' : Fusion) : Prop where
  values : f.values.size ≤ f'.values.size
  exprs : f.exprs.size ≤ f'.exprs.size
  view : ∀ v, f.HasValue v → f'.view v = f.view v
  fresh : ∀ v, ¬ f.HasValue v → (f'.view v).fixedPosition = 0
  definition : ∀ v, f.HasValue v → f'.definition v = f.definition v
  expr? : ∀ e : ExprId, e.index < f.exprs.size → f'.expr? e = f.expr? e
  outputs : ∀ e x, f.exprs.size ≤ e.index → f'.expr? e = some x →
    ∀ v ∈ x.outputs, f'.HasValue v ∧ ¬ f.HasValue v
  shares : ∀ e x, f.exprs.size ≤ e.index → f'.expr? e = some x →
    ∀ v ∈ x.outputs, ∀ w ∈ x.outputs, f'.view w = f'.view v

namespace Adds

/-- What the earlier fusion has, the later one has too. -/
theorem hasValue (h : Adds f f') {v : ValueId} (hv : f.HasValue v) : f'.HasValue v :=
  Nat.lt_of_lt_of_le hv h.values

/-- Doing nothing adds nothing. -/
protected theorem refl (f : Fusion) : Adds f f := by
  refine ⟨Nat.le_refl _, Nat.le_refl _, fun _ _ => rfl, fun v hv => ?_, fun _ _ => rfl,
    fun _ _ => rfl, fun e x he hx => ?_, fun e x he hx => ?_⟩
  · rw [view_of_not_hasValue hv]
    rfl
  · exact absurd (index_lt_of_expr? hx) (Nat.not_lt.2 he)
  · exact absurd (index_lt_of_expr? hx) (Nat.not_lt.2 he)

/-- Additions one after another are additions. -/
protected theorem trans (h : Adds f₁ f₂) (h' : Adds f₂ f₃) : Adds f₁ f₃ := by
  refine ⟨Nat.le_trans h.values h'.values, Nat.le_trans h.exprs h'.exprs, fun v hv => ?_,
    fun v hv => ?_, fun v hv => ?_, fun e he => ?_, fun e x he hx v hv => ?_,
    fun e x he hx v hv w hw => ?_⟩
  · rw [h'.view v (h.hasValue hv), h.view v hv]
  · by_cases hv₂ : f₂.HasValue v
    · rw [h'.view v hv₂]
      exact h.fresh v hv
    · exact h'.fresh v hv₂
  · rw [h'.definition v (h.hasValue hv), h.definition v hv]
  · rw [h'.expr? e (Nat.lt_of_lt_of_le he h.exprs), h.expr? e he]
  · by_cases he₂ : e.index < f₂.exprs.size
    · rw [h'.expr? e he₂] at hx
      obtain ⟨hhas, hnew⟩ := h.outputs e x he hx v hv
      exact ⟨h'.hasValue hhas, hnew⟩
    · obtain ⟨hhas, hnew⟩ := h'.outputs e x (Nat.not_lt.1 he₂) hx v hv
      exact ⟨hhas, fun hold => hnew (h.hasValue hold)⟩
  · by_cases he₂ : e.index < f₂.exprs.size
    · rw [h'.expr? e he₂] at hx
      rw [h'.view v (h.outputs e x he hx v hv).1, h'.view w (h.outputs e x he hx w hw).1]
      exact h.shares e x he hx v hv w hw
    · exact h'.shares e x (Nat.not_lt.1 he₂) hx v hv w hw

/-- A step that changes neither values nor expressions. -/
theorem ofValues (h : Adds f f₁) (hvalues : f₂.values = f₁.values) (hexprs : f₂.exprs = f₁.exprs) :
    Adds f f₂ := by
  have hvalue : ∀ v, f₂.value v = f₁.value v := fun v => by
    rw [Fusion.value, hvalues, Fusion.value]
  have hview : ∀ v, f₂.view v = f₁.view v := fun v => by rw [Fusion.view, hvalue, Fusion.view]
  have hexpr : ∀ e, f₂.expr? e = f₁.expr? e := fun e => by rw [Fusion.expr?, hexprs, Fusion.expr?]
  refine ⟨hvalues ▸ h.values, hexprs ▸ h.exprs, fun v hv => (hview v).trans (h.view v hv),
    fun v hv => (hview v).symm ▸ h.fresh v hv, fun v hv => ?_,
    fun e he => (hexpr e).trans (h.expr? e he), fun e x he hx v hv => ?_,
    fun e x he hx v hv w hw => ?_⟩
  · rw [Fusion.definition, hvalue]
    exact h.definition v hv
  · rw [hexpr] at hx
    rw [HasValue, hvalues]
    exact h.outputs e x he hx v hv
  · rw [hexpr] at hx
    rw [hview, hview]
    exact h.shares e x he hx v hv w hw

/-- A new scalar, or a new tensor that is not inlined, is an addition. -/
theorem pushValue (h : Adds f f₁) (t : DataType) {kind : ValueKind}
    (hkind : ∀ x, kind = .tensor x → x.fixedPosition = 0) : Adds f (f₁.pushValue t kind) := by
  have hvalue : ∀ v, f₁.HasValue v → (f₁.pushValue t kind).value v = f₁.value v :=
    fun v hv => value_pushValue_old hv
  have hview : ∀ v, f₁.HasValue v → (f₁.pushValue t kind).view v = f₁.view v := fun v hv => by
    rw [Fusion.view, hvalue v hv, Fusion.view]
  have hsize : f₁.values.size ≤ (f₁.pushValue t kind).values.size := by
    simp [Fusion.pushValue]
  refine ⟨Nat.le_trans h.values hsize, h.exprs,
    fun v hv => (hview v (h.hasValue hv)).trans (h.view v hv), fun v hv => ?_, fun v hv => ?_,
    h.expr?, fun e x he hx v hv => ?_, fun e x he hx v hv w hw => ?_⟩
  · rw [Fusion.view, value_pushValue]
    split
    · cases kind with
      | scalar k => rfl
      | tensor x => exact hkind x rfl
    · exact h.fresh v hv
  · rw [Fusion.definition, hvalue v (h.hasValue hv)]
    exact h.definition v hv
  · obtain ⟨hhas, hnew⟩ := h.outputs e x he hx v hv
    exact ⟨Nat.lt_of_lt_of_le hhas hsize, hnew⟩
  · rw [hview v (h.outputs e x he hx v hv).1, hview w (h.outputs e x he hx w hw).1]
    exact h.shares e x he hx v hv w hw

/-- A new tensor is not inlined. -/
theorem pushTensor (h : Adds f f₁) (t : DataType) (d : TensorDomain) :
    Adds f (f₁.pushValue t (.tensor { domain := d })) :=
  h.pushValue t fun x hx => by
    cases hx
    rfl

/-- An expression that computes new values with one view. -/
theorem pushExpr (h : Adds f f₁) {x : Expr}
    (hnew : ∀ v ∈ x.outputs, f₁.HasValue v ∧ ¬ f.HasValue v)
    (hshares : ∀ v ∈ x.outputs, ∀ w ∈ x.outputs, f₁.view w = f₁.view v) :
    Adds f (f₁.pushExpr x) := by
  refine ⟨?_, ?_, fun v hv => ?_, fun v hv => ?_, fun v hv => ?_, fun e he => ?_,
    fun e y he hy v hv => ?_, fun e y he hy v hv w hw => ?_⟩
  · rw [size_pushExpr]
    exact h.values
  · rw [exprs_size_pushExpr]
    exact Nat.le_succ_of_le h.exprs
  · rw [view_pushExpr]
    exact h.view v hv
  · rw [view_pushExpr]
    exact h.fresh v hv
  · rw [definition_pushExpr, if_neg fun hmem => (hnew v hmem.1).2 hv]
    exact h.definition v hv
  · rw [expr?_pushExpr, if_neg (Nat.ne_of_lt (Nat.lt_of_lt_of_le he h.exprs))]
    exact h.expr? e he
  · rw [HasValue, size_pushExpr]
    rw [expr?_pushExpr] at hy
    split at hy
    · cases hy
      exact hnew v hv
    · exact h.outputs e y he hy v hv
  · rw [view_pushExpr, view_pushExpr]
    rw [expr?_pushExpr] at hy
    split at hy
    · cases hy
      exact hshares v hv w hw
    · exact h.shares e y he hy v hv w hw

/-- A new tensor gets another domain after steps that only add. -/
theorem modifyDomain (h : Adds f f₁) (hexprs : f₁.exprs = f.exprs) (h' : Adds f₁ f₂) {v : ValueId}
    (hhas : f₁.HasValue v) (hnew : ¬ f.HasValue v) (d : TensorDomain) :
    Adds f (f₂.modifyView v fun x => { x with domain := d }) := by
  have hall := h.trans h'
  have hview : ∀ w, w ≠ v → (f₂.modifyView v fun x => { x with domain := d }).view w = f₂.view w :=
    fun w hw => by rw [view_modifyView, if_neg fun heq => hw heq.1]
  refine ⟨?_, hall.exprs, fun w hw => ?_, fun w hw => ?_, fun w hw => ?_, hall.expr?,
    fun e x he hx w hw => ?_, fun e x he hx u hu w hw => ?_⟩
  · rw [size_modifyView]
    exact hall.values
  · rw [hview w fun heq => hnew (heq ▸ hw)]
    exact hall.view w hw
  · rw [view_modifyView]
    split
    · exact hall.fresh v hnew
    · exact hall.fresh w hw
  · rw [definition_modifyView]
    exact hall.definition w hw
  · rw [HasValue, size_modifyView]
    exact hall.outputs e x he hx w hw
  · -- what the new expressions compute came in after the tensor
    have hlate : ∀ w ∈ x.outputs, w ≠ v := fun w hw heq =>
      (h'.outputs e x (hexprs ▸ he) hx w hw).2 (heq ▸ hhas)
    rw [hview u (hlate u hu), hview w (hlate w hw)]
    exact hall.shares e x he hx u hu w hw

/-- A new axis is in no view yet. -/
theorem pushAxis (h : Adds f f₁) (x : Axis) : Adds f (f₁.pushAxis x) :=
  h.ofValues rfl rfl

/-- Views name axes, so a change of an axis changes no view. -/
theorem modifyAxis (h : Adds f f₁) (a : AxisId) (g : Axis → Axis) : Adds f (f₁.modifyAxis a g) :=
  h.ofValues rfl rfl

/-- A new transform changes no view. -/
theorem pushTransform (h : Adds f f₁) (x : Transform) : Adds f (f₁.pushTransform x) := by
  have hsame := sameExtents_setOrigins f₁ x.outputs ⟨f₁.transforms.size⟩
  exact h.ofValues hsame.values hsame.exprs

/-- The definition of an old value computes what it computed. -/
theorem definingExpr? (h : Adds f f') (hf : Sound f) {v : ValueId} (hv : f.HasValue v) :
    f'.definingExpr? v = f.definingExpr? v := by
  unfold Fusion.definingExpr?
  rw [h.definition v hv]
  cases hdef : f.definition v with
  | none => rfl
  | some e =>
      obtain ⟨x, hx, -⟩ := hf.defined v e hdef
      rw [Option.map_some, Option.map_some, Fusion.expr, h.expr? e (index_lt_of_expr? hx),
        Fusion.expr]

/-- An old value keeps its siblings. -/
theorem siblings (h : Adds f f') (hf : Sound f) (hext : Extends f f') {v : ValueId}
    (hv : f.HasValue v) : f'.siblings v = f.siblings v := by
  unfold Fusion.siblings
  rw [h.definingExpr? hf hv]
  cases hdef : f.definingExpr? v with
  | none => rfl
  | some x =>
      obtain ⟨e, he, rfl⟩ := Option.map_eq_some_iff.1 hdef
      obtain ⟨y, hy, -⟩ := hf.defined v e he
      have hexpr : f.expr e = y := by
        rw [Fusion.expr, hy]
        rfl
      refine List.filter_congr fun o ho => ?_
      rw [hexpr] at ho
      rw [hext.isTensor o ((hf.exprs e y hy).outputs o ho)]

end Adds
end Fusion

/-! ## Sequences -/

namespace Edit

variable {α β : Type} {x : Edit α}

/-- Whatever fusion the edit is applied to, it only adds to it. -/
def Adding (x : Edit α) : Prop :=
  ∀ f a f', Gives x f a f' → Adds f f'

namespace Adding

/-- A step that only gives a result adds nothing. -/
protected theorem pure (a : α) : Adding (pure a) := by
  intro f b f' h
  obtain ⟨-, rfl⟩ := gives_pure.1 h
  exact .refl f

/-- Two edits that only add, the second of which may depend on the result of the first. -/
protected theorem bind {k : α → Edit β} (hx : Adding x) (hk : ∀ a, Adding (k a)) :
    Adding (x >>= k) := by
  intro f b f' h
  obtain ⟨a, f₁, ha, hb⟩ := gives_bind.1 h
  exact (hx f a f₁ ha).trans (hk a f₁ b f' hb)

/-- Reading the fusion adds nothing. -/
protected theorem get_bind {k : Fusion → Edit β} (hk : ∀ f, Adding (k f)) : Adding (get >>= k) := by
  refine .bind (fun f g f' h => ?_) hk
  obtain ⟨-, rfl⟩ := gives_get.1 h
  exact .refl f

/-- An edit that replaces the fusion adds what the replacement has in addition. -/
protected theorem modify {g : Fusion → Fusion} (hg : ∀ f, Adds f (g f)) :
    Adding (modify g : Edit PUnit) := by
  intro f u f' h
  obtain rfl := gives_modify.1 h
  exact hg f

/-- Repeating edits that only add, with their results. -/
protected theorem mapM {l : List β} {k : β → Edit α} (hk : ∀ b, Adding (k b)) :
    Adding (l.mapM k) := by
  induction l with
  | nil => exact .pure _
  | cons b l ih =>
      rw [List.mapM_cons]
      exact (hk b).bind fun _ => ih.bind fun _ => .pure _

/-- Repeating edits that only add. -/
protected theorem forM {l : List β} {k : β → Edit PUnit} (hk : ∀ b, Adding (k b)) :
    Adding (l.forM k) := by
  induction l with
  | nil => exact .pure _
  | cons b l ih => exact (hk b).bind fun _ => ih

end Adding

/-- A new value is an addition, unless it is an inlined tensor. -/
theorem newValue_adding {t : DataType} {kind : ValueKind}
    (hkind : ∀ x, kind = .tensor x → x.fixedPosition = 0) : Adding (newValue t kind) := by
  intro f v f' h
  obtain ⟨-, rfl⟩ := gives_newValue.1 h
  exact (Adds.refl f).pushValue t hkind

/-- A literal is a new scalar. -/
theorem newConst_adding (c : Constant) : Adding (newConst c) :=
  newValue_adding fun x hx => by cases hx

/-- A literal of a chosen type is a new scalar. -/
theorem newConstTyped_adding (c : Constant) (t : DataType) : Adding (newConstTyped c t) :=
  newValue_adding fun x hx => by cases hx

/-- Axes belong to no tensor when they are made. -/
theorem addAxis_adding (x : Axis) : Adding (addAxis x) := by
  intro f a f' h
  obtain ⟨-, rfl⟩ := gives_addAxis.1 h
  exact (Adds.refl f).pushAxis x

/-- A new axis comes with a new scalar for its start. -/
theorem newAxis_adding (extent : ValueId) (kind : AxisKind) : Adding (newAxis extent kind) :=
  (newConst_adding _).bind fun _ => addAxis_adding _

/-- A recorded transform leaves all tensors as they are. -/
theorem addTransform_adding (x : Transform) : Adding (addTransform x) := by
  intro f t f' h
  obtain ⟨-, rfl⟩ := gives_addTransform.1 h
  exact (Adds.refl f).pushTransform x

end Edit

namespace EditE

variable {ε ε' α β : Type} {x : EditE ε α}

/-- Whatever fusion the edit is applied to, and whether it returns or fails, it only adds to it. -/
def Adding (x : EditE ε α) : Prop :=
  ∀ f f', x.Leaves f f' → Adds f f'

namespace Adding

/-- A result without a step adds nothing. -/
protected theorem pure (a : α) : Adding (pure a : EditE ε α) := by
  intro f f' h
  obtain ⟨b, hb⟩ | h := leaves_iff.1 h
  · obtain ⟨-, rfl⟩ := returns_pure.1 hb
    exact .refl f
  · exact absurd h fails_pure

/-- A sequence of steps that only add only adds. -/
protected theorem bind {k : α → EditE ε β} (hx : Adding x) (hk : ∀ a, Adding (k a)) :
    Adding (x >>= k) := by
  intro f f' h
  obtain h | ⟨a, f₁, ha, hb⟩ := leaves_bind.1 h
  · exact hx f f' h.leaves
  · exact (hx f f₁ ha.leaves).trans (hk a f₁ f' hb)

/-- An edit that cannot fail. -/
protected theorem lift {y : Edit α} (hy : Edit.Adding y) : Adding (liftM y : EditE ε α) := by
  intro f f' h
  obtain ⟨a, ha⟩ | h := leaves_iff.1 h
  · exact hy f a f' (returns_lift.1 ha)
  · exact absurd h fails_lift

/-- A failure adds nothing. -/
protected theorem throw (e : ε) : Adding (throw e : EditE ε α) := by
  intro f f' h
  obtain ⟨a, ha⟩ | h := leaves_iff.1 h
  · exact absurd ha returns_throw
  · obtain rfl := fails_throw.1 h
    exact .refl f

/-- What comes after an error is not done. -/
protected theorem throw_bind (e : ε) (k : α → EditE ε β) : Adding (throw e >>= k) := by
  intro f f' h
  obtain h | ⟨a, f₁, ha, -⟩ := leaves_bind.1 h
  · exact Adding.throw e f f' h.leaves
  · exact absurd ha returns_throw

/-- A check before an edit that only adds. -/
protected theorem guard {c : Prop} [Decidable c] {e : ε} {k : β → EditE ε α} (hx : Adding x) :
    Adding (if c then throw e >>= k else x) := by
  split
  · exact .throw_bind e k
  · exact hx

/-- What does nothing when it fails only has to add when it returns. -/
theorem ofAtomic (hx : Atomic x) (hreturns : ∀ f a f', x.Returns f a f' → Adds f f') : Adding x := by
  intro f f' h
  obtain ⟨a, ha⟩ | h := leaves_iff.1 h
  · exact hreturns f a f' ha
  · obtain rfl := hx f f' h
    exact .refl f

/-- Reading the fusion adds nothing, also before a step that may fail. -/
protected theorem get_bind {k : Fusion → EditE ε β} (hk : ∀ f, Adding (k f)) :
    Adding (get >>= k) := by
  intro f f' h
  obtain rfl | ⟨g, hget, h⟩ := Reads.get.leaves_bind h
  · exact .refl f
  · obtain ⟨rfl, -⟩ := returns_get.1 hget
    exact hk f f f' h

/-- A replacement of the fusion that cannot fail. -/
protected theorem modify {g : Fusion → Fusion} (hg : ∀ f, Adds f (g f)) :
    Adding (modify g : EditE ε PUnit) := by
  intro f f' h
  obtain ⟨u, hu⟩ | h := leaves_iff.1 h
  · obtain rfl := returns_modify.1 hu
    exact hg f
  · exact absurd h fails_modify

/-- A check adds nothing, whether it passes or fails. -/
protected theorem ensure (c : Bool) (e : ε) : Adding (ensure c e) := by
  cases c with
  | true => exact .pure _
  | false => exact .throw _

/-- A computation that does not look at the fusion. -/
protected theorem ofExcept (y : Except ε α) : Adding (ofExcept y) := by
  cases y with
  | ok a => exact .pure a
  | error e => exact .throw e

/-- Errors under another name. -/
protected theorem mapError {g : ε → ε'} (hx : Adding x) : Adding (mapError g x) :=
  fun f f' h => hx f f' (leaves_mapError.1 h)

/-- Steps of which the result is dropped. -/
protected theorem discard (hx : Adding x) : Adding (discard x) :=
  fun f f' h => hx f f' (leaves_discard.1 h)

/-- Repeating steps that may fail: what there was until a failure stays. -/
protected theorem mapM {l : List β} {k : β → EditE ε α} (hk : ∀ b, Adding (k b)) :
    Adding (l.mapM k) := by
  induction l with
  | nil => exact .pure _
  | cons b l ih =>
      rw [List.mapM_cons]
      exact (hk b).bind fun _ => ih.bind fun _ => .pure _

end Adding
end EditE

/-! ## Building -/

namespace Build

/-- A literal operand becomes a new scalar, and a value stays what it is. -/
theorem resolve_adding (x : Operand) : Edit.Adding (resolve x) := by
  cases x with
  | value v => exact .pure v
  | literal c => exact Edit.newConst_adding c

/-- Looking a tensor up. -/
theorem ensureTensor_adding (v : ValueId) : EditE.Adding (ensureTensor v) := by
  unfold ensureTensor
  refine .get_bind fun f => ?_
  split
  · exact .pure _
  · exact .throw _

/-- The axes of a new input tensor and their sizes. -/
theorem declareAxes_adding (tensor : ValueId) (dim : Nat) (sizes : List Int) :
    Edit.Adding (declareAxes tensor dim sizes) := by
  induction sizes generalizing dim with
  | nil => exact .pure _
  | cons size sizes ih =>
      have hrest : ∀ a, Edit.Adding (do
          return a :: (← declareAxes tensor (dim + 1) sizes) : Edit (List AxisId)) :=
        fun a => (ih (dim + 1)).bind fun _ => .pure _
      unfold declareAxes
      dsimp only
      split
      · exact (Edit.newValue_adding fun x hx => by cases hx).bind fun _ =>
          (Edit.newAxis_adding _ _).bind hrest
      · split <;> exact (Edit.newConst_adding _).bind fun _ => (Edit.newAxis_adding _ _).bind hrest

/-- A new input tensor is not inlined. -/
theorem declareTensor_adding (sizes : List Int) (contiguity : List Bool) (t : DataType) :
    Edit.Adding (declareTensor sizes contiguity t) := by
  intro f v f' h
  unfold declareTensor at h
  simp only [Edit.gives_bind, Edit.newTensor, Edit.gives_newValue, Edit.gives_modify,
    Edit.gives_pure] at h
  obtain ⟨tensor, f₁, ⟨rfl, rfl⟩, root, f₂, hroot, _, f₃, rfl, -, rfl⟩ := h
  have h₁ := (Adds.refl f).pushTensor t (.contiguous [])
  exact h₁.modifyDomain rfl (declareAxes_adding _ _ _ _ _ _ hroot) (by simp [HasValue, pushValue])
    (Nat.lt_irrefl _) _

/-- The axes of an element-wise result. -/
theorem elementwiseAxes_adding (columns : List (List AxisId)) :
    Edit.Adding (elementwiseAxes columns) := by
  induction columns with
  | nil => exact .pure _
  | cons column columns ih =>
      have hrest : ∀ a, Edit.Adding (do
          return a :: (← elementwiseAxes columns) : Edit (List AxisId)) :=
        fun a => ih.bind fun _ => .pure _
      unfold elementwiseAxes
      refine .get_bind fun f => ?_
      dsimp only
      split <;> exact (Edit.newAxis_adding _ _).bind hrest

/-- A new value with the expression that computes it. -/
theorem result_adding {ε : Type} {t : DataType} {value : ValueKind} (kind : ExprKind)
    (ins : List ValueId) (hvalue : ∀ x, value = .tensor x → x.fixedPosition = 0) :
    EditE.Adding (do
      let out ← Edit.newValue t value
      discard (Edit.addExpr kind ins [out])
      return out : EditE ε ValueId) := by
  intro f f' h
  have hadds : Adds f ((f.pushValue t value).pushExpr ⟨kind, ins, [⟨f.values.size⟩]⟩) :=
    ((Adds.refl f).pushValue t hvalue).pushExpr (fun v hv => by
      rw [List.mem_singleton.1 hv]
      exact ⟨by simp [HasValue, pushValue], Nat.lt_irrefl _⟩) fun v hv w hw => by
      rw [List.mem_singleton.1 hv, List.mem_singleton.1 hw]
  obtain ⟨v, h⟩ | h := EditE.leaves_iff.1 h
  · simp only [EditE.returns_bind, EditE.returns_lift, EditE.returns_discard,
      Edit.gives_newValue, Edit.gives_addExpr, EditE.returns_pure] at h
    obtain ⟨out, f₁, ⟨rfl, rfl⟩, _, f₂, ⟨e, -, rfl⟩, -, rfl⟩ := h
    exact hadds
  · simp at h

/-- An element-wise operation only adds. -/
theorem elementwise_adding (kind : ExprKind) (operands : List ValueId) (t : DataType) :
    EditE.Adding (elementwise kind operands t) := by
  unfold elementwise
  refine .get_bind fun f => ?_
  dsimp only
  split
  · exact result_adding kind operands fun x hx => by cases hx
  · split
    · exact .throw_bind _ _
    · refine .bind (.lift (elementwiseAxes_adding _)) fun root => ?_
      exact result_adding kind operands fun x hx => by
        cases hx
        rfl

/-- A unary operation, folded or not, adds its result. -/
theorem unaryOp_adding (op : UnaryOp) (x : Operand) : EditE.Adding (unaryOp op x) := by
  unfold unaryOp
  refine .bind (.lift (resolve_adding x)) fun v => .get_bind fun f => ?_
  dsimp only
  refine .guard ?_
  split
  · exact .lift (Edit.newConstTyped_adding _ _)
  · exact elementwise_adding _ _ _

/-- A copy adds a tensor or a scalar. -/
theorem copy_adding (x : Operand) : EditE.Adding (copy x) := by
  unfold copy
  exact .bind (.lift (resolve_adding x)) fun v => .get_bind fun f => elementwise_adding _ _ _

/-- A conversion adds its result. -/
theorem cast_adding (x : Operand) (t : DataType) : EditE.Adding (cast x t) := by
  unfold cast
  refine .bind (.lift (resolve_adding x)) fun v => .get_bind fun f => ?_
  split
  · exact .lift (Edit.newConstTyped_adding _ _)
  · exact elementwise_adding _ _ _

/-- A value known before anything is computed, or an element-wise result. -/
theorem folded_adding (c : Option Constant) (t : DataType) (kind : ExprKind)
    (operands : List ValueId) :
    EditE.Adding (match c with
      | some c => (Edit.newConstTyped c t : EditE FusionError ValueId)
      | none => elementwise kind operands t) := by
  cases c with
  | some c => exact .lift (Edit.newConstTyped_adding c t)
  | none => exact elementwise_adding kind operands t

/-- A binary operation adds its result. -/
theorem binaryOp_adding (op : BinaryOp) (x y : Operand) : EditE.Adding (binaryOp op x y) := by
  unfold binaryOp
  refine .bind (.lift (resolve_adding x)) fun v => .bind (.lift (resolve_adding y)) fun w =>
    .get_bind fun f => ?_
  dsimp only
  exact .guard (folded_adding _ _ _ _)

/-- A choice adds its result. -/
theorem select_adding (x y z : Operand) : EditE.Adding (select x y z) := by
  unfold select
  refine .bind (.lift (resolve_adding x)) fun u => .bind (.lift (resolve_adding y)) fun v =>
    .bind (.lift (resolve_adding z)) fun w => .get_bind fun f => ?_
  dsimp only
  exact .guard (folded_adding _ _ _ _)

/-- The axes of a reduction, of which some are kept. -/
theorem reducedAxes_adding (reduced : List Nat) (i : Nat) (axes : List AxisId) :
    Edit.Adding (reducedAxes reduced i axes) := by
  induction axes generalizing i with
  | nil => exact .pure _
  | cons a axes ih =>
      unfold reducedAxes
      refine .get_bind fun f => ?_
      dsimp only
      exact .bind (Edit.newAxis_adding _ _) fun _ => (ih (i + 1)).bind fun _ => .pure _

/-- The root of a reduction. -/
theorem reductionRoot_adding (tensor : ValueId) (axes : List Int) :
    EditE.Adding (reductionRoot tensor axes) := by
  unfold reductionRoot
  exact .guard (.get_bind fun f => .bind (.ofExcept _) fun _ => .lift (reducedAxes_adding _ _ _))

/-- A reduction with an initial value. -/
theorem reductionOp_adding (op : BinaryOp) (axes : List Int) (init : Constant) (tensor : ValueId) :
    EditE.Adding (reductionOp op axes init tensor) := by
  unfold reductionOp
  refine .bind (ensureTensor_adding tensor).discard fun _ => ?_
  refine .guard (.get_bind fun f => .bind (reductionRoot_adding _ _) fun root => ?_)
  exact result_adding _ _ fun x hx => by
    cases hx
    rfl

/-- A reduction from the neutral value of its operator. -/
theorem reduce_adding (op : BinaryOp) (tensor : ValueId) (axes : List Int) :
    EditE.Adding (reduce op tensor axes) := by
  unfold reduce
  refine .get_bind fun f => ?_
  split
  · exact reductionOp_adding _ _ _ _
  · exact .throw _

/-- A new tensor shows the view it was made with. -/
theorem view_pushTensor (f : Fusion) (t : DataType) (x : TensorView) (v : ValueId) :
    (f.pushValue t (.tensor x)).view v = if v.index = f.values.size then x else f.view v := by
  rw [Fusion.view, value_pushValue]
  split
  · rfl
  · rfl

/-- Three new tensors with one domain and the expression that computes them. -/
theorem results_adding {ε : Type} (kind : ExprKind) (ins : List ValueId) (domain : TensorDomain)
    (t : DataType) :
    EditE.Adding (do
      let avg ← Edit.newTensor domain t
      let varSum ← Edit.newTensor domain t
      let n ← Edit.newTensor domain .int64
      discard (Edit.addExpr kind ins [avg, varSum, n])
      return ⟨avg, varSum, n⟩ : EditE ε (Moments ValueId)) := by
  intro f f' h
  obtain ⟨m, h⟩ | h := EditE.leaves_iff.1 h
  · simp only [EditE.returns_bind, EditE.returns_lift, EditE.returns_discard, EditE.returns_pure,
      Edit.newTensor, Edit.gives_newValue, Edit.gives_addExpr] at h
    obtain ⟨avg, f₁, ⟨rfl, rfl⟩, varSum, f₂, ⟨rfl, rfl⟩, n, f₃, ⟨rfl, rfl⟩, -, f₄, ⟨-, -, rfl⟩,
      -, rfl⟩ := h
    have hvalues :=
      (((Adds.refl f).pushTensor t domain).pushTensor t domain).pushTensor .int64 domain
    have hsize : ∀ (g : Fusion) (t : DataType) (x : ValueKind),
        (g.pushValue t x).values.size = g.values.size + 1 := fun g t x => Array.size_push _
    refine hvalues.pushExpr (fun v hv => ?_) fun v hv w hw => ?_
    · simp only [List.mem_cons, List.not_mem_nil, or_false] at hv
      rcases hv with rfl | rfl | rfl <;> simp only [HasValue, hsize] <;> omega
    · simp only [List.mem_cons, List.not_mem_nil, or_false] at hv hw
      rcases hv with rfl | rfl | rfl <;> rcases hw with rfl | rfl | rfl <;>
        simp [view_pushTensor, hsize]
  · simp at h

/-- The three results of a Welford reduction are computed by one expression and share one view. -/
theorem welford_adding (tensor : ValueId) (axes : List Int) :
    EditE.Adding (welford tensor axes) := by
  unfold welford
  refine .bind (ensureTensor_adding tensor).discard fun _ => .get_bind fun f => ?_
  dsimp only
  exact .guard (.bind (reductionRoot_adding _ _) fun _ => results_adding _ _ _ _)

/-- The axes of a broadcast. -/
theorem broadcastAxes_adding (flags : List Bool) (shape : List AxisId) :
    Edit.Adding (broadcastAxes flags shape) := by
  induction flags generalizing shape with
  | nil => exact .pure _
  | cons flag flags ih =>
      cases flag with
      | true =>
          unfold broadcastAxes
          exact .bind (Edit.newConst_adding _) fun _ => .bind (Edit.newAxis_adding _ _) fun _ =>
            .bind (ih shape) fun _ => .pure _
      | false =>
          unfold broadcastAxes
          exact .get_bind fun f => .bind (Edit.newAxis_adding _ _) fun _ =>
            .bind (ih shape.tail) fun _ => .pure _

/-- A broadcast adds its result. -/
theorem broadcast_adding (tensor : ValueId) (flags : List Bool) :
    EditE.Adding (broadcast tensor flags) := by
  unfold broadcast
  refine .bind (ensureTensor_adding tensor).discard fun _ => .get_bind fun f => ?_
  dsimp only
  refine .guard (.bind (.lift (broadcastAxes_adding _ _)) fun root => ?_)
  exact result_adding _ _ fun x hx => by
    cases hx
    rfl

/-! ## Inputs and outputs -/

/-- Declaring an input changes no value. -/
theorem addInput_adding (v : ValueId) : EditE.Adding (addInput v) := by
  refine .ofAtomic (addInput_atomic v) fun f u f' h => ?_
  obtain ⟨-, -, rfl⟩ := returns_addInput.1 h
  exact (Adds.refl f).ofValues rfl rfl

/-- Declaring an output changes no value. -/
theorem addOutput_adding (v : ValueId) : EditE.Adding (addOutput v) := by
  refine .ofAtomic (addOutput_atomic v) fun f u f' h => ?_
  obtain ⟨-, -, rfl⟩ := returns_addOutput.1 h
  exact (Adds.refl f).ofValues rfl rfl

/-- Declaring an alias changes no value. -/
theorem addAlias_adding (output input : ValueId) : EditE.Adding (addAlias output input) := by
  refine .ofAtomic (addAlias_atomic output input) fun f u f' h => ?_
  rw [← returns_addAlias h]
  exact (Adds.refl f).ofValues rfl rfl

end Build
end FusionCompiler
