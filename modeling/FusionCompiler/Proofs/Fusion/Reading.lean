import Mathlib.Tactic.Common
import FusionCompiler.Fusion.Graph
import FusionCompiler.Proofs.Outcome

/-!
# Reading a fusion after an update

A fusion is written by a few updates: one value, one axis or one view is
changed, a list of values is changed in the same way, or a node is appended to
an arena.  For each update and each way to read a fusion this file says what is
read afterwards, so that later proofs never open the arenas.

Main results:

- Theorem `Fusion.value_modifyValues`: an idempotent change of several values is
  seen exactly at these values.
- Theorem `Fusion.view_syncSiblings`: synchronization shows the view of one
  tensor at all of its siblings and changes no other view.
-/

namespace FusionCompiler
namespace Fusion

variable {f : Fusion}

/-- The fusion has a value of this handle. -/
def HasValue (f : Fusion) (v : ValueId) : Prop :=
  v.index < f.values.size

/-- The fusion has an axis of this handle. -/
def HasAxis (f : Fusion) (a : AxisId) : Prop :=
  a.index < f.axes.size

/-- The fusion has a transform of this handle. -/
def HasTransform (f : Fusion) (t : TransformId) : Prop :=
  t.index < f.transforms.size

instance (f : Fusion) (v : ValueId) : Decidable (f.HasValue v) :=
  inferInstanceAs (Decidable (_ < _))

instance (f : Fusion) (a : AxisId) : Decidable (f.HasAxis a) :=
  inferInstanceAs (Decidable (_ < _))

instance (f : Fusion) (t : TransformId) : Decidable (f.HasTransform t) :=
  inferInstanceAs (Decidable (_ < _))

/-- What the fusion does not have reads as the default. -/
theorem value_of_not_hasValue {v : ValueId} (h : ¬ f.HasValue v) : f.value v = default := by
  unfold value
  rw [Array.getD_eq_getD_getElem?, Array.getElem?_eq_none (Nat.le_of_not_lt h)]
  rfl

/-- The default is no tensor, so tensors are values of the fusion. -/
theorem hasValue_of_isTensor {v : ValueId} (h : f.isTensor v = true) : f.HasValue v := by
  by_contra hv
  rw [isTensor, value_of_not_hasValue hv] at h
  exact absurd h (by decide)

/-- The default has no definition, so what is computed is a value of the fusion. -/
theorem hasValue_of_definition {v : ValueId} {e : ExprId} (h : f.definition v = some e) :
    f.HasValue v := by
  by_contra hv
  rw [definition, value_of_not_hasValue hv] at h
  exact absurd h (by simp [default, instInhabitedValue.default])

/-! ## One value -/

section ModifyValue

variable (f) (v w : ValueId) (g : Value → Value)

/-- Expressions are kept apart from values. -/
@[simp]
theorem modifyValue_exprs : (f.modifyValue v g).exprs = f.exprs :=
  rfl

/-- Axes are kept apart from values. -/
@[simp]
theorem modifyValue_axes : (f.modifyValue v g).axes = f.axes :=
  rfl

/-- Transforms are kept apart from values. -/
@[simp]
theorem modifyValue_transforms : (f.modifyValue v g).transforms = f.transforms :=
  rfl

/-- A change of a value adds none. -/
@[simp]
theorem size_modifyValue : (f.modifyValue v g).values.size = f.values.size := by
  simp [modifyValue]

/-- A change of a value is seen at this value only. -/
theorem value_modifyValue :
    (f.modifyValue v g).value w = if w = v ∧ f.HasValue v then g (f.value v) else f.value w := by
  unfold value modifyValue HasValue
  rw [Array.getD_eq_getD_getElem?, Array.getD_eq_getD_getElem?, Array.getD_eq_getD_getElem?,
    Array.getElem?_modify]
  by_cases hw : w = v
  · subst hw
    by_cases hv : w.index < f.values.size <;> simp [hv]
  · have hindex : v.index ≠ w.index := fun h => hw (by cases v; cases w; simp_all)
    simp [hw, hindex]

end ModifyValue

/-! ## Several values -/

section ModifyValues

variable (f) (vs : List ValueId) (w : ValueId) (g : Value → Value)

/-- Changes of several values leave expressions alone. -/
@[simp]
theorem modifyValues_exprs :
    (vs.foldl (fun f v => f.modifyValue v g) f).exprs = f.exprs := by
  induction vs generalizing f with
  | nil => rfl
  | cons v vs ih => exact ih _

/-- Changes of several values leave axes alone. -/
@[simp]
theorem modifyValues_axes :
    (vs.foldl (fun f v => f.modifyValue v g) f).axes = f.axes := by
  induction vs generalizing f with
  | nil => rfl
  | cons v vs ih => exact ih _

/-- Changes of several values leave transforms alone. -/
@[simp]
theorem modifyValues_transforms :
    (vs.foldl (fun f v => f.modifyValue v g) f).transforms = f.transforms := by
  induction vs generalizing f with
  | nil => rfl
  | cons v vs ih => exact ih _

/-- Changes of several values add none. -/
@[simp]
theorem size_modifyValues :
    (vs.foldl (fun f v => f.modifyValue v g) f).values.size = f.values.size := by
  induction vs generalizing f with
  | nil => rfl
  | cons v vs ih => rw [List.foldl_cons, ih, size_modifyValue]

/-- An idempotent change of several values is seen exactly at these values. -/
theorem value_modifyValues (hg : ∀ x, g (g x) = g x) :
    (vs.foldl (fun f v => f.modifyValue v g) f).value w =
      if w ∈ vs ∧ f.HasValue w then g (f.value w) else f.value w := by
  induction vs generalizing f with
  | nil => simp
  | cons v vs ih =>
      have hhas : (f.modifyValue v g).HasValue w ↔ f.HasValue w := by
        unfold HasValue
        rw [size_modifyValue]
      rw [List.foldl_cons, ih, value_modifyValue]
      by_cases hw : f.HasValue w
      · by_cases hwv : w = v
        · subst hwv
          by_cases hmem : w ∈ vs <;> simp [hw, hmem, hhas, hg]
        · by_cases hmem : w ∈ vs <;> simp [hwv, hw, hmem, hhas]
      · have hv : ¬ (w = v ∧ f.HasValue v) := by
          rintro ⟨rfl, h⟩
          exact hw h
        simp [hw, hhas, hv]

end ModifyValues

/-! ## Views -/

section ModifyView

variable (f) (v w : ValueId) (g : TensorView → TensorView)

/-- Expressions are kept apart from views. -/
@[simp]
theorem modifyView_exprs : (f.modifyView v g).exprs = f.exprs :=
  rfl

/-- Axes are kept apart from views. -/
@[simp]
theorem modifyView_axes : (f.modifyView v g).axes = f.axes :=
  rfl

/-- Transforms are kept apart from views. -/
@[simp]
theorem modifyView_transforms : (f.modifyView v g).transforms = f.transforms :=
  rfl

/-- A change of a view adds no value. -/
@[simp]
theorem size_modifyView : (f.modifyView v g).values.size = f.values.size := by
  simp [modifyView]

/-- The type of elements is no part of a view. -/
@[simp]
theorem dtype_modifyView : (f.modifyView v g).dtype w = f.dtype w := by
  unfold dtype modifyView
  rw [value_modifyValue]
  split
  case isTrue h =>
      obtain ⟨rfl, -⟩ := h
      split <;> rfl
  case isFalse => rfl

/-- What computes a tensor is no part of its view. -/
@[simp]
theorem definition_modifyView : (f.modifyView v g).definition w = f.definition w := by
  unfold definition modifyView
  rw [value_modifyValue]
  split
  case isTrue h =>
      obtain ⟨rfl, -⟩ := h
      split <;> rfl
  case isFalse => rfl

/-- What reads a tensor is no part of its view. -/
@[simp]
theorem uses_modifyView : (f.modifyView v g).uses w = f.uses w := by
  unfold uses modifyView
  rw [value_modifyValue]
  split
  case isTrue h =>
      obtain ⟨rfl, -⟩ := h
      split <;> rfl
  case isFalse => rfl

/-- A tensor stays one, whatever its view is. -/
@[simp]
theorem isTensor_modifyView : (f.modifyView v g).isTensor w = f.isTensor w := by
  unfold isTensor modifyView
  rw [value_modifyValue]
  split
  case isTrue h =>
      obtain ⟨rfl, -⟩ := h
      split
      case h_1 t ht => simp [Value.isTensor, Value.view?, ht]
      case h_2 => rfl
  case isFalse => rfl

/-- A scalar stays as it is when a view changes. -/
theorem value_modifyView_of_scalar (h : f.isTensor w = false) :
    (f.modifyView v g).value w = f.value w := by
  unfold modifyView
  rw [value_modifyValue]
  split
  case isTrue hw =>
      obtain ⟨rfl, -⟩ := hw
      split
      case h_1 t ht => simp [isTensor, Value.isTensor, Value.view?, ht] at h
      case h_2 => rfl
  case isFalse => rfl

/-- A change of a view is seen at this tensor only, and not at all if it is a scalar. -/
theorem view_modifyView :
    (f.modifyView v g).view w = if w = v ∧ f.isTensor v then g (f.view v) else f.view w := by
  unfold view modifyView
  rw [value_modifyValue]
  by_cases hw : w = v
  · subst hw
    by_cases ht : f.isTensor w = true
    · have hhas := hasValue_of_isTensor ht
      cases hkind : (f.value w).kind with
      | scalar k => simp [isTensor, Value.isTensor, Value.view?, hkind] at ht
      | tensor t => simp [hhas, ht, Value.view?, hkind]
    · cases hkind : (f.value w).kind with
      | scalar k => simp [ht]
      | tensor t => simp [isTensor, Value.isTensor, Value.view?, hkind] at ht
  · simp [hw]

end ModifyView

/-- The later fusion differs from the earlier one in views only. -/
structure SameGraph (f f' : Fusion) : Prop where
  size : f'.values.size = f.values.size
  exprs : f'.exprs = f.exprs
  axes : f'.axes = f.axes
  transforms : f'.transforms = f.transforms
  dtype : ∀ w, f'.dtype w = f.dtype w
  definition : ∀ w, f'.definition w = f.definition w
  uses : ∀ w, f'.uses w = f.uses w
  isTensor : ∀ w, f'.isTensor w = f.isTensor w
  scalar : ∀ w, f.isTensor w = false → f'.value w = f.value w

namespace SameGraph

variable {f₁ f₂ f₃ : Fusion}

/-- Every fusion has its own graph. -/
protected theorem refl (f : Fusion) : SameGraph f f :=
  ⟨rfl, rfl, rfl, rfl, fun _ => rfl, fun _ => rfl, fun _ => rfl, fun _ => rfl, fun _ _ => rfl⟩

/-- Steps that change views only, one after another. -/
protected theorem trans (h : SameGraph f₁ f₂) (h' : SameGraph f₂ f₃) : SameGraph f₁ f₃ where
  size := h'.size.trans h.size
  exprs := h'.exprs.trans h.exprs
  axes := h'.axes.trans h.axes
  transforms := h'.transforms.trans h.transforms
  dtype w := (h'.dtype w).trans (h.dtype w)
  definition w := (h'.definition w).trans (h.definition w)
  uses w := (h'.uses w).trans (h.uses w)
  isTensor w := (h'.isTensor w).trans (h.isTensor w)
  scalar w hw := (h'.scalar w ((h.isTensor w).trans hw)).trans (h.scalar w hw)

/-- A change of a view leaves the graph alone. -/
theorem modifyView (f : Fusion) (v : ValueId) (g : TensorView → TensorView) :
    SameGraph f (f.modifyView v g) where
  size := size_modifyView f v g
  exprs := rfl
  axes := rfl
  transforms := rfl
  dtype w := dtype_modifyView f v w g
  definition w := definition_modifyView f v w g
  uses w := uses_modifyView f v w g
  isTensor w := isTensor_modifyView f v w g
  scalar w hw := value_modifyView_of_scalar f v w g hw

/-- Changes of several views leave the graph alone. -/
theorem modifyViews (f : Fusion) (vs : List ValueId) (g : TensorView → TensorView) :
    SameGraph f (vs.foldl (fun f v => f.modifyView v g) f) := by
  induction vs generalizing f with
  | nil => exact SameGraph.refl f
  | cons v vs ih => exact (modifyView f v g).trans (ih _)

/-- Giving siblings the view of a tensor leaves the graph alone. -/
theorem syncSiblings (f : Fusion) (v : ValueId) : SameGraph f (f.syncSiblings v) :=
  modifyViews f (f.siblings v) fun _ => f.view v

/-- One graph has one definition for each value. -/
theorem definingExpr? (h : SameGraph f₁ f₂) (v : ValueId) :
    f₂.definingExpr? v = f₁.definingExpr? v := by
  unfold Fusion.definingExpr? expr expr?
  rw [h.definition, h.exprs]

/-- One graph has the same axes. -/
theorem axis (h : SameGraph f₁ f₂) (a : AxisId) : f₂.axis a = f₁.axis a := by
  unfold Fusion.axis
  rw [h.axes]

/-- One graph has the same transforms. -/
theorem transform (h : SameGraph f₁ f₂) (t : TransformId) : f₂.transform t = f₁.transform t := by
  unfold Fusion.transform
  rw [h.transforms]

/-- One graph has the same siblings. -/
theorem siblings (h : SameGraph f₁ f₂) (v : ValueId) : f₂.siblings v = f₁.siblings v := by
  unfold Fusion.siblings
  rw [h.definingExpr?, funext h.isTensor]

end SameGraph

/-- Only tensors are siblings. -/
theorem isTensor_of_mem_siblings {v w : ValueId} (h : w ∈ f.siblings v) : f.isTensor w = true := by
  unfold siblings at h
  split at h
  · have hw := (List.mem_filter.1 h).2
    simp only [Bool.and_eq_true] at hw
    exact hw.2
  · simp at h

/-- Synchronization shows the view of a tensor at all of its siblings. -/
theorem view_syncSiblings (f : Fusion) (v w : ValueId) :
    (f.syncSiblings v).view w = if w ∈ f.siblings v then f.view v else f.view w := by
  -- the siblings are tensors, so every write of the fold takes effect
  have hfold : ∀ (vs : List ValueId) (g : Fusion) (x : TensorView),
      (∀ s ∈ vs, g.isTensor s = true) →
        (vs.foldl (fun f s => f.modifyView s fun _ => x) g).view w =
          if w ∈ vs then x else g.view w := by
    intro vs
    induction vs with
    | nil => simp
    | cons s vs ih =>
        intro g x hvs
        have hs : g.isTensor s = true := hvs s List.mem_cons_self
        rw [List.foldl_cons, ih _ x fun u hu => by
          rw [isTensor_modifyView]
          exact hvs u (List.mem_cons_of_mem s hu), view_modifyView]
        by_cases hw : w = s
        · simp [hw, hs]
        · simp [hw]
  exact hfold (f.siblings v) f (f.view v) fun s hs => isTensor_of_mem_siblings hs

/-- Changing a view and passing the change on to the siblings. -/
theorem view_modify_sync (f : Fusion) (v w : ValueId) (g : TensorView → TensorView) :
    ((f.modifyView v g).syncSiblings v).view w =
      if w = v ∨ w ∈ f.siblings v then (if f.isTensor v then g (f.view v) else f.view v)
      else f.view w := by
  have hself : v ∉ f.siblings v := by
    unfold siblings
    split <;> simp
  have hview : (f.modifyView v g).view v = if f.isTensor v then g (f.view v) else f.view v := by
    rw [view_modifyView]
    simp
  rw [view_syncSiblings, (SameGraph.modifyView f v g).siblings, hview]
  by_cases hw : w = v
  · subst hw
    simp [hself, hview]
  · by_cases hmem : w ∈ f.siblings v
    · simp [hmem]
    · simp [hw, hmem, view_modifyView]

/-! ## Axes -/

section ModifyAxis

variable (f) (a b : AxisId) (g : Axis → Axis)

/-- Values are kept apart from axes. -/
@[simp]
theorem modifyAxis_values : (f.modifyAxis a g).values = f.values :=
  rfl

/-- Expressions are kept apart from axes. -/
@[simp]
theorem modifyAxis_exprs : (f.modifyAxis a g).exprs = f.exprs :=
  rfl

/-- Transforms are kept apart from axes. -/
@[simp]
theorem modifyAxis_transforms : (f.modifyAxis a g).transforms = f.transforms :=
  rfl

/-- A change of an axis adds none. -/
@[simp]
theorem size_modifyAxis : (f.modifyAxis a g).axes.size = f.axes.size := by
  simp [modifyAxis]

/-- A change of an axis is seen at this axis only. -/
theorem axis_modifyAxis :
    (f.modifyAxis a g).axis b = if b = a ∧ f.HasAxis a then g (f.axis a) else f.axis b := by
  unfold axis modifyAxis HasAxis
  rw [Array.getD_eq_getD_getElem?, Array.getD_eq_getD_getElem?, Array.getD_eq_getD_getElem?,
    Array.getElem?_modify]
  by_cases hb : b = a
  · subst hb
    by_cases ha : b.index < f.axes.size <;> simp [ha]
  · have hindex : a.index ≠ b.index := fun h => hb (by cases a; cases b; simp_all)
    simp [hb, hindex]

end ModifyAxis

/-! ## Appended nodes -/

/-- The new value comes behind all others. -/
theorem value_push (f : Fusion) (x : Value) (w : ValueId) :
    ({ f with values := f.values.push x } : Fusion).value w =
      if w.index = f.values.size then x else f.value w := by
  unfold value
  rw [Array.getD_eq_getD_getElem?, Array.getD_eq_getD_getElem?, Array.getElem?_push]
  split <;> simp

/-- The new axis comes behind all others. -/
theorem axis_push (f : Fusion) (x : Axis) (b : AxisId) :
    ({ f with axes := f.axes.push x } : Fusion).axis b =
      if b.index = f.axes.size then x else f.axis b := by
  unfold axis
  rw [Array.getD_eq_getD_getElem?, Array.getD_eq_getD_getElem?, Array.getElem?_push]
  split <;> simp

/-- The new transform comes behind all others. -/
theorem transform_push (f : Fusion) (x : Transform) (t : TransformId) :
    ({ f with transforms := f.transforms.push x } : Fusion).transform t =
      if t.index = f.transforms.size then x else f.transform t := by
  unfold transform
  rw [Array.getD_eq_getD_getElem?, Array.getD_eq_getD_getElem?, Array.getElem?_push]
  split <;> simp

/-- The new expression comes behind all others. -/
theorem expr?_push (f : Fusion) (x : Option Expr) (e : ExprId) :
    ({ f with exprs := f.exprs.push x } : Fusion).expr? e =
      if e.index = f.exprs.size then x else f.expr? e := by
  unfold expr?
  rw [Array.getElem?_push]
  split <;> simp

end Fusion
end FusionCompiler
