import Mathlib.Data.List.Nodup
import FusionCompiler.Proofs.Fusion.Adding

/-!
# Axes of their own

Every tensor has root axes of its own.  Only tensors that one expression computes
share them, and no split or merge makes a root axis.  `Fusion.OwnAxes` says so of
a fusion in which further axes may be spare: they have been made, and no tensor
has them yet.

A step either makes spare axes, gives spare axes to tensors as their roots, or
leaves all roots alone.

Main results:

- Theorem `Fusion.OwnAxes.advance`: tensors may get spare axes as their roots, and
  others may take roots over.
- Theorems `Fusion.OwnAxes.pushAxis` and `Fusion.OwnAxes.pushTransform`: a new axis
  is spare, and a transform makes spare axes.
- Theorems `Fusion.OwnAxes.results` and `Fusion.OwnAxes.place`: tensors get spare
  axes, as the results of one expression or one at a time.
-/

namespace FusionCompiler

open Fusion

namespace Fusion

variable {f f' f₁ : Fusion} {u v w : ValueId} {a : AxisId} {spare taken rest : List AxisId}

/-! ## Tensors of one expression -/

/-- Two values that are one, or that one expression computes. -/
def Kin (f : Fusion) (u v : ValueId) : Prop :=
  u = v ∨ ∃ e, f.definition u = some e ∧ f.definition v = some e

namespace Kin

/-- A tensor shares axes with itself. -/
protected theorem refl (f : Fusion) (v : ValueId) : f.Kin v v :=
  .inl rfl

/-- Sharing has no direction. -/
protected theorem symm (h : f.Kin u v) : f.Kin v u := by
  rcases h with rfl | ⟨e, hu, hv⟩
  · exact .refl f u
  · exact .inr ⟨e, hv, hu⟩

/-- Sharing is transitive. -/
protected theorem trans (h : f.Kin u v) (h' : f.Kin v w) : f.Kin u w := by
  rcases h with rfl | ⟨e, hu, hv⟩
  · exact h'
  rcases h' with rfl | ⟨d, hv', hw⟩
  · exact .inr ⟨e, hu, hv⟩
  · rw [hv] at hv'
    cases hv'
    exact .inr ⟨e, hu, hw⟩

/-- Steps that change neither definition keep two values kin. -/
theorem congr (h : f.Kin u v) (hu : f'.definition u = f.definition u)
    (hv : f'.definition v = f.definition v) : f'.Kin u v := by
  rcases h with rfl | ⟨e, hue, hve⟩
  · exact .refl f' u
  · exact .inr ⟨e, hu.trans hue, hv.trans hve⟩

end Kin

/-- Only a new tensor shows the view that it comes with. -/
theorem view_newTensor (f : Fusion) (t : DataType) (x : TensorView) (v : ValueId) :
    (f.pushValue t (.tensor x)).view v = if v = ⟨f.values.size⟩ then x else f.view v := by
  rw [Build.view_pushTensor]
  cases v
  simp

/-- A split or a merge makes the axis. -/
def Made (f : Fusion) (a : AxisId) : Prop :=
  ∃ t, f.HasTransform t ∧ a ∈ (f.transform t).outputs

/-- What is made stays made. -/
theorem Made.mono (h : f.Made a) (hext : Extends f f') : f'.Made a := by
  obtain ⟨t, ht, ha⟩ := h
  exact ⟨t, hext.hasTransform ht, by rwa [hext.transform t ht]⟩

/-- Whether an axis is made depends on the transforms only. -/
theorem made_congr (h : f'.transforms = f.transforms) : f'.Made a ↔ f.Made a := by
  unfold Made HasTransform transform
  rw [h]

/-- A new transform makes its outputs. -/
theorem made_push {x : Transform} (h : f'.transforms = f.transforms.push x) :
    f'.Made a ↔ f.Made a ∨ a ∈ x.outputs := by
  have htransform : ∀ t, f'.transform t =
      if t.index = f.transforms.size then x else f.transform t := by
    intro t
    rw [← transform_push, transform, h, transform]
  have hhas : ∀ t, f'.HasTransform t ↔ t.index < f.transforms.size + 1 := by
    intro t
    rw [HasTransform, h, Array.size_push]
  constructor
  · rintro ⟨t, ht, ha⟩
    rw [htransform] at ha
    split at ha
    case isTrue => exact .inr ha
    case isFalse hlast =>
        have hle := (hhas t).1 ht
        exact .inl ⟨t, by rw [HasTransform]; omega, ha⟩
  · rintro (⟨t, ht, ha⟩ | ha)
    · refine ⟨t, (hhas t).2 (Nat.lt_succ_of_lt ht), ?_⟩
      rwa [htransform, if_neg (Nat.ne_of_lt ht)]
    · refine ⟨⟨f.transforms.size⟩, (hhas _).2 (Nat.lt_succ_self _), ?_⟩
      rwa [htransform, if_pos rfl]

/-! ## Results of expressions -/

/-- Values and expressions agree on what computes what, and an expression has distinct results. -/
structure Computed (f : Fusion) : Prop where
  defines : ∀ v e, f.definition v = some e ↔ v ∈ (f.expr e).outputs
  distinct : ∀ e, (f.expr e).outputs.Nodup

namespace Computed

/-- What computes what depends on expressions and definitions only. -/
theorem congr (h : Computed f) (hexprs : f'.exprs = f.exprs)
    (hdefinition : ∀ v, f'.definition v = f.definition v) : Computed f' := by
  have hexpr : ∀ e, f'.expr e = f.expr e := fun e => by rw [expr, expr?, hexprs, expr, expr?]
  constructor
  · intro v e
    rw [hdefinition, hexpr]
    exact h.defines v e
  · intro e
    rw [hexpr]
    exact h.distinct e

/-- An expression whose results nothing computed before. -/
theorem pushExpr (h : Computed f) {x : Expr} (hx : x.outputs.Nodup)
    (hhas : ∀ v ∈ x.outputs, f.HasValue v) (hnone : ∀ v ∈ x.outputs, f.definition v = none) :
    Computed (f.pushExpr x) := by
  have hexpr : ∀ e, (f.pushExpr x).expr e = if e = ⟨f.exprs.size⟩ then x else f.expr e := by
    intro e
    rw [expr, expr?_pushExpr]
    by_cases he : e = ⟨f.exprs.size⟩
    · simp [he]
    · have hindex : e.index ≠ f.exprs.size := fun heq => he (by cases e; simp_all)
      rw [if_neg hindex, if_neg he, expr]
  have hnext : f.expr ⟨f.exprs.size⟩ = default := by
    have hdead : f.expr? ⟨f.exprs.size⟩ = none := by
      cases hy : f.expr? ⟨f.exprs.size⟩ with
      | none => rfl
      | some y => exact absurd (index_lt_of_expr? hy) (Nat.lt_irrefl _)
    rw [expr, hdead]
    rfl
  constructor
  · intro v e
    rw [definition_pushExpr, hexpr]
    by_cases hv : v ∈ x.outputs
    · have hold : v ∉ (f.expr e).outputs := by
        rw [← h.defines, hnone v hv]
        simp
      by_cases he : e = ⟨f.exprs.size⟩
      · simp [he, hv, hhas v hv]
      · simp [he, hv, hhas v hv, hold, Ne.symm he]
    · rw [if_neg fun hmem => hv hmem.1, h.defines]
      by_cases he : e = ⟨f.exprs.size⟩
      · rw [he, hnext, if_pos rfl]
        simp [hv, default, instInhabitedExpr.default]
      · rw [if_neg he]
  · intro e
    rw [hexpr]
    split
    · exact hx
    · exact h.distinct e

/-- A removed expression is the definition of nothing any more. -/
theorem definition_removeExpr (h : Computed f) (e : ExprId) (v : ValueId) :
    (f.removeExpr e).definition v = if f.definition v = some e then none else f.definition v := by
  refine definition_removeExpr_of_defined (fun w hw => ?_) v
  have hmem := (h.defines w e).1 hw
  unfold expr at hmem
  cases hx : f.expr? e with
  | none =>
      rw [hx] at hmem
      cases hmem
  | some x =>
      rw [hx] at hmem
      exact ⟨x, rfl, hmem⟩

/-- An expression less computes less. -/
theorem removeExpr (h : Computed f) (e : ExprId) : Computed (f.removeExpr e) := by
  have hexpr : ∀ d, (f.removeExpr e).expr d = if d = e then default else f.expr d := by
    intro d
    rw [expr, expr?_removeExpr]
    split
    · rfl
    · rfl
  constructor
  · intro v d
    rw [h.definition_removeExpr, hexpr]
    by_cases hd : d = e
    · rw [if_pos hd, hd]
      split
      case isTrue => simp [default, instInhabitedExpr.default]
      case isFalse hv => simp [hv, default, instInhabitedExpr.default]
    · rw [if_neg hd, ← h.defines]
      split
      case isTrue hv => simp [hv, Ne.symm hd]
      case isFalse => rfl
  · intro d
    rw [hexpr]
    split
    · exact List.nodup_nil
    · exact h.distinct d

/-- Another expression in the place of one, over values that nothing else computes. -/
theorem replaceExpr (h : Computed f) {e : ExprId} {x : Expr} (hx : x.outputs.Nodup)
    (hhas : ∀ v ∈ x.outputs, f.HasValue v)
    (hfree : ∀ v ∈ x.outputs, f.definition v = none ∨ f.definition v = some e) :
    Computed ((f.removeExpr e).pushExpr x) ∧
      ∀ v, ((f.removeExpr e).pushExpr x).definition v =
        if v ∈ x.outputs then some ⟨(f.removeExpr e).exprs.size⟩
        else if f.definition v = some e then none else f.definition v := by
  have hkept : ∀ v ∈ x.outputs, (f.removeExpr e).HasValue v := by
    intro v hv
    rw [HasValue, size_removeExpr]
    exact hhas v hv
  constructor
  · refine (h.removeExpr e).pushExpr hx hkept fun v hv => ?_
    rw [h.definition_removeExpr]
    rcases hfree v hv with hnone | hdef
    · simp [hnone]
    · rw [if_pos hdef]
  · intro v
    rw [definition_pushExpr, h.definition_removeExpr]
    by_cases hv : v ∈ x.outputs
    · rw [if_pos ⟨hv, hkept v hv⟩, if_pos hv]
    · rw [if_neg fun hmem => hv hmem.1, if_neg hv]

end Computed

/-! ## The invariant -/

/-- Root axes belong to the tensors of one expression, and neither a transform makes them nor are
they spare.  A factored shape adds nothing but axes that transforms make. -/
structure OwnAxes (f : Fusion) (spare : List AxisId) : Prop where
  root : ∀ v, ∀ a ∈ (f.view v).domain.root, f.HasAxis a ∧ ¬ f.Made a ∧ a ∉ spare
  nodup : spare.Nodup
  spare : ∀ a ∈ spare, f.HasAxis a ∧ ¬ f.Made a
  made : ∀ a, f.Made a → f.HasAxis a
  apart : ∀ u v, ∀ a ∈ (f.view u).domain.root, a ∈ (f.view v).domain.root → f.Kin u v
  logical : ∀ v, ∀ a ∈ (f.view v).domain.logical, a ∈ (f.view v).domain.root ∨ f.Made a
  computed : Computed f

/-- An empty fusion. -/
theorem ownAxes_empty : OwnAxes {} [] := by
  have hnone : ∀ v, ¬ ({} : Fusion).HasValue v := fun v => Nat.not_lt_zero v.index
  have hview : ∀ v, ({} : Fusion).view v = {} := fun v => view_of_not_hasValue (hnone v)
  have hexpr : ∀ e, (({} : Fusion).expr e).outputs = [] := fun e => by
    simp [expr, expr?, default, instInhabitedExpr.default]
  constructor
  · intro v a ha
    rw [hview] at ha
    cases ha
  · exact List.nodup_nil
  · simp
  · rintro a ⟨t, ht, -⟩
    cases ht
  · intro u v a ha
    rw [hview] at ha
    cases ha
  · intro v a ha
    rw [hview] at ha
    cases ha
  · constructor
    · intro v e
      rw [hexpr, definition, value_of_not_hasValue (hnone v)]
      simp [default, instInhabitedValue.default]
    · intro e
      rw [hexpr]
      exact List.nodup_nil

namespace OwnAxes

/-- An axis of a tensor that is a root axis of another one is a root axis of both. -/
theorem kin_of_mem_logical (h : OwnAxes f spare) (hu : a ∈ (f.view u).domain.root)
    (hv : a ∈ (f.view v).domain.logical) : f.Kin u v := by
  rcases h.logical v a hv with hroot | hmade
  · exact h.apart u v a hu hroot
  · exact absurd hmade (h.root u a hu).2.1

/-- The order of spare axes does not matter. -/
theorem perm (h : OwnAxes f spare) {spare' : List AxisId} (hperm : spare'.Perm spare) :
    OwnAxes f spare' := by
  constructor
  · intro v a ha
    obtain ⟨hhas, hmade, hspare⟩ := h.root v a ha
    exact ⟨hhas, hmade, fun hmem => hspare (hperm.subset hmem)⟩
  · exact hperm.nodup_iff.2 h.nodup
  · exact fun a ha => h.spare a (hperm.subset ha)
  · exact h.made
  · exact h.apart
  · exact h.logical
  · exact h.computed

/-- Spare axes may be given up. -/
theorem giveUp (h : OwnAxes f spare) {spare' : List AxisId} (hsub : spare'.Sublist spare) :
    OwnAxes f spare' := by
  constructor
  · intro v a ha
    obtain ⟨hhas, hmade, hspare⟩ := h.root v a ha
    exact ⟨hhas, hmade, fun hmem => hspare (hsub.subset hmem)⟩
  · exact h.nodup.sublist hsub
  · exact fun a ha => h.spare a (hsub.subset ha)
  · exact h.made
  · exact h.apart
  · exact h.logical
  · exact h.computed

/-- A step that records no transform.  Every root afterwards consists of taken axes, or some value
had it whose heirs are kin. -/
theorem advance (h : OwnAxes f (taken ++ rest)) (Heir : ValueId → ValueId → Prop)
    (haxes : f.axes.size ≤ f'.axes.size) (htransforms : f'.transforms = f.transforms)
    (hroot : ∀ v, ∀ a ∈ (f'.view v).domain.root,
      a ∈ taken ∨ ∃ u, Heir u v ∧ a ∈ (f.view u).domain.root)
    (hheir : ∀ u v u' v', Heir u v → Heir u' v' → f.Kin u u' → f'.Kin v v')
    (htaken : ∀ u v, ∀ a ∈ taken, a ∈ (f'.view u).domain.root → a ∈ (f'.view v).domain.root →
      f'.Kin u v)
    (hlogical : ∀ v, ∀ a ∈ (f'.view v).domain.logical,
      a ∈ (f'.view v).domain.root ∨ f.Made a)
    (hcomputed : Computed f') : OwnAxes f' rest := by
  have hmade : ∀ a, f'.Made a ↔ f.Made a := fun a => made_congr htransforms
  have hhas : ∀ a, f.HasAxis a → f'.HasAxis a := fun a ha => Nat.lt_of_lt_of_le ha haxes
  obtain ⟨-, hrest, hdisjoint⟩ := List.nodup_append.1 h.nodup
  constructor
  · intro v a ha
    rw [hmade]
    rcases hroot v a ha with htake | ⟨u, -, hu⟩
    · obtain ⟨haxis, hnot⟩ := h.spare a (List.mem_append_left _ htake)
      exact ⟨hhas a haxis, hnot, fun hmem => hdisjoint a htake a hmem rfl⟩
    · obtain ⟨haxis, hnot, hspare⟩ := h.root u a hu
      exact ⟨hhas a haxis, hnot, fun hmem => hspare (List.mem_append_right _ hmem)⟩
  · exact hrest
  · intro a ha
    obtain ⟨haxis, hnot⟩ := h.spare a (List.mem_append_right _ ha)
    exact ⟨hhas a haxis, (hmade a).not.2 hnot⟩
  · exact fun a ha => hhas a (h.made a ((hmade a).1 ha))
  · intro u v a hu hv
    have hold : ∀ w, a ∈ (f.view w).domain.root → a ∉ taken := fun w hw hmem =>
      (h.root w a hw).2.2 (List.mem_append_left _ hmem)
    by_cases htake : a ∈ taken
    · exact htaken u v a htake hu hv
    · obtain ⟨u', huu', hu'⟩ := (hroot u a hu).resolve_left htake
      obtain ⟨v', hvv', hv'⟩ := (hroot v a hv).resolve_left htake
      exact hheir u' u v' v huu' hvv' (h.apart u' v' a hu' hv')
  · intro v a ha
    rw [hmade]
    exact hlogical v a ha
  · exact hcomputed

/-- A step that records no transform and takes no axes. -/
theorem inherit (h : OwnAxes f spare) (Heir : ValueId → ValueId → Prop)
    (haxes : f.axes.size ≤ f'.axes.size) (htransforms : f'.transforms = f.transforms)
    (hroot : ∀ v, ∀ a ∈ (f'.view v).domain.root, ∃ u, Heir u v ∧ a ∈ (f.view u).domain.root)
    (hheir : ∀ u v u' v', Heir u v → Heir u' v' → f.Kin u u' → f'.Kin v v')
    (hlogical : ∀ v, ∀ a ∈ (f'.view v).domain.logical, a ∈ (f'.view v).domain.root ∨ f.Made a)
    (hcomputed : Computed f') : OwnAxes f' spare := by
  have hnone : OwnAxes f ([] ++ spare) := h
  exact hnone.advance Heir haxes htransforms (fun v a ha => .inr (hroot v a ha)) hheir (by simp)
    hlogical hcomputed

/-- A step that leaves all views alone, and after which kin are kin. -/
theorem sameViews (h : OwnAxes f spare) (haxes : f.axes.size ≤ f'.axes.size)
    (htransforms : f'.transforms = f.transforms) (hview : ∀ v, f'.view v = f.view v)
    (hkin : ∀ u v, f.Kin u v → f'.Kin u v) (hcomputed : Computed f') : OwnAxes f' spare := by
  refine h.inherit Eq haxes htransforms ?_ ?_ ?_ hcomputed
  · intro v a ha
    rw [hview] at ha
    exact ⟨v, rfl, ha⟩
  · rintro u v u' v' rfl rfl huu'
    exact hkin u u' huu'
  · intro v a ha
    rw [hview] at ha ⊢
    exact h.logical v a ha

/-- A step that leaves views and definitions alone. -/
theorem congr (h : OwnAxes f spare) (haxes : f.axes.size ≤ f'.axes.size)
    (htransforms : f'.transforms = f.transforms) (hexprs : f'.exprs = f.exprs)
    (hview : ∀ v, f'.view v = f.view v) (hdefinition : ∀ v, f'.definition v = f.definition v) :
    OwnAxes f' spare :=
  h.sameViews haxes htransforms hview
    (fun u v hkin => hkin.congr (hdefinition u) (hdefinition v))
    (h.computed.congr hexprs hdefinition)

/-- Steps that leave values and transforms alone. -/
theorem ofValues (h : OwnAxes f spare) (hvalues : f'.values = f.values)
    (hexprs : f'.exprs = f.exprs) (haxes : f.axes.size ≤ f'.axes.size)
    (htransforms : f'.transforms = f.transforms) : OwnAxes f' spare := by
  have hvalue : ∀ v, f'.value v = f.value v := fun v => by rw [value, hvalues, value]
  refine h.congr haxes htransforms hexprs (fun v => ?_) fun v => ?_
  · rw [view, hvalue, view]
  · rw [definition, hvalue, definition]

/-- A change of an axis moves no axis. -/
theorem modifyAxis (h : OwnAxes f spare) (a : AxisId) (g : Axis → Axis) :
    OwnAxes (f.modifyAxis a g) spare :=
  h.ofValues rfl rfl (by simp [Fusion.modifyAxis]) rfl

/-- A new scalar. -/
theorem pushScalar (h : OwnAxes f spare) (t : DataType) (k : ScalarKind) :
    OwnAxes (f.pushValue t (.scalar k)) spare :=
  h.congr (Nat.le_refl _) rfl rfl (Builds.view_pushScalar f t k)
    (SameFlow.pushValue f t (.scalar k)).definition

/-- New axes are spare. -/
theorem grow (h : OwnAxes f spare) {axes : Array Axis} {new : List AxisId} (hnodup : new.Nodup)
    (haxes : f.axes.size ≤ axes.size)
    (hnew : ∀ a ∈ new, ¬ f.HasAxis a ∧ a.index < axes.size) :
    OwnAxes { f with axes } (new ++ spare) := by
  have hgrown : OwnAxes { f with axes } spare := h.ofValues rfl rfl haxes rfl
  constructor
  · intro v a ha
    obtain ⟨hhas, hmade, hspare⟩ := hgrown.root v a ha
    refine ⟨hhas, hmade, ?_⟩
    rw [List.mem_append, not_or]
    exact ⟨fun hmem => (hnew a hmem).1 (h.root v a ha).1, hspare⟩
  · rw [List.nodup_append]
    refine ⟨hnodup, h.nodup, ?_⟩
    rintro a ha b hb rfl
    exact (hnew a ha).1 (h.spare a hb).1
  · intro a ha
    rcases List.mem_append.1 ha with ha | ha
    · exact ⟨(hnew a ha).2, fun hmade => (hnew a ha).1 (h.made a hmade)⟩
    · exact hgrown.spare a ha
  · exact hgrown.made
  · exact hgrown.apart
  · exact hgrown.logical
  · exact hgrown.computed

/-- A new axis is spare. -/
theorem pushAxis (h : OwnAxes f spare) (x : Axis) :
    OwnAxes (f.pushAxis x) (⟨f.axes.size⟩ :: spare) := by
  refine h.grow (List.nodup_singleton _) (by simp) fun a ha => ?_
  rw [List.mem_singleton.1 ha]
  exact ⟨Nat.lt_irrefl _, by simp⟩

/-- A transform makes spare axes. -/
theorem pushTransform {x : Transform} (h : OwnAxes f (x.outputs ++ spare)) :
    OwnAxes (f.pushTransform x) spare := by
  have hsame := sameExtents_setOrigins f x.outputs ⟨f.transforms.size⟩
  have hmade : ∀ a, (f.pushTransform x).Made a ↔ f.Made a ∨ a ∈ x.outputs := fun a =>
    made_push (transforms_pushTransform f x)
  have hhas : ∀ a, (f.pushTransform x).HasAxis a ↔ f.HasAxis a := fun a => by
    unfold HasAxis
    exact hsame.size ▸ Iff.rfl
  have hview : ∀ v, (f.pushTransform x).view v = f.view v := hsame.view
  have hdefinition : ∀ v, (f.pushTransform x).definition v = f.definition v := fun v =>
    congrArg Value.definition (hsame.value v)
  obtain ⟨-, hrest, hdisjoint⟩ := List.nodup_append.1 h.nodup
  constructor
  · intro v a ha
    rw [hview] at ha
    obtain ⟨haxis, hnot, hspare⟩ := h.root v a ha
    rw [List.mem_append, not_or] at hspare
    rw [hhas, hmade]
    exact ⟨haxis, fun hor => hor.elim hnot hspare.1, hspare.2⟩
  · exact hrest
  · intro a ha
    obtain ⟨haxis, hnot⟩ := h.spare a (List.mem_append_right _ ha)
    rw [hhas, hmade]
    exact ⟨haxis, fun hor => hor.elim hnot fun hmem => hdisjoint a hmem a ha rfl⟩
  · intro a ha
    rw [hhas]
    rcases (hmade a).1 ha with ha | ha
    · exact h.made a ha
    · exact (h.spare a (List.mem_append_left _ ha)).1
  · intro u v a hu hv
    rw [hview] at hu hv
    exact (h.apart u v a hu hv).congr (hdefinition u) (hdefinition v)
  · intro v a ha
    rw [hview] at ha ⊢
    rw [hmade]
    exact (h.logical v a ha).imp id .inl
  · exact h.computed.congr hsame.exprs hdefinition

/-! ### Expressions and tensors -/

/-- An expression whose results nothing computed before. -/
theorem pushExpr (h : OwnAxes f spare) {x : Expr} (hx : x.outputs.Nodup)
    (hhas : ∀ v ∈ x.outputs, f.HasValue v) (hnone : ∀ v ∈ x.outputs, f.definition v = none) :
    OwnAxes (f.pushExpr x) spare := by
  have hold : ∀ v e, f.definition v = some e → (f.pushExpr x).definition v = some e := by
    intro v e hdef
    rw [definition_pushExpr, if_neg, hdef]
    rintro ⟨hmem, -⟩
    rw [hnone v hmem] at hdef
    cases hdef
  refine h.sameViews (Nat.le_of_eq (by rw [axes_pushExpr])) (transforms_pushExpr f x)
    (view_pushExpr f x) (fun u v hkin => ?_) (h.computed.pushExpr hx hhas hnone)
  rcases hkin with rfl | ⟨e, hu, hv⟩
  · exact .refl _ _
  · exact .inr ⟨e, hold u e hu, hold v e hv⟩

/-- An expression that reads other operands computes what it did. -/
theorem recreate (h : OwnAxes f spare) (e : ExprId) (ins : List ValueId) :
    OwnAxes ((f.removeExpr e).pushExpr ⟨(f.expr e).kind, ins, (f.expr e).outputs⟩) spare := by
  have hdefines := h.computed.defines
  obtain ⟨hcomputed, hdefinition⟩ := h.computed.replaceExpr (e := e)
    (x := ⟨(f.expr e).kind, ins, (f.expr e).outputs⟩) (h.computed.distinct e)
    (fun v hv => hasValue_of_definition ((hdefines v e).2 hv))
    (fun v hv => .inr ((hdefines v e).2 hv))
  refine h.sameViews (Nat.le_of_eq (by rw [axes_pushExpr, axes_removeExpr])) ?_ ?_ ?_ hcomputed
  · rw [transforms_pushExpr, transforms_removeExpr]
  · intro v
    rw [view_pushExpr, view_removeExpr]
  · rintro u v (rfl | ⟨d, hu, hv⟩)
    · exact .refl _ _
    by_cases hd : d = e
    · rw [hd, hdefines] at hu hv
      exact .inr ⟨_, (hdefinition u).trans (if_pos hu), (hdefinition v).trans (if_pos hv)⟩
    · have hkept : ∀ w, f.definition w = some d → ((f.removeExpr e).pushExpr
          ⟨(f.expr e).kind, ins, (f.expr e).outputs⟩).definition w = some d := by
        intro w hw
        have hother : f.definition w ≠ some e := fun heq => hd (Option.some.inj (hw.symm.trans heq))
        rw [hdefinition, if_neg fun hmem => hother ((hdefines w e).2 hmem), if_neg hother, hw]
      exact .inr ⟨d, hkept u hu, hkept v hv⟩

/-- New tensors over one domain of spare axes, with the expression that computes them. -/
theorem results {x : Expr} {d : TensorDomain} (h : OwnAxes f (d.root ++ rest))
    (hrfactor : d.rfactor = none) (hnew : ∀ v ∈ x.outputs, ¬ f.HasValue v)
    (hx : x.outputs.Nodup) (haxes : f₁.axes = f.axes) (htransforms : f₁.transforms = f.transforms)
    (hexprs : f₁.exprs = f.exprs) (hhas : ∀ v ∈ x.outputs, f₁.HasValue v)
    (hdefinition : ∀ v, f₁.definition v = f.definition v)
    (hview : ∀ v, f₁.view v = if v ∈ x.outputs then { domain := d } else f.view v) :
    OwnAxes (f₁.pushExpr x) rest := by
  have hnone : ∀ v ∈ x.outputs, f₁.definition v = none := by
    intro v hv
    rw [hdefinition, definition, value_of_not_hasValue (hnew v hv)]
    rfl
  have hcomputed := (h.computed.congr hexprs hdefinition).pushExpr hx hhas hnone
  refine h.advance (fun u v => u = v ∧ v ∉ x.outputs) ?_ ?_ ?_ ?_ ?_ ?_ hcomputed
  · exact Nat.le_of_eq (by rw [axes_pushExpr, haxes])
  · rw [transforms_pushExpr, htransforms]
  · intro v a ha
    rw [view_pushExpr, hview] at ha
    split at ha
    case isTrue => exact .inl ha
    case isFalse hv => exact .inr ⟨v, ⟨rfl, hv⟩, ha⟩
  · rintro u v u' v' ⟨rfl, hu⟩ ⟨rfl, hu'⟩ hkin
    have hsame : ∀ v, v ∉ x.outputs → (f₁.pushExpr x).definition v = f.definition v := by
      intro v hv
      rw [definition_pushExpr, if_neg fun hmem => hv hmem.1, hdefinition]
    exact hkin.congr (hsame u hu) (hsame u' hu')
  · -- only the new tensors have taken axes, and the new expression computes them all
    have hout : ∀ v, ∀ a ∈ d.root, a ∈ ((f₁.pushExpr x).view v).domain.root → v ∈ x.outputs := by
      intro v a htake ha
      rw [view_pushExpr, hview] at ha
      split at ha
      case isTrue hv => exact hv
      case isFalse => exact absurd (List.mem_append_left _ htake) (h.root v a ha).2.2
    intro u v a htake hu hv
    have hu' := hout u a htake hu
    have hv' := hout v a htake hv
    refine .inr ⟨⟨f₁.exprs.size⟩, ?_, ?_⟩
    · rw [definition_pushExpr, if_pos ⟨hu', hhas u hu'⟩]
    · rw [definition_pushExpr, if_pos ⟨hv', hhas v hv'⟩]
  · intro v a ha
    rw [view_pushExpr, hview] at ha ⊢
    split
    case isTrue hv =>
        rw [if_pos hv, TensorDomain.logical, hrfactor] at ha
        exact .inl ha
    case isFalse hv =>
        rw [if_neg hv] at ha
        exact h.logical v a ha

/-- One tensor gets a domain of spare axes. -/
theorem place {d : TensorDomain} (h : OwnAxes f (d.root ++ rest)) (hrfactor : d.rfactor = none)
    (haxes : f'.axes = f.axes) (htransforms : f'.transforms = f.transforms)
    (hexprs : f'.exprs = f.exprs) (hdefinition : ∀ w, f'.definition w = f.definition w)
    (hplaced : (f'.view v).domain = d) (hview : ∀ w, w ≠ v → f'.view w = f.view w) :
    OwnAxes f' rest := by
  refine h.advance (fun u w => u = w ∧ w ≠ v) (Nat.le_of_eq (by rw [haxes])) htransforms
    ?_ ?_ ?_ ?_ (h.computed.congr hexprs hdefinition)
  · intro w a ha
    by_cases hw : w = v
    · rw [hw, hplaced] at ha
      exact .inl ha
    · rw [hview w hw] at ha
      exact .inr ⟨w, ⟨rfl, hw⟩, ha⟩
  · rintro u w u' w' ⟨rfl, -⟩ ⟨rfl, -⟩ hkin
    exact hkin.congr (hdefinition u) (hdefinition u')
  · have honly : ∀ w, ∀ a ∈ d.root, a ∈ (f'.view w).domain.root → w = v := by
      intro w a htake ha
      by_contra hw
      rw [hview w hw] at ha
      exact (h.root w a ha).2.2 (List.mem_append_left _ htake)
    intro u w a htake hu hw
    rw [honly u a htake hu, honly w a htake hw]
    exact .refl f' v
  · intro w a ha
    by_cases hw : w = v
    · rw [hw, hplaced] at ha ⊢
      rw [TensorDomain.logical, hrfactor] at ha
      exact .inl ha
    · rw [hview w hw] at ha ⊢
      exact h.logical w a ha

end OwnAxes
end Fusion

end FusionCompiler
