import FusionCompiler.Proofs.Schedule.FactoredShapes

/-!
# Inherited extents

A tensor that is computed takes the sizes in its root from the tensors that its
expression reads, and a tensor that is declared has sizes of its own.  So a size
in a fusion can be followed back, from results to operands, to the tensor that it
is a size of.

Main results:

- Theorem `Fusion.Inherits.advance`: building keeps old sizes inherited.
- Theorems `Build.elementwise_inherits`, `Build.reductionOp_inherits`,
  `Build.welford_inherits` and `Build.broadcast_inherits`: the results of
  operations inherit their sizes.
- Theorem `Fusion.applyAll_inherits`: after every sequence of building calls, all
  sizes are inherited.
-/

namespace FusionCompiler

open Fusion

namespace Fusion

variable {f f' f₁ f₂ : Fusion} {u v x tensor : ValueId} {a : AxisId} {xs : List ValueId}

/-- The scalar is a size of the tensor. -/
def IsSizeOf (f : Fusion) (x tensor : ValueId) : Prop :=
  ∃ dim, (f.value x).kind = .scalar (.tensorSize tensor dim)

/-- Whether a scalar is a size of a tensor depends on its kind only. -/
theorem isSizeOf_congr (hkind : (f'.value x).kind = (f.value x).kind) :
    f'.IsSizeOf x tensor ↔ f.IsSizeOf x tensor := by
  rw [IsSizeOf, IsSizeOf, hkind]

/-- A scalar stays the size that it is. -/
theorem Extends.isSizeOf (h : Extends f f') (hx : f.IntegerScalar x) :
    f'.IsSizeOf x tensor ↔ f.IsSizeOf x tensor :=
  isSizeOf_congr (h.kind x hx.has hx.scalar)

/-- Consumers see the same axes of a tensor after building. -/
theorem Builds.shape (hb : Builds f f') (hf : Sound f) (hv : f.HasValue v) :
    f'.shape v = f.shape v := by
  unfold Fusion.shape
  rw [hb.view v hv]
  refine List.filter_congr fun a ha => ?_
  rw [hb.axis a (hf.domains v a (by simp [TensorDomain.listed, ha]))]

/-- Every size in the root of a tensor is its own, if nothing computes the tensor, or an extent that
consumers see of a tensor from which it is computed. -/
def Inherited (f : Fusion) (v : ValueId) : Prop :=
  ∀ a ∈ (f.view v).domain.root, ∀ tensor, f.IsSizeOf (f.extent a) tensor →
    f.definition v = none ∧ tensor = v ∨
      ∃ x, f.definingExpr? v = some x ∧ ∃ u ∈ x.inputs, f.isTensor u = true ∧
        ∃ b ∈ f.shape u, f.extent b = f.extent a

/-- All sizes are inherited, and of the scalars only symbols are computed. -/
structure Inherits (f : Fusion) : Prop where
  symbolic : ∀ v e, f.definition v = some e →
    f.isTensor v = true ∨ (f.value v).kind = .scalar .symbolic
  inherited : ∀ v, f.Inherited v

/-- A scalar has no axes with sizes of their own. -/
theorem inherited_of_scalar (hv : f.isTensor v = false) : f.Inherited v := by
  intro a ha
  have hview : f.view v = {} := by
    have hnone : (f.value v).view? = none :=
      Option.isNone_iff_eq_none.1 (Option.isSome_eq_false_iff.1 hv)
    rw [Fusion.view, hnone]
    rfl
  rw [hview] at ha
  cases ha

/-- An empty fusion. -/
theorem inherits_empty : Inherits {} := by
  refine ⟨fun v e hv => ?_, fun v => inherited_of_scalar rfl⟩
  cases hv

/-- Building keeps old sizes inherited. -/
theorem Inherits.advance (h : Inherits f) (hf : Sound f) (hb : Builds f f') (ha : Adds f f')
    (hsymbolic : ∀ v e, ¬ f.HasValue v → f'.definition v = some e →
      f'.isTensor v = true ∨ (f'.value v).kind = .scalar .symbolic)
    (hnew : ∀ v, ¬ f.HasValue v → f'.Inherited v) : Inherits f' := by
  refine ⟨fun v e hv => ?_, fun v => ?_⟩
  · by_cases hold : f.HasValue v
    · rw [ha.definition v hold] at hv
      cases ht : f.isTensor v with
      | true => exact .inl ((hb.ext.isTensor v hold).trans ht)
      | false =>
          rw [hb.ext.kind v hold ht]
          exact .inr ((h.symbolic v e hv).resolve_left (by simp [ht]))
    · exact hsymbolic v e hold hv
  · by_cases hold : f.HasValue v
    · intro a hroot tensor hsize
      rw [hb.view v hold] at hroot
      have hhas : f.HasAxis a := hf.domains v a (by simp [TensorDomain.listed, hroot])
      rw [hb.ext.extent a hhas] at hsize ⊢
      rw [hb.ext.isSizeOf (hf.extents a hhas)] at hsize
      rw [ha.definition v hold, ha.definingExpr? hf hold]
      refine (h.inherited v a hroot tensor hsize).imp_right ?_
      rintro ⟨x, hx, u, hu, ht, b, hbu, hextent⟩
      have hhasu := hasValue_of_isTensor ht
      refine ⟨x, hx, u, hu, (hb.ext.isTensor u hhasu).trans ht, b, ?_, ?_⟩
      · rwa [hb.shape hf hhasu]
      · rw [hb.ext.extent b (Build.hasAxis_of_mem_shape hf hbu), hextent]
    · exact hnew v hold

/-! ## Steps that make no tensor -/

/-- No new value is a tensor or computed. -/
def Bare (f f' : Fusion) : Prop :=
  ∀ v, ¬ f.HasValue v → f'.isTensor v = false ∧ f'.definition v = none

namespace Bare

/-- No tensor and no expression is added. -/
protected theorem refl (f : Fusion) : Bare f f := by
  intro v hv
  rw [Fusion.isTensor, Fusion.definition, value_of_not_hasValue hv]
  exact ⟨rfl, rfl⟩

/-- Two steps that add neither tensors nor expressions. -/
protected theorem trans (h : Bare f f₁) (h' : Bare f₁ f') (hext : Extends f₁ f') : Bare f f' := by
  intro v hv
  by_cases hold : f₁.HasValue v
  · obtain ⟨ht, hdef⟩ := h v hv
    refine ⟨(hext.isTensor v hold).trans ht, ?_⟩
    have hexpr := hext.definingExpr v hold ht
    rw [definingExpr?, definingExpr?, hdef] at hexpr
    exact Option.map_eq_none_iff.1 hexpr
  · exact h' v hold

/-- A new scalar. -/
theorem pushScalar (f : Fusion) (t : DataType) (k : ScalarKind) :
    Bare f (f.pushValue t (.scalar k)) := by
  intro v hv
  rw [Build.isTensor_pushScalar, (SameFlow.pushValue f t _).definition]
  exact Bare.refl f v hv

/-- Steps that leave all values alone. -/
theorem ofValues (h : f'.values = f.values) : Bare f f' := by
  intro v hv
  rw [Fusion.isTensor, Fusion.definition, Fusion.value, h]
  exact Bare.refl f v hv

/-- A new axis comes with a new scalar. -/
theorem newAxis {extent : ValueId} {kind : AxisKind}
    (h : Edit.Gives (Edit.newAxis extent kind) f a f') : Bare f f' := by
  obtain ⟨start, f₁, hstart, haxis⟩ := Edit.gives_bind.1 h
  obtain ⟨-, rfl⟩ := Edit.gives_newValue.1 hstart
  obtain ⟨-, rfl⟩ := Edit.gives_addAxis.1 haxis
  exact pushScalar f _ _

end Bare

/-- Steps that make no tensor keep sizes inherited. -/
theorem Inherits.bare (h : Inherits f) (hf : Sound f) (hb : Builds f f') (ha : Adds f f')
    (hbare : Bare f f') : Inherits f' := by
  refine h.advance hf hb ha (fun v e hv hdef => ?_) fun v hv => inherited_of_scalar (hbare v hv).1
  rw [(hbare v hv).2] at hdef
  cases hdef

/-! ## Axes over given extents -/

/-- New axes whose extents are given ones, or scalars that are sizes of a given tensor at most. -/
structure MakesOver (xs : List ValueId) (own : Option ValueId) (f : Fusion) (as : List AxisId)
    (f' : Fusion) : Prop where
  bare : Bare f f'
  extent : ∀ a ∈ as, f'.HasAxis a ∧
    (f'.extent a ∈ xs ∨ ∀ tensor, f'.IsSizeOf (f'.extent a) tensor → own = some tensor)

namespace MakesOver

variable {own : Option ValueId} {as : List AxisId}

/-- No axis is made. -/
protected theorem nil : MakesOver xs own f [] f :=
  ⟨.refl f, by simp⟩

/-- One more axis, over an extent of another tensor or over a size of the tensor itself. -/
protected theorem cons (hbare : Bare f f₁) (hf : Sound f₁) (hhas : f₁.HasAxis a)
    (ha : f₁.extent a ∈ xs ∨ ∀ tensor, f₁.IsSizeOf (f₁.extent a) tensor → own = some tensor)
    (hb : Builds f₁ f') (hrest : MakesOver xs own f₁ as f') : MakesOver xs own f (a :: as) f' := by
  refine ⟨hbare.trans hrest.bare hb.ext, fun b hb' => ?_⟩
  rcases List.mem_cons.1 hb' with rfl | hb'
  · rw [hb.ext.extent b hhas]
    refine ⟨hb.ext.hasAxis hhas, ha.imp_right fun hsize tensor h => hsize tensor ?_⟩
    rwa [hb.ext.isSizeOf (hf.extents b hhas)] at h
  · exact hrest.extent b hb'

/-- An axis over the extent of an axis that is there. -/
theorem copyExtent {kind : AxisKind} {b : AxisId} (hf : Sound f) (hb : f.HasAxis b)
    (hx : f.extent b ∈ xs) (h : Edit.Gives (Edit.newAxis (f.extent b) kind) f a f₁)
    (hbuilds : Builds f₁ f') (hrest : MakesOver xs own f₁ as f') :
    MakesOver xs own f (a :: as) f' := by
  obtain ⟨hstep, -, hhas, hextent, -⟩ := Edit.newAxis_builds hf (hf.extents b hb) h
  exact .cons (.newAxis h) hstep.sound hhas (.inl (hextent ▸ hx)) hbuilds hrest

end MakesOver

/-- The results of an expression over new axes inherit their extents from its operands. -/
theorem Inherits.results {x : Expr} {root : List AxisId} (h : Inherits f) (hf : Sound f)
    (hb : Builds f (f₂.pushExpr x)) (ha : Adds f (f₂.pushExpr x)) (hover : MakesOver xs none f root f₁)
    (hf₁ : Sound f₁) (hext : Extends f₁ f₂)
    (hxs : ∀ y ∈ xs, ∃ u ∈ x.inputs, f.isTensor u = true ∧ ∃ b ∈ f.shape u, f.extent b = y)
    (hroot : ∀ v ∈ x.outputs, f₂.isTensor v = true ∧ (f₂.view v).domain.root = root)
    (hothers : ∀ v, ¬ f₁.HasValue v → v ∉ x.outputs →
      f₂.isTensor v = false ∧ f₂.definition v = none) : Inherits (f₂.pushExpr x) := by
  have hbare : ∀ v, ¬ f.HasValue v → v ∉ x.outputs →
      f₂.isTensor v = false ∧ f₂.definition v = none := by
    intro v hv hout
    by_cases hold : f₁.HasValue v
    · obtain ⟨ht, hdef⟩ := hover.bare v hv
      refine ⟨(hext.isTensor v hold).trans ht, ?_⟩
      have hexpr := hext.definingExpr v hold ht
      rw [definingExpr?, definingExpr?, hdef] at hexpr
      exact Option.map_eq_none_iff.1 hexpr
    · exact hothers v hold hout
  refine h.advance hf hb ha (fun v e hv hdef => ?_) fun v hv => ?_
  · by_cases hout : v ∈ x.outputs
    · rw [isTensor_pushExpr]
      exact .inl (hroot v hout).1
    · rw [definition_pushExpr, if_neg fun hmem => hout hmem.1, (hbare v hv hout).2] at hdef
      cases hdef
  · by_cases hout : v ∈ x.outputs
    · obtain ⟨ht, hview⟩ := hroot v hout
      intro a hmem tensor hsize
      rw [view_pushExpr, hview] at hmem
      obtain ⟨hhas, hextent⟩ := hover.extent a hmem
      have hsame : (f₂.pushExpr x).extent a = f₁.extent a := by
        rw [Fusion.extent, Fusion.axis, axes_pushExpr]
        exact hext.extent a hhas
      rw [hsame] at hsize ⊢
      rw [isSizeOf_congr (kind_pushExpr f₂ x _), hext.isSizeOf (hf₁.extents a hhas)] at hsize
      obtain hmem | hnone := hextent
      · obtain ⟨u, hu, hut, b, hbu, hb'⟩ := hxs _ hmem
        have hhasu := hasValue_of_isTensor hut
        refine .inr ⟨x, definingExpr?_pushExpr f₂ hout (hasValue_of_isTensor ht), u, hu,
          (hb.ext.isTensor u hhasu).trans hut, b, ?_, ?_⟩
        · rwa [hb.shape hf hhasu]
        · rw [hb.ext.extent b (Build.hasAxis_of_mem_shape hf hbu), hb']
      · cases hnone tensor hsize
    · refine inherited_of_scalar ?_
      rw [isTensor_pushExpr]
      exact (hbare v hv hout).1

end Fusion

namespace Build

variable {f f' f₁ : Fusion} {out : ValueId}

/-! ## Element-wise operations -/

/-- A literal operand has no sizes. -/
theorem resolve_inherits {x : Operand} {v : ValueId} (h : Inherits f) (hf : Sound f)
    (hx : Known f x) (hv : Edit.Gives (resolve x) f v f') : Inherits f' := by
  refine h.bare hf (resolve_builds hf hx hv).1 (resolve_adding x f v f' hv) ?_
  cases x with
  | value w =>
      obtain ⟨-, rfl⟩ := Edit.gives_pure.1 hv
      exact .refl f
  | literal c =>
      obtain ⟨-, rfl⟩ := Edit.gives_newValue.1 hv
      exact .pushScalar f _ _

/-- A literal of a chosen type has no sizes. -/
theorem newConstTyped_inherits {c : Constant} {t : DataType} {v : ValueId} (h : Inherits f)
    (hf : Sound f) (hv : Edit.Gives (Edit.newConstTyped c t) f v f') : Inherits f' := by
  refine h.bare hf (newConstTyped_builds hf hv) (Edit.newConstTyped_adding c t f v f' hv) ?_
  obtain ⟨-, rfl⟩ := Edit.gives_newValue.1 hv
  exact .pushScalar f _ _

/-- The axes of an element-wise result have extents of the operands' axes. -/
theorem elementwiseAxes_over {xs : List ValueId} (hf : Sound f) {columns : List (List AxisId)}
    {as : List AxisId} (hcolumns : ∀ column ∈ columns, column ≠ [] ∧
      ∀ a ∈ column, f.HasAxis a ∧ f.extent a ∈ xs)
    (h : Edit.Gives (elementwiseAxes columns) f as f') : MakesOver xs none f as f' := by
  induction columns generalizing f as with
  | nil =>
      obtain ⟨rfl, rfl⟩ := Edit.gives_pure.1 h
      exact .nil
  | cons column columns ih =>
      obtain ⟨hne, hcolumn⟩ := hcolumns column List.mem_cons_self
      -- the axis takes its extent from one of the column
      have hstep : ∀ {b : AxisId} {kind : AxisKind} {a : AxisId} {f₁ : Fusion}
          {as : List AxisId}, b ∈ column → Edit.Gives (Edit.newAxis (f.extent b) kind) f a f₁ →
          Edit.Gives (elementwiseAxes columns) f₁ as f' → MakesOver xs none f (a :: as) f' := by
        intro b kind a f₁ as hb ha has
        obtain ⟨hhas, hx⟩ := hcolumn b hb
        have hone := (Edit.newAxis_builds hf (hf.extents b hhas) ha).1
        have hlater : ∀ c ∈ columns, c ≠ [] ∧ ∀ a ∈ c, f₁.HasAxis a ∧ f₁.extent a ∈ xs := by
          intro c hc
          obtain ⟨hne, hc⟩ := hcolumns c (List.mem_cons_of_mem column hc)
          refine ⟨hne, fun a ha => ⟨hone.ext.hasAxis (hc a ha).1, ?_⟩⟩
          rw [hone.ext.extent a (hc a ha).1]
          exact (hc a ha).2
        have hmakes : MakesAxes False f₁ as f' := elementwiseAxes_makes hone.sound
          (fun c hc => ⟨(hlater c hc).1, fun a ha => ⟨((hlater c hc).2 a ha).1, False.elim⟩⟩) has
        exact .copyExtent hf hhas hx ha (hmakes.builds hone.sound) (ih hone.sound hlater has)
      unfold elementwiseAxes at h
      obtain ⟨f₀, f₁, hget, h⟩ := Edit.gives_bind.1 h
      obtain ⟨rfl, rfl⟩ := Edit.gives_get.1 hget
      dsimp only at h
      split at h
      case h_1 b hb =>
          obtain ⟨a, f₂, ha, h⟩ := Edit.gives_bind.1 h
          obtain ⟨as, f₃, has, h⟩ := Edit.gives_bind.1 h
          obtain ⟨rfl, rfl⟩ := Edit.gives_pure.1 h
          exact hstep (List.mem_of_find?_eq_some hb) ha has
      case h_2 hb =>
          obtain ⟨a, f₂, ha, h⟩ := Edit.gives_bind.1 h
          obtain ⟨as, f₃, has, h⟩ := Edit.gives_bind.1 h
          obtain ⟨rfl, rfl⟩ := Edit.gives_pure.1 h
          obtain ⟨b, rest, rfl⟩ := List.exists_cons_of_ne_nil hne
          exact hstep List.mem_cons_self ha has

/-- The extents of what consumers see of some values, tensors among them. -/
def extentsOf (f : Fusion) (operands : List ValueId) : List ValueId :=
  (operands.filter f.isTensor).flatMap fun v => (f.shape v).map f.extent

/-- The extents that an operation may take over are those in the shapes of its operands. -/
theorem mem_extentsOf {operands : List ValueId} {y : ValueId} : y ∈ extentsOf f operands ↔
    ∃ u ∈ operands, f.isTensor u = true ∧ ∃ b ∈ f.shape u, f.extent b = y := by
  simp only [extentsOf, List.mem_flatMap, List.mem_filter, List.mem_map]
  constructor
  · rintro ⟨u, ⟨hu, ht⟩, b, hb, hy⟩
    exact ⟨u, hu, ht, b, hb, hy⟩
  · rintro ⟨u, hu, ht, b, hb, hy⟩
    exact ⟨u, ⟨hu, ht⟩, b, hb, hy⟩

/-- Among tensors with one root, a new one with that root. -/
theorem root_pushTensor {t : DataType} {root : List AxisId} {v : ValueId}
    (h : v.index = f.values.size ∨ f.isTensor v = true ∧ (f.view v).domain.root = root) :
    (f.pushValue t (.tensor { domain := .contiguous root })).isTensor v = true ∧
      ((f.pushValue t (.tensor { domain := .contiguous root })).view v).domain.root = root := by
  rw [view_pushTensor, isTensor, value_pushValue]
  split
  case isTrue => exact ⟨rfl, rfl⟩
  case isFalse hold => exact h.resolve_left hold

/-- A tensor over new axes, defined by an expression. -/
theorem result_inherits {root : List AxisId} {t : DataType} {kind : ExprKind}
    {operands : List ValueId} (h : Inherits f) (hf : Sound f) (hmakes : MakesAxes (Plain f) f root f₁)
    (hover : MakesOver (extentsOf f operands) none f root f₁)
    (hops : ∀ v ∈ operands, f.HasValue v)
    (hadds : Adds f ((f₁.pushValue t (.tensor { domain := .contiguous root })).pushExpr
      ⟨kind, operands, [⟨f₁.values.size⟩]⟩)) :
    Inherits ((f₁.pushValue t (.tensor { domain := .contiguous root })).pushExpr
      ⟨kind, operands, [⟨f₁.values.size⟩]⟩) := by
  refine h.results hf (tensorResult_builds hf hmakes hops) hadds hover (hmakes.builds hf).sound
    (extends_pushValue f₁ t _) (fun y hy => mem_extentsOf.1 hy) (fun v hv => ?_) fun v hv hout => ?_
  · rw [List.mem_singleton.1 hv]
    exact root_pushTensor (.inl rfl)
  · have hne : v.index ≠ f₁.values.size := fun heq => hout (by simp [← heq])
    rw [Fusion.isTensor, Fusion.definition, value_pushValue, if_neg hne]
    exact Bare.refl f₁ v hv

/-- An element-wise result takes its extents from its operands. -/
theorem elementwise_inherits {kind : ExprKind} {operands : List ValueId} {t : DataType}
    (h : Inherits f) (hf : Sound f) (hops : ∀ v ∈ operands, f.HasValue v) (hne : operands ≠ [])
    (hcall : (elementwise kind operands t).Returns f out f') : Inherits f' := by
  have hadds := elementwise_adding kind operands t f f' hcall.leaves
  by_cases hs : ∀ v ∈ operands, f.isTensor v = false
  · have hb := elementwise_builds hf hops hne hcall
    obtain ⟨rfl, rfl⟩ := elementwise_scalar hs hcall
    have hscalar : ∀ v, ¬ f.HasValue v → ((f.pushValue t (.scalar .symbolic)).pushExpr
        ⟨kind, operands, [⟨f.values.size⟩]⟩).isTensor v = false := by
      intro v hv
      rw [isTensor_pushExpr]
      exact (Bare.pushScalar f t .symbolic v hv).1
    refine h.advance hf hb hadds (fun v e hv hdef => .inr ?_) fun v hv =>
      inherited_of_scalar (hscalar v hv)
    rw [definition_pushExpr] at hdef
    split at hdef
    case isTrue hmem =>
        rw [kind_pushExpr, List.mem_singleton.1 hmem.1, value_pushValue, if_pos rfl]
    case isFalse =>
        rw [(Bare.pushScalar f t .symbolic v hv).2] at hdef
        cases hdef
  · obtain ⟨cols, root, f₁, hcols, hroot, rfl, rfl⟩ := elementwise_columns hs hcall
    have hcolumn : ∀ column ∈ cols, column ≠ [] ∧
        ∀ a ∈ column, f.HasAxis a ∧ f.extent a ∈ extentsOf f operands := by
      intro column hcolumn
      obtain ⟨hne, hmem⟩ := hcols column hcolumn
      refine ⟨hne, fun a ha => ?_⟩
      obtain ⟨v, hv, ht, has⟩ := hmem a ha
      exact ⟨hasAxis_of_mem_shape hf has, mem_extentsOf.2 ⟨v, hv, ht, a, has, rfl⟩⟩
    refine result_inherits h hf (elementwiseAxes_makes hf (fun column hc => ?_) hroot)
      (elementwiseAxes_over hf hcolumn hroot) hops hadds
    refine ⟨(hcolumn column hc).1, fun a ha => ⟨((hcolumn column hc).2 a ha).1, fun hp => ?_⟩⟩
    obtain ⟨v, -, -, has⟩ := (hcols column hc).2 a ha
    exact plainAxis_of_mem_shape hp has

section Operations

variable {x y z : Operand}

/-- A literal result, or the result of an element-wise operation. -/
theorem folded_inherits {c : Option Constant} {t : DataType} {kind : ExprKind}
    {operands : List ValueId} (h : Inherits f) (hf : Sound f)
    (hops : ∀ v ∈ operands, f.HasValue v) (hne : operands ≠ [])
    (hcall : (match c with
      | some c => (liftM (Edit.newConstTyped c t) : Build ValueId)
      | none => elementwise kind operands t).Returns f out f') : Inherits f' := by
  cases c with
  | some c => exact newConstTyped_inherits h hf (EditE.returns_lift.1 hcall)
  | none => exact elementwise_inherits h hf hops hne hcall

/-- The result of a unary operation takes its extents from its operand. -/
theorem unaryOp_inherits {op : UnaryOp} (h : Inherits f) (hf : Sound f) (hx : Known f x)
    (hcall : (unaryOp op x).Returns f out f') : Inherits f' := by
  unfold unaryOp at hcall
  obtain ⟨v, f₁, hv, hcall⟩ := EditE.returns_bind.1 hcall
  obtain ⟨hb, hhas⟩ := resolve_builds hf hx (EditE.returns_lift.1 hv)
  have h₁ := resolve_inherits h hf hx (EditE.returns_lift.1 hv)
  obtain ⟨f₀, f₂, hget, hcall⟩ := EditE.returns_bind.1 hcall
  obtain ⟨rfl, rfl⟩ := EditE.returns_get.1 hget
  dsimp only at hcall
  split at hcall
  · simp at hcall
  · split at hcall
    · exact newConstTyped_inherits h₁ hb.sound (EditE.returns_lift.1 hcall)
    · exact elementwise_inherits h₁ hb.sound (by simpa using hhas) (by simp) hcall

/-- A copy takes its extents from what it copies. -/
theorem copy_inherits (h : Inherits f) (hf : Sound f) (hx : Known f x)
    (hcall : (copy x).Returns f out f') : Inherits f' := by
  unfold copy at hcall
  obtain ⟨v, f₁, hv, hcall⟩ := EditE.returns_bind.1 hcall
  obtain ⟨hb, hhas⟩ := resolve_builds hf hx (EditE.returns_lift.1 hv)
  have h₁ := resolve_inherits h hf hx (EditE.returns_lift.1 hv)
  obtain ⟨f₀, f₂, hget, hcall⟩ := EditE.returns_bind.1 hcall
  obtain ⟨rfl, rfl⟩ := EditE.returns_get.1 hget
  exact elementwise_inherits h₁ hb.sound (by simpa using hhas) (by simp) hcall

/-- A conversion takes its extents from what it converts. -/
theorem cast_inherits {t : DataType} (h : Inherits f) (hf : Sound f) (hx : Known f x)
    (hcall : (cast x t).Returns f out f') : Inherits f' := by
  unfold cast at hcall
  obtain ⟨v, f₁, hv, hcall⟩ := EditE.returns_bind.1 hcall
  obtain ⟨hb, hhas⟩ := resolve_builds hf hx (EditE.returns_lift.1 hv)
  have h₁ := resolve_inherits h hf hx (EditE.returns_lift.1 hv)
  obtain ⟨f₀, f₂, hget, hcall⟩ := EditE.returns_bind.1 hcall
  obtain ⟨rfl, rfl⟩ := EditE.returns_get.1 hget
  split at hcall
  · exact newConstTyped_inherits h₁ hb.sound (EditE.returns_lift.1 hcall)
  · exact elementwise_inherits h₁ hb.sound (by simpa using hhas) (by simp) hcall

/-- The result of a binary operation takes its extents from its operands. -/
theorem binaryOp_inherits {op : BinaryOp} (h : Inherits f) (hf : Sound f) (hx : Known f x)
    (hy : Known f y) (hcall : (binaryOp op x y).Returns f out f') : Inherits f' := by
  unfold binaryOp at hcall
  obtain ⟨u, f₁, hu, hcall⟩ := EditE.returns_bind.1 hcall
  obtain ⟨hb₁, hhas₁⟩ := resolve_builds hf hx (EditE.returns_lift.1 hu)
  have h₁ := resolve_inherits h hf hx (EditE.returns_lift.1 hu)
  obtain ⟨v, f₂, hv, hcall⟩ := EditE.returns_bind.1 hcall
  obtain ⟨hb₂, hhas₂⟩ := resolve_builds hb₁.sound (hy.mono hb₁.ext) (EditE.returns_lift.1 hv)
  have h₂ := resolve_inherits h₁ hb₁.sound (hy.mono hb₁.ext) (EditE.returns_lift.1 hv)
  obtain ⟨f₀, f₃, hget, hcall⟩ := EditE.returns_bind.1 hcall
  obtain ⟨rfl, rfl⟩ := EditE.returns_get.1 hget
  dsimp only at hcall
  split at hcall
  · simp at hcall
  · refine folded_inherits h₂ hb₂.sound ?_ (by simp) hcall
    simp only [List.mem_cons, List.not_mem_nil, or_false]
    rintro w (rfl | rfl)
    · exact hb₂.ext.hasValue hhas₁
    · exact hhas₂

/-- The result of a choice takes its extents from its operands. -/
theorem select_inherits (h : Inherits f) (hf : Sound f) (hx : Known f x) (hy : Known f y)
    (hz : Known f z) (hcall : (select x y z).Returns f out f') : Inherits f' := by
  unfold select at hcall
  obtain ⟨u, f₁, hu, hcall⟩ := EditE.returns_bind.1 hcall
  obtain ⟨hb₁, hhas₁⟩ := resolve_builds hf hx (EditE.returns_lift.1 hu)
  have h₁ := resolve_inherits h hf hx (EditE.returns_lift.1 hu)
  obtain ⟨v, f₂, hv, hcall⟩ := EditE.returns_bind.1 hcall
  obtain ⟨hb₂, hhas₂⟩ := resolve_builds hb₁.sound (hy.mono hb₁.ext) (EditE.returns_lift.1 hv)
  have h₂ := resolve_inherits h₁ hb₁.sound (hy.mono hb₁.ext) (EditE.returns_lift.1 hv)
  obtain ⟨w, f₃, hw, hcall⟩ := EditE.returns_bind.1 hcall
  have hz₂ := hz.mono (hb₁.trans hb₂).ext
  obtain ⟨hb₃, hhas₃⟩ := resolve_builds hb₂.sound hz₂ (EditE.returns_lift.1 hw)
  have h₃ := resolve_inherits h₂ hb₂.sound hz₂ (EditE.returns_lift.1 hw)
  obtain ⟨f₀, f₄, hget, hcall⟩ := EditE.returns_bind.1 hcall
  obtain ⟨rfl, rfl⟩ := EditE.returns_get.1 hget
  dsimp only at hcall
  split at hcall
  · simp at hcall
  · refine folded_inherits h₃ hb₃.sound ?_ (by simp) hcall
    simp only [List.mem_cons, List.not_mem_nil, or_false]
    rintro a (rfl | rfl | rfl)
    · exact (hb₂.trans hb₃).ext.hasValue hhas₁
    · exact hb₃.ext.hasValue hhas₂
    · exact hhas₃

end Operations

/-! ## Reductions and broadcasts -/

/-- Each axis of a reduction takes its extent from the axis it reads. -/
theorem reducedAxes_over {xs : List ValueId} (hf : Sound f) {reduced : List Nat} {i : Nat}
    {shape as : List AxisId} (hshape : ∀ a ∈ shape, f.HasAxis a ∧ f.extent a ∈ xs)
    (h : Edit.Gives (reducedAxes reduced i shape) f as f') : MakesOver xs none f as f' := by
  induction shape generalizing f i as with
  | nil =>
      obtain ⟨rfl, rfl⟩ := Edit.gives_pure.1 h
      exact .nil
  | cons b shape ih =>
      unfold reducedAxes at h
      obtain ⟨f₀, f₁, hget, h⟩ := Edit.gives_bind.1 h
      obtain ⟨rfl, rfl⟩ := Edit.gives_get.1 hget
      obtain ⟨a, f₂, ha, h⟩ := Edit.gives_bind.1 h
      obtain ⟨as, f₃, has, h⟩ := Edit.gives_bind.1 h
      obtain ⟨rfl, rfl⟩ := Edit.gives_pure.1 h
      obtain ⟨hhas, hx⟩ := hshape b List.mem_cons_self
      have hone := (Edit.newAxis_builds hf (hf.extents b hhas) ha).1
      have hlater : ∀ c ∈ shape, f₂.HasAxis c ∧ f₂.extent c ∈ xs := by
        intro c hc
        obtain ⟨hc, hx⟩ := hshape c (List.mem_cons_of_mem b hc)
        exact ⟨hone.ext.hasAxis hc, by rwa [hone.ext.extent c hc]⟩
      have hmakes : MakesAxes False f₂ as f₃ := reducedAxes_makes hone.sound
        (fun c hc => ⟨(hlater c hc).1, False.elim⟩) has
      exact .copyExtent hf hhas hx ha (hmakes.builds hone.sound) (ih hone.sound hlater has)

/-- The root of a reduction takes its extents from the tensor it reads. -/
theorem reductionRoot_over {tensor : ValueId} {axes : List Int} {root : List AxisId} (hf : Sound f)
    (ht : f.isTensor tensor = true) (h : (reductionRoot tensor axes).Returns f root f') :
    MakesOver (extentsOf f [tensor]) none f root f' := by
  unfold reductionRoot at h
  dsimp only at h
  split at h
  · simp at h
  · simp only [EditE.returns_bind, EditE.returns_get, EditE.returns_ofExcept,
      EditE.returns_lift] at h
    obtain ⟨f₀, f₁, ⟨rfl, rfl⟩, reduced, f₂, ⟨-, rfl⟩, h⟩ := h
    refine reducedAxes_over hf (fun a ha => ⟨hasAxis_of_mem_shape hf ha, ?_⟩) h
    exact mem_extentsOf.2 ⟨tensor, List.mem_singleton_self _, ht, a, ha, rfl⟩

/-- A reduction takes its extents from the tensor it reads. -/
theorem reductionOp_inherits {op : BinaryOp} {axes : List Int} {init : Constant}
    {tensor : ValueId} (h : Inherits f) (hf : Sound f)
    (hcall : (reductionOp op axes init tensor).Returns f out f') : Inherits f' := by
  have hadds := reductionOp_adding op axes init tensor f f' hcall.leaves
  unfold reductionOp at hcall
  obtain ⟨u, f₁, htensor, hcall⟩ := EditE.returns_bind.1 hcall
  obtain ⟨x, hx⟩ := EditE.returns_discard.1 htensor
  obtain ⟨hview, rfl⟩ := returns_ensureTensor.1 hx
  have ht := isTensor_of_view? hview
  dsimp only at hcall
  split at hcall
  · simp at hcall
  · simp only [EditE.returns_bind, EditE.returns_get, EditE.returns_lift, EditE.returns_discard,
      EditE.returns_pure, Edit.newTensor, Edit.gives_newValue, Edit.gives_addExpr] at hcall
    obtain ⟨f₀, f₁, ⟨rfl, rfl⟩, root, f₂, hroot, v, f₃, ⟨rfl, rfl⟩, -, f₄, ⟨e, -, rfl⟩, rfl,
      rfl⟩ := hcall
    refine result_inherits h hf (reductionRoot_makes hf hroot) (reductionRoot_over hf ht hroot)
      (fun v hv => ?_) hadds
    rw [List.mem_singleton.1 hv]
    exact hasValue_of_isTensor ht

/-- A reduction from the neutral value takes its extents from the tensor it reads. -/
theorem reduce_inherits {op : BinaryOp} {axes : List Int} {tensor : ValueId} (h : Inherits f)
    (hf : Sound f) (hcall : (reduce op tensor axes).Returns f out f') : Inherits f' := by
  unfold reduce at hcall
  obtain ⟨f₀, f₁, hget, hcall⟩ := EditE.returns_bind.1 hcall
  obtain ⟨rfl, rfl⟩ := EditE.returns_get.1 hget
  split at hcall
  · exact reductionOp_inherits h hf hcall
  · simp at hcall

/-- The results of a Welford reduction take their extents from the tensor it reads. -/
theorem welford_inherits {tensor : ValueId} {axes : List Int} {out : Moments ValueId}
    (h : Inherits f) (hf : Sound f) (hcall : (welford tensor axes).Returns f out f') :
    Inherits f' := by
  have hadds := welford_adding tensor axes f f' hcall.leaves
  have hb := welford_builds hf hcall
  unfold welford at hcall
  obtain ⟨u, f₁, htensor, hcall⟩ := EditE.returns_bind.1 hcall
  obtain ⟨x, hx⟩ := EditE.returns_discard.1 htensor
  obtain ⟨hview, rfl⟩ := returns_ensureTensor.1 hx
  have ht := isTensor_of_view? hview
  obtain ⟨f₀, f₁, hget, hcall⟩ := EditE.returns_bind.1 hcall
  obtain ⟨rfl, rfl⟩ := EditE.returns_get.1 hget
  dsimp only at hcall
  split at hcall
  · simp at hcall
  · simp only [EditE.returns_bind, EditE.returns_lift, EditE.returns_discard, EditE.returns_pure,
      Edit.newTensor, Edit.gives_newValue, Edit.gives_addExpr] at hcall
    obtain ⟨root, f₂, hroot, v₁, f₃, ⟨rfl, rfl⟩, v₂, f₄, ⟨rfl, rfl⟩, v₃, f₅, ⟨rfl, rfl⟩, -, f₆,
      ⟨e, -, rfl⟩, -, rfl⟩ := hcall
    have hmakes := reductionRoot_makes hf hroot
    have hsize : ∀ (g : Fusion) (t : DataType) (x : ValueKind),
        (g.pushValue t x).values.size = g.values.size + 1 := fun g t x => Array.size_push _
    refine h.results hf hb hadds (reductionRoot_over hf ht hroot) (hmakes.builds hf).sound
      (((extends_pushValue f₂ _ _).trans (extends_pushValue _ _ _)).trans (extends_pushValue _ _ _))
      (fun y hy => mem_extentsOf.1 hy) (fun v hv => ?_) fun v hv hout => ?_
    · simp only [List.mem_cons, List.not_mem_nil, or_false] at hv
      rcases hv with rfl | rfl | rfl
      · exact root_pushTensor (.inr (root_pushTensor (.inr (root_pushTensor (.inl rfl)))))
      · exact root_pushTensor (.inr (root_pushTensor (.inl rfl)))
      · exact root_pushTensor (.inl rfl)
    · have hbare := Bare.refl f₂ v hv
      simp only [hsize, List.mem_cons, List.not_mem_nil, or_false, not_or] at hout
      have hne : v.index ≠ f₂.values.size ∧ v.index ≠ f₂.values.size + 1 ∧
          v.index ≠ f₂.values.size + 1 + 1 := by
        cases v
        simpa using hout
      rw [isTensor, Fusion.definition, value_pushValue, hsize, hsize, if_neg hne.2.2, value_pushValue,
        hsize, if_neg hne.2.1, value_pushValue, if_neg hne.1]
      exact hbare

/-- Each axis of a broadcast takes over an extent, or it is new and of size one. -/
theorem broadcastAxes_over {xs : List ValueId} (hf : Sound f) {flags : List Bool}
    {shape as : List AxisId} (hlength : (flags.filter (!·)).length = shape.length)
    (hshape : ∀ a ∈ shape, f.HasAxis a ∧ f.extent a ∈ xs)
    (h : Edit.Gives (broadcastAxes flags shape) f as f') : MakesOver xs none f as f' := by
  induction flags generalizing f shape as with
  | nil =>
      obtain ⟨rfl, rfl⟩ := Edit.gives_pure.1 h
      exact .nil
  | cons flag flags ih =>
      have hkeep : ∀ {f₁ : Fusion}, Builds f f₁ → ∀ c ∈ shape, f₁.HasAxis c ∧ f₁.extent c ∈ xs := by
        intro f₁ hstep c hc
        obtain ⟨hc, hx⟩ := hshape c hc
        exact ⟨hstep.ext.hasAxis hc, by rwa [hstep.ext.extent c hc]⟩
      have hmakes : ∀ {f₁ : Fusion} {shape as : List AxisId}, Sound f₁ →
          (flags.filter (!·)).length = shape.length → (∀ c ∈ shape, f₁.HasAxis c) →
          Edit.Gives (broadcastAxes flags shape) f₁ as f' → Builds f₁ f' := by
        intro f₁ shape as hf₁ hlength hhas has
        have hmakes : MakesAxes False f₁ as f' :=
          broadcastAxes_makes hf₁ hlength (fun c hc => ⟨hhas c hc, False.elim⟩) has
        exact hmakes.builds hf₁
      cases flag with
      | true =>
          unfold broadcastAxes at h
          obtain ⟨one, f₁, hone, h⟩ := Edit.gives_bind.1 h
          obtain ⟨a, f₂, ha, h⟩ := Edit.gives_bind.1 h
          obtain ⟨as, f₃, has, h⟩ := Edit.gives_bind.1 h
          obtain ⟨rfl, rfl⟩ := Edit.gives_pure.1 h
          have hb₁ := Edit.newConst_builds hf hone
          obtain ⟨rfl, rfl⟩ := Edit.gives_newValue.1 hone
          have hint : (f.pushValue .int64 (.scalar (.const (.int 1)))).IntegerScalar
              ⟨f.values.size⟩ := integerScalar_pushValue rfl
          obtain ⟨hb₂, -, hhas, hextent, -⟩ := Edit.newAxis_builds hb₁.sound hint ha
          have hb := hb₁.trans hb₂
          have hlength : (flags.filter (!·)).length = shape.length := by simpa using hlength
          refine .cons ((Bare.pushScalar f _ _).trans (.newAxis ha) hb₂.ext) hb.sound hhas
            (.inr fun tensor hsize => ?_)
            (hmakes hb.sound hlength (fun c hc => (hkeep hb c hc).1) has)
            (ih hb.sound hlength (hkeep hb) has)
          -- the extent is the literal one
          rw [hextent, hb₂.ext.isSizeOf hint] at hsize
          obtain ⟨dim, hdim⟩ := hsize
          rw [value_pushValue, if_pos rfl] at hdim
          cases hdim
      | false =>
          cases shape with
          | nil => simp at hlength
          | cons b shape =>
              unfold broadcastAxes at h
              obtain ⟨f₀, f₁, hget, h⟩ := Edit.gives_bind.1 h
              obtain ⟨rfl, rfl⟩ := Edit.gives_get.1 hget
              obtain ⟨a, f₂, ha, h⟩ := Edit.gives_bind.1 h
              obtain ⟨as, f₃, has, h⟩ := Edit.gives_bind.1 h
              obtain ⟨rfl, rfl⟩ := Edit.gives_pure.1 h
              obtain ⟨hhas, hx⟩ := hshape b List.mem_cons_self
              have hone := (Edit.newAxis_builds hf (hf.extents b hhas) ha).1
              have hlength : (flags.filter (!·)).length = shape.length := by simpa using hlength
              have hlater := fun c hc => hkeep hone c (List.mem_cons_of_mem b hc)
              exact .copyExtent hf hhas hx ha
                (hmakes hone.sound hlength (fun c hc => (hlater c hc).1) has)
                (ih hone.sound hlength hlater has)

/-- A broadcast takes its extents from the tensor it reads. -/
theorem broadcast_inherits {tensor : ValueId} {flags : List Bool} (h : Inherits f) (hf : Sound f)
    (hcall : (broadcast tensor flags).Returns f out f') : Inherits f' := by
  have hadds := broadcast_adding tensor flags f f' hcall.leaves
  unfold broadcast at hcall
  obtain ⟨u, f₁, htensor, hcall⟩ := EditE.returns_bind.1 hcall
  obtain ⟨x, hx⟩ := EditE.returns_discard.1 htensor
  obtain ⟨hview, rfl⟩ := returns_ensureTensor.1 hx
  have ht := isTensor_of_view? hview
  obtain ⟨f₀, f₁, hget, hcall⟩ := EditE.returns_bind.1 hcall
  obtain ⟨rfl, rfl⟩ := EditE.returns_get.1 hget
  dsimp only at hcall
  split at hcall
  · simp at hcall
  case isFalse hlength =>
      simp only [EditE.returns_bind, EditE.returns_lift, EditE.returns_discard,
        EditE.returns_pure, Edit.newTensor, Edit.gives_newValue, Edit.gives_addExpr] at hcall
      obtain ⟨root, f₂, hroot, v, f₃, ⟨rfl, rfl⟩, -, f₄, ⟨e, -, rfl⟩, rfl, rfl⟩ := hcall
      have hlength := not_not.1 hlength
      refine result_inherits h hf (broadcastAxes_makes hf hlength (fun a ha => ?_) hroot)
        (broadcastAxes_over hf hlength (fun a ha => ?_) hroot) (fun v hv => ?_) hadds
      · exact ⟨hasAxis_of_mem_shape hf ha, fun hp => plainAxis_of_mem_shape hp ha⟩
      · exact ⟨hasAxis_of_mem_shape hf ha,
          mem_extentsOf.2 ⟨tensor, List.mem_singleton_self _, ht, a, ha, rfl⟩⟩
      · rw [List.mem_singleton.1 hv]
        exact hasValue_of_isTensor ht

/-! ## Declared tensors -/

/-- The axes of an input tensor have literal extents or sizes of this tensor. -/
theorem declareAxes_over {tensor : ValueId} (hf : Sound f) {dim : Nat} {sizes : List Int}
    {as : List AxisId} (h : Edit.Gives (declareAxes tensor dim sizes) f as f') :
    MakesOver [] (some tensor) f as f' := by
  induction sizes generalizing f dim as with
  | nil =>
      obtain ⟨rfl, rfl⟩ := Edit.gives_pure.1 h
      exact .nil
  | cons size sizes ih =>
      -- every branch makes the extent, a literal or a size of the tensor, and an axis over it
      have hstep : ∀ {k : ScalarKind} {kind : AxisKind} {v : ValueId} {f₁ : Fusion},
          (∀ c, k = .const c → ∃ n, c = .int n) →
          (∀ other d, k = .tensorSize other d → other = tensor) →
          Edit.Gives (Edit.newValue .int64 (.scalar k)) f v f₁ →
          Edit.Gives (do
            let axis ← Edit.newAxis v kind
            return axis :: (← declareAxes tensor (dim + 1) sizes)) f₁ as f' →
          MakesOver [] (some tensor) f as f' := by
        intro k kind v f₁ hconst hown hv hrest
        obtain ⟨rfl, rfl⟩ := Edit.gives_newValue.1 hv
        have hb₁ : Builds f (f.pushValue .int64 (.scalar k)) :=
          Builds.pushScalar hf fun c hc _ => hconst c hc
        have hint : (f.pushValue .int64 (.scalar k)).IntegerScalar ⟨f.values.size⟩ :=
          integerScalar_pushValue rfl
        obtain ⟨a, f₂, ha, hrest⟩ := Edit.gives_bind.1 hrest
        obtain ⟨as, f₃, has, hpure⟩ := Edit.gives_bind.1 hrest
        obtain ⟨rfl, rfl⟩ := Edit.gives_pure.1 hpure
        obtain ⟨hb₂, -, hhas, hextent, -⟩ := Edit.newAxis_builds hb₁.sound hint ha
        have hmakes : MakesAxes False f₂ as f₃ := declareAxes_makes hb₂.sound has
        refine .cons ((Bare.pushScalar f _ _).trans (.newAxis ha) hb₂.ext) hb₂.sound hhas
          (.inr fun other hsize => ?_) (hmakes.builds hb₂.sound) (ih hb₂.sound has)
        rw [hextent, hb₂.ext.isSizeOf hint] at hsize
        obtain ⟨d, hd⟩ := hsize
        rw [value_pushValue, if_pos rfl] at hd
        rw [hown other d (by injection hd)]
      unfold declareAxes at h
      dsimp only at h
      split at h
      · obtain ⟨v, f₁, hv, hrest⟩ := Edit.gives_bind.1 h
        exact hstep (by simp) (by simp) hv hrest
      · split at h
        · obtain ⟨v, f₁, hv, hrest⟩ := Edit.gives_bind.1 h
          exact hstep (by simp) (by simp) hv hrest
        · obtain ⟨v, f₁, hv, hrest⟩ := Edit.gives_bind.1 h
          exact hstep (by simp) (by simp) hv hrest

/-- A declared tensor has sizes of its own. -/
theorem declareTensor_inherits {sizes : List Int} {contiguity : List Bool} {t : DataType}
    {v : ValueId} (h : Inherits f) (hf : Sound f)
    (hcall : Edit.Gives (declareTensor sizes contiguity t) f v f') : Inherits f' := by
  have hb := declareTensor_builds hf hcall
  have hadds := declareTensor_adding sizes contiguity t f v f' hcall
  obtain ⟨tensor, f₁, htensor, hcall⟩ := Edit.gives_bind.1 hcall
  obtain ⟨root, f₂, hroot, hcall⟩ := Edit.gives_bind.1 hcall
  obtain ⟨u, f₃, hmodify, hcall⟩ := Edit.gives_bind.1 hcall
  obtain ⟨rfl, rfl⟩ := Edit.gives_pure.1 hcall
  obtain rfl := Edit.gives_modify.1 hmodify
  obtain ⟨rfl, rfl⟩ := Edit.gives_newValue.1 htensor
  have hb₁ : Builds f (f.pushValue t (.tensor { domain := .contiguous [] })) :=
    (Builds.refl hf).pushTensor List.nodup_nil (by simp) (by simp)
  have hmakes : MakesAxes False _ root f₂ := declareAxes_makes hb₁.sound hroot
  have hb₂ := hmakes.builds hb₁.sound
  have hover := declareAxes_over hb₁.sound hroot
  have hsame := SameGraph.modifyView f₂ ⟨f.values.size⟩ fun x =>
    { x with domain := .ofRoot root contiguity }
  -- nothing computes a new value, and only the tensor is one
  have hnone : ∀ w, ¬ f.HasValue w → f₂.definition w = none ∧
      (w ≠ ⟨f.values.size⟩ → f₂.isTensor w = false) := by
    intro w hw
    have hflow := SameFlow.pushValue f t (.tensor { domain := .contiguous [] })
    by_cases hold : (f.pushValue t (.tensor { domain := .contiguous [] })).HasValue w
    · have heq : w = ⟨f.values.size⟩ := by
        cases w
        simp only [HasValue, pushValue, Array.size_push] at hold hw
        simp only [ValueId.mk.injEq]
        omega
      refine ⟨?_, fun hne => absurd heq hne⟩
      have hadds₂ := declareAxes_adding _ _ _ _ _ _ hroot
      rw [hadds₂.definition w hold, hflow.definition]
      exact (Bare.refl f w hw).2
    · obtain ⟨ht, hdef⟩ := hover.bare w hold
      exact ⟨hdef, fun _ => ht⟩
  refine h.advance hf hb hadds (fun w e hw hdef => ?_) fun w hw => ?_
  · rw [hsame.definition, (hnone w hw).1] at hdef
    cases hdef
  · by_cases hnew : w = ⟨f.values.size⟩
    · subst hnew
      intro a ha other hsize
      refine .inl ⟨(hsame.definition _).trans (hnone _ hw).1, ?_⟩
      have hmem : a ∈ root := by
        rw [view_modifyView] at ha
        split at ha
        · exact ha
        case isFalse hnot =>
            have htensor : f₂.isTensor ⟨f.values.size⟩ = true := by
              rw [hb₂.ext.isTensor _ (by simp [HasValue, pushValue]), isTensor, value_pushValue,
                if_pos rfl]
              rfl
            exact absurd ⟨rfl, htensor⟩ hnot
      obtain ⟨hhas, hextent⟩ := hover.extent a hmem
      have hkind := congrArg Value.kind (hsame.scalar (f₂.extent a) (hb₂.sound.extents a hhas).scalar)
      have hsize : f₂.IsSizeOf (f₂.extent a) other := (isSizeOf_congr hkind).1 hsize
      exact (Option.some.inj (hextent.resolve_left (by simp) other hsize)).symm
    · exact inherited_of_scalar ((hsame.isTensor w).trans ((hnone w hw).2 hnew))

/-! ## Inputs and outputs -/

/-- Declaring an input adds nothing. -/
theorem addInput_bare {v : ValueId} {u : Unit} (h : (addInput v).Returns f u f') : Bare f f' := by
  obtain ⟨-, -, rfl⟩ := returns_addInput.1 h
  exact .ofValues rfl

/-- Declaring an output adds nothing. -/
theorem addOutput_bare {v : ValueId} {u : Unit} (h : (addOutput v).Returns f u f') : Bare f f' := by
  obtain ⟨-, -, rfl⟩ := returns_addOutput.1 h
  exact .ofValues rfl

/-- Declaring an alias adds nothing. -/
theorem addAlias_bare {output input : ValueId} {u : Unit}
    (h : (addAlias output input).Returns f u f') : Bare f f' := by
  rw [← returns_addAlias h]
  exact .ofValues rfl

end Build

/-! ## Sequences of building calls -/

namespace Call

variable {f f' : Fusion} {c : Call} {replayer : Schedule.Replayer}

/-- A building call keeps sizes inherited. -/
theorem perform_building_inherits (hscope : c.scope = .building) (h : Inherits f) (hf : Sound f)
    (hknown : ∀ x ∈ c.operands, Build.Known f x) {u : Unit}
    (hcall : (c.perform replayer).Returns f u f') : Inherits f' := by
  have hbare : Bare f f' → Inherits f' :=
    h.bare hf (perform_builds hscope hf hknown hcall) (perform_adding hscope f f' hcall.leaves)
  cases c with
  | scalar t | constant c | constantTyped c t =>
      simp only [perform, EditE.returns_discard, EditE.returns_lift, Edit.newScalar, Edit.newConst,
        Edit.newConstTyped, Edit.gives_newValue] at hcall
      obtain ⟨v, -, rfl⟩ := hcall
      exact hbare (.pushScalar f _ _)
  | tensor sizes contiguity t =>
      simp only [perform, EditE.returns_discard, EditE.returns_lift] at hcall
      obtain ⟨v, hcall⟩ := hcall
      exact Build.declareTensor_inherits h hf hcall
  | unary op x =>
      simp only [perform, EditE.returns_discard, Schedule.build, EditE.returns_mapError] at hcall
      obtain ⟨v, hcall⟩ := hcall
      exact Build.unaryOp_inherits h hf (hknown x (by simp [operands])) hcall
  | copy x =>
      simp only [perform, EditE.returns_discard, Schedule.build, EditE.returns_mapError] at hcall
      obtain ⟨v, hcall⟩ := hcall
      exact Build.copy_inherits h hf (hknown x (by simp [operands])) hcall
  | cast x t =>
      simp only [perform, EditE.returns_discard, Schedule.build, EditE.returns_mapError] at hcall
      obtain ⟨v, hcall⟩ := hcall
      exact Build.cast_inherits h hf (hknown x (by simp [operands])) hcall
  | binary op x y =>
      simp only [perform, EditE.returns_discard, Schedule.build, EditE.returns_mapError] at hcall
      obtain ⟨v, hcall⟩ := hcall
      exact Build.binaryOp_inherits h hf (hknown x (by simp [operands]))
        (hknown y (by simp [operands])) hcall
  | select x y z =>
      simp only [perform, EditE.returns_discard, Schedule.build, EditE.returns_mapError] at hcall
      obtain ⟨v, hcall⟩ := hcall
      exact Build.select_inherits h hf (hknown x (by simp [operands]))
        (hknown y (by simp [operands])) (hknown z (by simp [operands])) hcall
  | reduceFrom op axes init tensor =>
      simp only [perform, EditE.returns_discard, Schedule.build, EditE.returns_mapError] at hcall
      obtain ⟨v, hcall⟩ := hcall
      exact Build.reductionOp_inherits h hf hcall
  | reduce op tensor axes =>
      simp only [perform, EditE.returns_discard, Schedule.build, EditE.returns_mapError] at hcall
      obtain ⟨v, hcall⟩ := hcall
      exact Build.reduce_inherits h hf hcall
  | welford tensor axes =>
      simp only [perform, EditE.returns_discard, Schedule.build, EditE.returns_mapError] at hcall
      obtain ⟨v, hcall⟩ := hcall
      exact Build.welford_inherits h hf hcall
  | broadcast tensor flags =>
      simp only [perform, EditE.returns_discard, Schedule.build, EditE.returns_mapError] at hcall
      obtain ⟨v, hcall⟩ := hcall
      exact Build.broadcast_inherits h hf hcall
  | input v =>
      exact hbare (Build.addInput_bare (EditE.returns_mapError.1 hcall))
  | output v => exact hbare (Build.addOutput_bare (EditE.returns_mapError.1 hcall))
  | removeInput v | removeOutput v =>
      obtain rfl := EditE.returns_modify.1 hcall
      exact hbare (.refl f)
  | aliasing out into => exact hbare (Build.addAlias_bare (EditE.returns_mapError.1 hcall))
  | _ => cases hscope

end Call

namespace Fusion

variable {f : Fusion} {calls : List Call}

/-- After every sequence of building calls, all sizes are inherited. -/
theorem applyAll_inherits (hcalls : ∀ c ∈ calls, c.scope = .building)
    (h : applyAll Schedule.replay calls {} = some f) : Inherits f := by
  have hrun : ∀ g : Fusion, Sound g → Inherits g → applyAll Schedule.replay calls g = some f →
      Inherits f := by
    clear h
    induction calls with
    | nil =>
        intro g _ hg h
        cases h
        exact hg
    | cons c calls ih =>
        intro g hs hg h
        obtain ⟨f₁, hone, h⟩ := Option.bind_eq_some_iff.1 h
        obtain ⟨hknown, u, hone⟩ := Call.outcome_eq_some hone
        have hscope := hcalls c List.mem_cons_self
        exact ih (fun d hd => hcalls d (List.mem_cons_of_mem c hd)) f₁
          (Call.perform_builds hscope hs hknown hone).sound
          (Call.perform_building_inherits hscope hg hs hknown hone) h
  exact hrun {} sound_empty inherits_empty h

end Fusion
end FusionCompiler
