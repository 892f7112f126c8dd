import FusionCompiler.Proofs.Fusion.Operations
import FusionCompiler.Proofs.Fusion.Owning

/-!
# Operations and axes of their own

Every operation gives the tensors it makes new axes.  Whether it does so depends
neither on the fusion it is applied to nor on the axes that are spare, so the
lemmas of this file follow the definitions of the operations.

Main results:

- Theorem `EditE.Owns.bind`: a sequence of steps that keep axes apart keeps them
  apart.
- Theorems `Build.elementwise_owns`, `Build.reductionOp_owns`,
  `Build.welford_owns`, `Build.broadcast_owns` and `Build.declareTensor_owns`:
  operations give every new tensor new axes.
-/

namespace FusionCompiler

open Fusion

/-! ## Sequences -/

namespace Edit

variable {α β : Type} {x : Edit α}

/-- Whatever fusion the edit is applied to, axes that were apart stay apart. -/
def Owns (x : Edit α) : Prop :=
  ∀ f a f' spare, Gives x f a f' → OwnAxes f spare → OwnAxes f' spare

/-- The axes that the edit makes are spare. -/
def Supplies (x : Edit (List AxisId)) : Prop :=
  ∀ f as f' spare, Gives x f as f' → OwnAxes f spare → OwnAxes f' (as ++ spare)

namespace Owns

/-- A result without a step. -/
protected theorem pure (a : α) : Owns (pure a) := by
  intro f b f' spare h hf
  obtain ⟨-, rfl⟩ := gives_pure.1 h
  exact hf

/-- Two edits, the second of which may depend on the result of the first. -/
protected theorem bind {k : α → Edit β} (hx : Owns x) (hk : ∀ a, Owns (k a)) :
    Owns (x >>= k) := by
  intro f b f' spare h hf
  obtain ⟨a, f₁, ha, hb⟩ := gives_bind.1 h
  exact hk a f₁ b f' spare hb (hx f a f₁ spare ha hf)

/-- A replacement of the fusion under which axes stay apart. -/
protected theorem modify {g : Fusion → Fusion}
    (hg : ∀ f spare, OwnAxes f spare → OwnAxes (g f) spare) : Owns (modify g : Edit PUnit) := by
  intro f u f' spare h hf
  obtain rfl := gives_modify.1 h
  exact hg f spare hf

/-- Repeated edits. -/
protected theorem forM {l : List β} {k : β → Edit PUnit} (hk : ∀ b, Owns (k b)) :
    Owns (l.forM k) := by
  induction l with
  | nil => exact .pure _
  | cons b l ih => exact (hk b).bind fun _ => ih

end Owns

/-- A scalar has no axes. -/
theorem newScalar_owns {t : DataType} {k : ScalarKind} : Owns (newValue t (.scalar k)) := by
  intro f v f' spare h hf
  obtain ⟨-, rfl⟩ := gives_newValue.1 h
  exact hf.pushScalar t k

/-- A new axis is spare. -/
theorem newAxis_spare {f f' : Fusion} {extent : ValueId} {kind : AxisKind} {a : AxisId}
    {spare : List AxisId} (h : Gives (newAxis extent kind) f a f') (hf : OwnAxes f spare) :
    OwnAxes f' (a :: spare) := by
  obtain ⟨start, f₁, hstart, haxis⟩ := gives_bind.1 h
  have hf₁ := newScalar_owns f start f₁ spare hstart hf
  obtain ⟨rfl, rfl⟩ := gives_addAxis.1 haxis
  exact hf₁.pushAxis _

namespace Supplies

/-- No axes, and none is spare. -/
protected theorem nil : Supplies (pure []) := by
  intro f as f' spare h hf
  obtain ⟨rfl, rfl⟩ := gives_pure.1 h
  exact hf

/-- One axis and then others. -/
protected theorem cons {extent : ValueId} {kind : AxisKind} {x : Edit (List AxisId)}
    (hx : Supplies x) : Supplies (do
      let axis ← newAxis extent kind
      return axis :: (← x)) := by
  intro f as f' spare h hf
  simp only [gives_bind, gives_pure] at h
  obtain ⟨a, f₁, ha, bs, f₂, hbs, rfl, rfl⟩ := h
  have hall := hx f₁ bs f₂ (a :: spare) hbs (newAxis_spare ha hf)
  exact hall.perm List.perm_middle.symm

/-- Reading the fusion makes no axes. -/
protected theorem get_bind {k : Fusion → Edit (List AxisId)} (hk : ∀ f, Supplies (k f)) :
    Supplies (get >>= k) := by
  intro f as f' spare h hf
  obtain ⟨g, f₁, hget, h⟩ := gives_bind.1 h
  obtain ⟨-, rfl⟩ := gives_get.1 hget
  exact hk g f as f' spare h hf

/-- Axes made after an edit that leaves axes apart. -/
protected theorem bind {α : Type} {x : Edit α} {k : α → Edit (List AxisId)} (hx : Owns x)
    (hk : ∀ a, Supplies (k a)) : Supplies (x >>= k) := by
  intro f as f' spare h hf
  obtain ⟨a, f₁, ha, h⟩ := gives_bind.1 h
  exact hk a f₁ as f' spare h (hx f a f₁ spare ha hf)

end Supplies
end Edit

namespace EditE

variable {ε ε' α β : Type} {x : EditE ε α}

/-- Whatever fusion the edit is applied to, if it returns, axes that were apart stay apart. -/
def Owns (x : EditE ε α) : Prop :=
  ∀ f a f' spare, x.Returns f a f' → OwnAxes f spare → OwnAxes f' spare

namespace Owns

/-- A result without a step that may fail. -/
protected theorem pure (a : α) : Owns (pure a : EditE ε α) := by
  intro f b f' spare h hf
  obtain ⟨-, rfl⟩ := returns_pure.1 h
  exact hf

/-- A sequence of steps that keep axes apart keeps them apart. -/
protected theorem bind {k : α → EditE ε β} (hx : Owns x) (hk : ∀ a, Owns (k a)) :
    Owns (x >>= k) := by
  intro f b f' spare h hf
  obtain ⟨a, f₁, ha, hb⟩ := returns_bind.1 h
  exact hk a f₁ b f' spare hb (hx f a f₁ spare ha hf)

/-- Reading the fusion, before a step that may fail. -/
protected theorem get_bind {k : Fusion → EditE ε β} (hk : ∀ f, Owns (k f)) :
    Owns (get >>= k) := by
  intro f b f' spare h hf
  obtain ⟨g, f₁, hget, h⟩ := returns_bind.1 h
  obtain ⟨-, rfl⟩ := returns_get.1 hget
  exact hk g f b f' spare h hf

/-- An edit that cannot fail. -/
protected theorem lift {y : Edit α} (hy : Edit.Owns y) : Owns (liftM y : EditE ε α) :=
  fun f a f' spare h hf => hy f a f' spare (returns_lift.1 h) hf

/-- After a failure there is nothing to show. -/
protected theorem throw (e : ε) : Owns (throw e : EditE ε α) :=
  fun _ _ _ _ h => absurd h returns_throw

/-- Nothing comes after a failure. -/
protected theorem throw_bind (e : ε) (k : α → EditE ε β) : Owns (throw e >>= k) := by
  intro f b f' spare h
  obtain ⟨a, f₁, ha, -⟩ := returns_bind.1 h
  exact absurd ha returns_throw

/-- A check before an edit that keeps axes apart. -/
protected theorem guard {c : Prop} [Decidable c] {e : ε} {k : β → EditE ε α} (hx : Owns x) :
    Owns (if c then throw e >>= k else x) := by
  split
  · exact .throw_bind e k
  · exact hx

/-- A check that passes changes nothing. -/
protected theorem ensure (c : Bool) (e : ε) : Owns (ensure c e) := by
  cases c with
  | true => exact .pure _
  | false => exact .throw _

/-- A computation that does not look at the fusion. -/
protected theorem ofExcept (y : Except ε α) : Owns (ofExcept y) := by
  cases y with
  | ok a => exact .pure a
  | error e => exact .throw e

/-- Errors under another name. -/
protected theorem mapError {g : ε → ε'} (hx : Owns x) : Owns (mapError g x) :=
  fun f a f' spare h hf => hx f a f' spare (returns_mapError.1 h) hf

/-- Steps of which the result is dropped. -/
protected theorem discard (hx : Owns x) : Owns (discard x) := by
  intro f u f' spare h hf
  obtain ⟨a, ha⟩ := returns_discard.1 h
  exact hx f a f' spare ha hf

/-- A replacement of the fusion that cannot fail. -/
protected theorem modify {g : Fusion → Fusion}
    (hg : ∀ f spare, OwnAxes f spare → OwnAxes (g f) spare) :
    Owns (modify g : EditE ε PUnit) := by
  intro f u f' spare h hf
  obtain rfl := returns_modify.1 h
  exact hg f spare hf

/-- Repeated steps that may fail. -/
protected theorem forM {l : List β} {k : β → EditE ε PUnit} (hk : ∀ b, Owns (k b)) :
    Owns (l.forM k) := by
  induction l with
  | nil => exact .pure _
  | cons b l ih => exact (hk b).bind fun _ => ih

/-- Repeated steps with their results. -/
protected theorem mapM {l : List β} {k : β → EditE ε α} (hk : ∀ b, Owns (k b)) :
    Owns (l.mapM k) := by
  induction l with
  | nil => exact .pure _
  | cons b l ih =>
      rw [List.mapM_cons]
      exact (hk b).bind fun _ => ih.bind fun _ => .pure _

end Owns
end EditE

/-! ## Building -/

namespace Build

/-- A literal operand is a scalar. -/
theorem resolve_owns (x : Operand) : Edit.Owns (resolve x) := by
  cases x with
  | value v => exact .pure v
  | literal c => exact Edit.newScalar_owns

/-- Looking a tensor up. -/
theorem ensureTensor_owns (v : ValueId) : EditE.Owns (ensureTensor v) := by
  unfold ensureTensor
  apply EditE.Owns.get_bind
  intro f
  split
  · exact .pure _
  · exact .throw _

/-- A new tensor over spare axes, with the expression that computes it. -/
theorem result_owns {ε : Type} {f f' : Fusion} {root spare : List AxisId} {t : DataType}
    {kind : ExprKind} {ins : List ValueId} {out : ValueId}
    (h : (do
      let out ← Edit.newTensor (.contiguous root) t
      discard (Edit.addExpr kind ins [out])
      return out : EditE ε ValueId).Returns f out f') (hf : OwnAxes f (root ++ spare)) :
    OwnAxes f' spare := by
  simp only [EditE.returns_bind, EditE.returns_lift, EditE.returns_discard, EditE.returns_pure,
    Edit.newTensor, Edit.gives_newValue, Edit.gives_addExpr] at h
  obtain ⟨v, f₁, ⟨rfl, rfl⟩, -, f₂, ⟨e, -, rfl⟩, -, rfl⟩ := h
  refine OwnAxes.results (d := .contiguous root) hf rfl ?_ (List.nodup_singleton _) rfl rfl rfl ?_
    (SameFlow.pushValue f t _).definition ?_
  · intro v hv
    rw [List.mem_singleton.1 hv]
    exact Nat.lt_irrefl _
  · intro v hv
    rw [List.mem_singleton.1 hv]
    simp [HasValue, pushValue]
  · intro v
    simp [view_newTensor]

/-- An element-wise result gets one new axis for each column of operand axes. -/
theorem elementwiseAxes_supplies (columns : List (List AxisId)) :
    Edit.Supplies (elementwiseAxes columns) := by
  induction columns with
  | nil => exact .nil
  | cons column columns ih =>
      unfold elementwiseAxes
      apply Edit.Supplies.get_bind
      intro f
      dsimp only
      split <;> exact .cons ih

/-- An element-wise operation gives its result new axes. -/
theorem elementwise_owns (kind : ExprKind) (operands : List ValueId) (t : DataType) :
    EditE.Owns (elementwise kind operands t) := by
  unfold elementwise
  apply EditE.Owns.get_bind
  intro f
  dsimp only
  split
  · intro f out f' spare h hf
    simp only [EditE.returns_bind, EditE.returns_lift, EditE.returns_discard, EditE.returns_pure,
      Edit.newScalar, Edit.gives_newValue, Edit.gives_addExpr] at h
    obtain ⟨v, f₁, ⟨rfl, rfl⟩, -, f₂, ⟨e, -, rfl⟩, -, rfl⟩ := h
    refine (hf.pushScalar t .symbolic).pushExpr (List.nodup_singleton _) ?_ ?_
    · intro v hv
      rw [List.mem_singleton.1 hv]
      simp [HasValue, pushValue]
    · intro v hv
      rw [List.mem_singleton.1 hv, definition, value_pushValue]
      simp
  · split
    · exact .throw_bind _ _
    · intro g out f' spare h hg
      obtain ⟨root, g₁, hroot, h⟩ := EditE.returns_bind.1 h
      have hsupplied := elementwiseAxes_supplies _ g root g₁ spare (EditE.returns_lift.1 hroot) hg
      exact result_owns h hsupplied

/-- The result of a unary operation has axes of its own. -/
theorem unaryOp_owns (op : UnaryOp) (x : Operand) : EditE.Owns (unaryOp op x) := by
  unfold unaryOp
  refine .bind (.lift (resolve_owns x)) fun v => .get_bind fun f => ?_
  dsimp only
  refine .guard ?_
  split
  · exact .lift Edit.newScalar_owns
  · exact elementwise_owns _ _ _

/-- A copy has axes of its own. -/
theorem copy_owns (x : Operand) : EditE.Owns (copy x) := by
  unfold copy
  exact .bind (.lift (resolve_owns x)) fun v => .get_bind fun f => elementwise_owns _ _ _

/-- A conversion has axes of its own. -/
theorem cast_owns (x : Operand) (t : DataType) : EditE.Owns (cast x t) := by
  unfold cast
  refine .bind (.lift (resolve_owns x)) fun v => .get_bind fun f => ?_
  split
  · exact .lift Edit.newScalar_owns
  · exact elementwise_owns _ _ _

/-- The result of a binary operation has axes of its own. -/
theorem binaryOp_owns (op : BinaryOp) (x y : Operand) : EditE.Owns (binaryOp op x y) := by
  unfold binaryOp
  refine .bind (.lift (resolve_owns x)) fun v => .bind (.lift (resolve_owns y)) fun w =>
    .get_bind fun f => ?_
  dsimp only
  refine .guard ?_
  split
  · exact .lift Edit.newScalar_owns
  · exact elementwise_owns _ _ _

/-- The result of a choice has axes of its own. -/
theorem select_owns (x y z : Operand) : EditE.Owns (select x y z) := by
  unfold select
  refine .bind (.lift (resolve_owns x)) fun u => .bind (.lift (resolve_owns y)) fun v =>
    .bind (.lift (resolve_owns z)) fun w => .get_bind fun f => ?_
  dsimp only
  refine .guard ?_
  split
  · exact .lift Edit.newScalar_owns
  · exact elementwise_owns _ _ _

/-! ### Reductions and broadcasts -/

/-- A reduction gets one new axis for each axis it reads. -/
theorem reducedAxes_supplies (reduced : List Nat) (i : Nat) (axes : List AxisId) :
    Edit.Supplies (reducedAxes reduced i axes) := by
  induction axes generalizing i with
  | nil => exact .nil
  | cons a axes ih =>
      unfold reducedAxes
      exact .get_bind fun f => .cons (ih (i + 1))

/-- The root of a reduction is made of spare axes. -/
theorem reductionRoot_supplies {f f' : Fusion} {tensor : ValueId} {axes : List Int}
    {root spare : List AxisId} (h : (reductionRoot tensor axes).Returns f root f')
    (hf : OwnAxes f spare) : OwnAxes f' (root ++ spare) := by
  unfold reductionRoot at h
  simp only [EditE.returns_guard, EditE.returns_bind, EditE.returns_get, EditE.returns_ofExcept,
    EditE.returns_lift] at h
  obtain ⟨-, f₀, f₁, ⟨rfl, rfl⟩, reduced, f₂, ⟨-, rfl⟩, h⟩ := h
  exact reducedAxes_supplies _ _ _ f root f' spare h hf

/-- A reduction has axes of its own. -/
theorem reductionOp_owns (op : BinaryOp) (axes : List Int) (init : Constant) (tensor : ValueId) :
    EditE.Owns (reductionOp op axes init tensor) := by
  unfold reductionOp
  refine .bind (ensureTensor_owns tensor).discard fun _ => ?_
  refine .guard (EditE.Owns.get_bind fun f => ?_)
  intro g out f' spare h hg
  obtain ⟨root, g₁, hroot, h⟩ := EditE.returns_bind.1 h
  exact result_owns h (reductionRoot_supplies hroot hg)

/-- A reduction from the neutral value has axes of its own. -/
theorem reduce_owns (op : BinaryOp) (tensor : ValueId) (axes : List Int) :
    EditE.Owns (reduce op tensor axes) := by
  unfold reduce
  apply EditE.Owns.get_bind
  intro f
  split
  · exact reductionOp_owns _ _ _ _
  · exact .throw _

/-- The three results of a reduction to moments share their new axes. -/
theorem welford_owns (tensor : ValueId) (axes : List Int) : EditE.Owns (welford tensor axes) := by
  unfold welford
  refine .bind (ensureTensor_owns tensor).discard fun _ => .get_bind fun f => ?_
  dsimp only
  refine .guard ?_
  intro g m f' spare h hg
  simp only [EditE.returns_bind, EditE.returns_lift, EditE.returns_discard, EditE.returns_pure,
    Edit.newTensor, Edit.gives_newValue, Edit.gives_addExpr] at h
  obtain ⟨root, g₁, hroot, avg, g₂, ⟨rfl, rfl⟩, varSum, g₃, ⟨rfl, rfl⟩, n, g₄, ⟨rfl, rfl⟩, -,
    g₅, ⟨-, -, rfl⟩, -, rfl⟩ := h
  have hsupplied := reductionRoot_supplies hroot hg
  have hsize : ∀ (g : Fusion) (t : DataType) (x : ValueKind),
      (g.pushValue t x).values.size = g.values.size + 1 := fun g t x => Array.size_push _
  refine OwnAxes.results (d := .contiguous root) hsupplied rfl ?_ ?_ rfl rfl rfl ?_ ?_ ?_
  · intro v hv
    simp only [List.mem_cons, List.not_mem_nil, or_false] at hv
    rcases hv with rfl | rfl | rfl <;> simp only [HasValue, hsize] <;> omega
  · simp [hsize]
    omega
  · intro v hv
    simp only [List.mem_cons, List.not_mem_nil, or_false] at hv
    rcases hv with rfl | rfl | rfl <;> simp only [HasValue, hsize] <;> omega
  · intro v
    exact (((SameFlow.pushValue g₁ _ _).trans (SameFlow.pushValue _ _ _)).trans
      (SameFlow.pushValue _ _ _)).definition v
  · intro v
    simp only [view_newTensor, hsize, List.mem_cons, List.not_mem_nil, or_false]
    split
    case isTrue h => simp [h]
    case isFalse h₃ =>
        split
        case isTrue h => simp [h]
        case isFalse h₂ =>
            split
            case isTrue h => simp [h]
            case isFalse h₁ => simp [h₁, h₂, h₃]

/-- A broadcast gets one new axis for each position of its result. -/
theorem broadcastAxes_supplies (flags : List Bool) (shape : List AxisId) :
    Edit.Supplies (broadcastAxes flags shape) := by
  induction flags generalizing shape with
  | nil => exact .nil
  | cons flag flags ih =>
      cases flag with
      | true =>
          unfold broadcastAxes
          exact .bind Edit.newScalar_owns fun _ => .cons (ih shape)
      | false =>
          unfold broadcastAxes
          exact .get_bind fun f => .cons (ih shape.tail)

/-- A broadcast has axes of its own. -/
theorem broadcast_owns (tensor : ValueId) (flags : List Bool) :
    EditE.Owns (broadcast tensor flags) := by
  unfold broadcast
  refine .bind (ensureTensor_owns tensor).discard fun _ => .get_bind fun f => ?_
  dsimp only
  refine .guard ?_
  intro g out f' spare h hg
  obtain ⟨root, g₁, hroot, h⟩ := EditE.returns_bind.1 h
  have hsupplied := broadcastAxes_supplies _ _ g root g₁ spare (EditE.returns_lift.1 hroot) hg
  exact result_owns h hsupplied

/-! ### Declared tensors -/

/-- An input tensor gets one new axis for each size. -/
theorem declareAxes_supplies (tensor : ValueId) (dim : Nat) (sizes : List Int) :
    Edit.Supplies (declareAxes tensor dim sizes) := by
  induction sizes generalizing dim with
  | nil => exact .nil
  | cons size sizes ih =>
      unfold declareAxes
      dsimp only
      split
      · exact .bind Edit.newScalar_owns fun _ => .cons (ih (dim + 1))
      · split <;> exact .bind Edit.newScalar_owns fun _ => .cons (ih (dim + 1))

/-- A declared tensor gets the axes made for it. -/
theorem declareTensor_owns (sizes : List Int) (contiguity : List Bool) (t : DataType) :
    Edit.Owns (declareTensor sizes contiguity t) := by
  intro f v f' spare h hf
  unfold declareTensor at h
  simp only [Edit.gives_bind, Edit.newTensor, Edit.gives_newValue, Edit.gives_modify,
    Edit.gives_pure] at h
  obtain ⟨tensor, f₁, ⟨rfl, rfl⟩, root, f₂, hroot, _, f₃, rfl, -, rfl⟩ := h
  -- the tensor comes in without axes, and gets them when they are made
  have hbare : OwnAxes (f.pushValue t (.tensor { domain := .contiguous [] })) spare := by
    refine OwnAxes.place (v := ⟨f.values.size⟩) (d := .contiguous []) hf rfl rfl rfl rfl
      (SameFlow.pushValue f t _).definition ?_ fun w hw => ?_
    · rw [view_newTensor, if_pos rfl]
    · rw [view_newTensor, if_neg hw]
  have hsupplied := declareAxes_supplies _ _ _ _ root f₂ spare hroot hbare
  have hdefinition := fun w => definition_modifyView f₂ ⟨f.values.size⟩ w fun x =>
    { x with domain := .ofRoot root contiguity }
  by_cases htensor : f₂.isTensor ⟨f.values.size⟩ = true
  · refine OwnAxes.place (v := ⟨f.values.size⟩) (d := .ofRoot root contiguity) hsupplied rfl rfl rfl
      rfl hdefinition ?_ fun w hw => ?_
    · rw [view_modifyView, if_pos ⟨rfl, htensor⟩]
    · rw [view_modifyView, if_neg fun heq => hw heq.1]
  · refine (hsupplied.giveUp (List.sublist_append_right root spare)).congr (Nat.le_refl _) rfl rfl
      (fun w => ?_) hdefinition
    rw [view_modifyView, if_neg fun heq => htensor heq.2]

/-! ### Inputs and outputs -/

/-- Declaring an input changes no tensor. -/
theorem addInput_owns (v : ValueId) : EditE.Owns (addInput v) := by
  intro f u f' spare h hf
  obtain ⟨-, -, rfl⟩ := returns_addInput.1 h
  exact hf.ofValues rfl rfl (Nat.le_refl _) rfl

/-- Declaring an output changes no tensor. -/
theorem addOutput_owns (v : ValueId) : EditE.Owns (addOutput v) := by
  intro f u f' spare h hf
  obtain ⟨-, -, rfl⟩ := returns_addOutput.1 h
  exact hf.ofValues rfl rfl (Nat.le_refl _) rfl

/-- Declaring an alias changes no tensor. -/
theorem addAlias_owns (output input : ValueId) : EditE.Owns (addAlias output input) := by
  intro f u f' spare h hf
  rw [← returns_addAlias h]
  exact hf.ofValues rfl rfl (Nat.le_refl _) rfl

end Build
end FusionCompiler
