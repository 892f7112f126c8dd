import FusionCompiler.Proofs.Interruption
import FusionCompiler.Proofs.Fusion.Operations

/-!
# Building that fails

An operation checks its operands before it adds anything but the values of
literal operands.  So an operation over values does nothing when it fails, and
any failing operation is a building step.

Main results:

- Theorem `Build.binaryOp_atomic`: an operator over two values does nothing when
  it fails.
- Theorems `Build.binaryOp_fails` and `Build.select_fails`: a failing operation has
  added the values of literal operands at most.
-/

namespace FusionCompiler

open Fusion

namespace Build

variable {f f' : Fusion}

/-- Looking up a tensor only reads. -/
theorem ensureTensor_reads (v : ValueId) : EditE.Reads (ensureTensor v) := by
  unfold ensureTensor
  refine .bind .get fun f => ?_
  split
  · exact .pure _
  · exact .throw _

/-- An element-wise operation checks the ranks of its operands first. -/
theorem elementwise_atomic (kind : ExprKind) (operands : List ValueId) (t : DataType) :
    EditE.Atomic (elementwise kind operands t) := by
  unfold elementwise
  refine .bind .get fun f => ?_
  dsimp only
  split
  · exact .bind_lift (.lift _) fun out g g' h => by simp at h
  · split
    · exact .throw_bind _ _
    · refine .bind_lift (.lift _) fun root g g' h => ?_
      simp at h

/-- A literal, or an element-wise result. -/
theorem folded_atomic (c : Option Constant) (t : DataType) (kind : ExprKind)
    (operands : List ValueId) :
    EditE.Atomic (match c with
      | some c => (Edit.newConstTyped c t : EditE FusionError ValueId)
      | none => elementwise kind operands t) := by
  cases c with
  | some c => exact .lift _
  | none => exact elementwise_atomic kind operands t

/-- An operand that is a value is there already. -/
theorem resolve_reads (v : ValueId) :
    EditE.Reads (resolve (.value v) : Build ValueId) := by
  intro f f' h
  obtain ⟨u, h⟩ | h := EditE.leaves_iff.1 h
  · exact (Edit.gives_pure.1 (EditE.returns_lift.1 h)).2
  · exact absurd h EditE.fails_lift

/-- The later fusion is the earlier one with the values of literals behind it. -/
inductive AddsLiterals (f : Fusion) : Fusion → Prop where
  | refl : AddsLiterals f f
  | push {f₁ f₂ : Fusion} {c : Constant} {v : ValueId} (h : AddsLiterals f f₁)
      (hc : Edit.Gives (Edit.newConst c) f₁ v f₂) : AddsLiterals f f₂

/-- Literals may be added one after another. -/
theorem AddsLiterals.trans {f₁ f₂ f₃ : Fusion} (h : AddsLiterals f₁ f₂) (h' : AddsLiterals f₂ f₃) :
    AddsLiterals f₁ f₃ := by
  induction h' with
  | refl => exact h
  | push _ hc ih => exact ih.push hc

/-- Literals are building steps. -/
theorem AddsLiterals.builds (h : AddsLiterals f f') (hf : Sound f) : Builds f f' := by
  induction h with
  | refl => exact .refl hf
  | push _ hc ih => exact ih.trans (Edit.newConst_builds ih.sound hc)

/-- If the operation fails, it has added the values of literal operands at most. -/
def FailsEarly {α : Type} (x : Build α) : Prop :=
  ∀ f f', x.Fails f f' → AddsLiterals f f'

/-- A step that fails early has added literal operands at most. -/
theorem FailsEarly.ofAtomic {α : Type} {x : Build α} (h : EditE.Atomic x) : FailsEarly x := by
  intro f f' hx
  rw [← h f f' hx]
  exact .refl

/-- Failing after an operand has been resolved. -/
theorem FailsEarly.resolve {α : Type} {k : ValueId → Build α} (x : Operand)
    (hk : ∀ v, FailsEarly (k v)) : FailsEarly (do k (← resolve x)) := by
  intro f f' h
  obtain h | ⟨v, f₁, hv, hrest⟩ := EditE.fails_bind.1 h
  · exact absurd h EditE.fails_lift
  · cases x with
    | value w =>
        obtain ⟨rfl, rfl⟩ := Edit.gives_pure.1 (EditE.returns_lift.1 hv)
        exact hk w f f' hrest
    | literal c =>
        have hone : AddsLiterals f f₁ := .push .refl (EditE.returns_lift.1 hv)
        exact hone.trans (hk v f₁ f' hrest)

/-- A unary operation that fails has added its literal operand at most. -/
theorem unaryOp_fails (op : UnaryOp) (x : Operand) : FailsEarly (unaryOp op x) := by
  unfold unaryOp
  refine .resolve x fun v => .ofAtomic (.bind .get fun f => ?_)
  dsimp only
  refine .guard ?_
  split
  · exact .lift _
  · exact elementwise_atomic _ _ _

/-- A copy of a value. -/
theorem copy_atomic (v : ValueId) : EditE.Atomic (copy (.value v)) := by
  unfold copy
  exact .bind (resolve_reads v) fun w => .bind .get fun f => elementwise_atomic _ _ _

/-- A copy that fails has added its literal operand at most. -/
theorem copy_fails (x : Operand) : FailsEarly (copy x) := by
  unfold copy
  exact .resolve x fun v => .ofAtomic (.bind .get fun f => elementwise_atomic _ _ _)

/-- A conversion that fails has added its literal operand at most. -/
theorem cast_fails (x : Operand) (t : DataType) : FailsEarly (cast x t) := by
  unfold cast
  exact .resolve x fun v => .ofAtomic (.bind .get fun f => folded_atomic _ _ _ _)

/-- An operator over values that are there. -/
theorem binaryValues_atomic (op : BinaryOp) (v w : ValueId) :
    EditE.Atomic (do
      let f ← get
      let operandType := promotedType f [v, w]
      let t := if op.yieldsBool then .bool else operandType
      if op == .ceilDiv && !operandType.isInt then throw (.invalidDType "ceil_div" operandType)
      let folded := match f.const? v, f.const? w with
        | some a, some b => foldBinary op a b operandType
        | _, _ => none
      match folded with
      | some c => Edit.newConstTyped c t
      | none => elementwise (.binary op) [v, w] t : Build ValueId) := by
  refine .bind .get fun f => ?_
  dsimp only
  exact .guard (folded_atomic _ _ _ _)

/-- A binary operation over values that fails has done nothing. -/
theorem binaryOp_atomic (op : BinaryOp) (v w : ValueId) :
    EditE.Atomic (binaryOp op (.value v) (.value w)) := by
  unfold binaryOp
  exact .bind (resolve_reads v) fun v => .bind (resolve_reads w) fun w => binaryValues_atomic op v w

/-- A binary operation that fails has added its literal operands at most. -/
theorem binaryOp_fails (op : BinaryOp) (x y : Operand) : FailsEarly (binaryOp op x y) := by
  unfold binaryOp
  exact .resolve x fun v => .resolve y fun w => .ofAtomic (binaryValues_atomic op v w)

/-- A choice that fails has added its literal operands at most. -/
theorem select_fails (x y z : Operand) : FailsEarly (select x y z) := by
  unfold select
  refine .resolve x fun u => .resolve y fun v => .resolve z fun w => .ofAtomic ?_
  refine .bind .get fun f => ?_
  dsimp only
  exact .guard (folded_atomic _ _ _ _)

/-! ## Reductions and broadcasts -/

/-- The root of a reduction that fails has done nothing. -/
theorem reductionRoot_atomic (tensor : ValueId) (axes : List Int) :
    EditE.Atomic (reductionRoot tensor axes) := by
  unfold reductionRoot
  exact .guard (.bind .get fun f => .bind (.ofExcept _) fun _ => .lift _)

/-- A reduction that fails has done nothing. -/
theorem reductionOp_atomic (op : BinaryOp) (axes : List Int) (init : Constant) (tensor : ValueId) :
    EditE.Atomic (reductionOp op axes init tensor) := by
  unfold reductionOp
  refine .bind (ensureTensor_reads tensor).discard fun _ => ?_
  refine .guard (.bind .get fun f => ?_)
  exact .bind_lift (reductionRoot_atomic _ _) fun root g g' h => by simp at h

/-- A reduction from the neutral value that fails has done nothing. -/
theorem reduce_atomic (op : BinaryOp) (tensor : ValueId) (axes : List Int) :
    EditE.Atomic (reduce op tensor axes) := by
  unfold reduce
  refine .bind .get fun f => ?_
  split
  · exact reductionOp_atomic _ _ _ _
  · exact .ofReads (.throw _)

/-- A Welford reduction that fails has done nothing. -/
theorem welford_atomic (tensor : ValueId) (axes : List Int) :
    EditE.Atomic (welford tensor axes) := by
  unfold welford
  refine .bind (ensureTensor_reads tensor).discard fun _ => .bind .get fun f => ?_
  dsimp only
  exact .guard (.bind_lift (reductionRoot_atomic _ _) fun root g g' h => by simp at h)

/-- A broadcast that fails has done nothing. -/
theorem broadcast_atomic (tensor : ValueId) (flags : List Bool) :
    EditE.Atomic (broadcast tensor flags) := by
  unfold broadcast
  refine .bind (ensureTensor_reads tensor).discard fun _ => .bind .get fun f => ?_
  dsimp only
  exact .guard (.bind_lift (.lift _) fun root g g' h => by simp at h)

/-! ## Inputs and outputs -/

/-- An input that cannot be declared has changed nothing. -/
theorem addInput_atomic (v : ValueId) : EditE.Atomic (addInput v) := by
  unfold addInput
  refine .bind .get fun f => ?_
  dsimp only
  exact .guard (.guard fun g g' h => absurd h EditE.fails_set)

/-- An output that cannot be declared has changed nothing. -/
theorem addOutput_atomic (v : ValueId) : EditE.Atomic (addOutput v) := by
  unfold addOutput
  refine .bind (ensureTensor_reads v).discard fun _ => .bind .get fun f => ?_
  dsimp only
  exact .guard fun g g' h => absurd h EditE.fails_set

/-- An alias that cannot be declared has changed nothing. -/
theorem addAlias_atomic (output input : ValueId) : EditE.Atomic (addAlias output input) := by
  unfold addAlias
  refine .bind .get fun f => ?_
  dsimp only
  exact .guard (.guard (.guard (.guard (.guard fun g g' h => absurd h EditE.fails_set))))

end Build
end FusionCompiler
