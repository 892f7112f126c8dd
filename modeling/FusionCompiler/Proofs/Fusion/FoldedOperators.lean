import FusionCompiler.Proofs.Lower.HostExtents

/-!
# Folded operators

An operator over two integer literals becomes a literal while the fusion is built,
and the same operator over two scalars is computed by the host when their values
are bound.  Both ask one function for the value.  The literal is then converted to
the type of the result, the computed value is not, so the two differ where a
result of 32 bits overflows.

Main results:

- Theorem `Build.binaryOp_const?`: what an operator over integer literals folds to.
- Theorem `Build.binaryOp_evaluated`: an operator over two symbolic integers can be
  added, and has the value that the operator makes of the bound values.
- Theorem `Build.folded_eq_evaluated_iff`: the folded literal is the converted value,
  and the value itself exactly when a result of 32 bits is in range.
-/

namespace FusionCompiler

open Fusion

/-! ## Operators and types of integers -/

theorem BinaryOp.yieldsBool_of_isArithmetic {op : BinaryOp} (h : op.isArithmetic = true) :
    op.yieldsBool = false := by
  cases op <;> first | rfl | cases h

/-- An operator of extents makes integers of integers. -/
theorem BinaryOp.exists_int_of_evalInt {op : BinaryOp} (hop : op.isArithmetic = true) {a b : Int}
    {c : Constant} (h : op.evalInt a b = some c) : ∃ n, c = .int n := by
  cases op with
  | add | sub | mul =>
      obtain ⟨n, -, rfl⟩ := Option.map_eq_some_iff.1 h
      exact ⟨n, rfl⟩
  | div | ceilDiv =>
      rw [evalInt] at h
      split at h
      · cases h
      · obtain ⟨n, -, rfl⟩ := Option.map_eq_some_iff.1 h
        exact ⟨n, rfl⟩
  | mod =>
      rw [evalInt] at h
      split at h
      · cases h
      · cases h
        exact ⟨_, rfl⟩
  | max | min =>
      cases h
      exact ⟨_, rfl⟩
  | _ => cases hop

/-- A result has 32 bits exactly when both operands have. -/
theorem DataType.promote_eq_int32_iff {s t : DataType} (hs : s.isInt = true) (ht : t.isInt = true) :
    s.promote t = .int32 ↔ s = .int32 ∧ t = .int32 := by
  cases s <;> cases hs <;> cases t <;> cases ht <;> decide

theorem DataType.isFloat_of_isInt {t : DataType} (h : t.isInt = true) : t.isFloat = false := by
  cases t <;> first | rfl | cases h

/-- A conversion to an integer type keeps an integer exactly when it is in range; a conversion to 64
bits keeps every integer. -/
theorem Constant.cast_eq_self_iff {t : DataType} (ht : t.isInt = true) {n : Int} :
    (Constant.int n).cast t = .int n ↔ (t = .int32 → DataType.int32.Holds n) := by
  cases t with
  | int32 =>
      refine ⟨fun h _ => ?_, fun h => (h rfl).cast_eq⟩
      have hwrapped : n.bmod 4294967296 = n := Constant.int.inj h
      have hlow := Int.le_bmod (x := n) (m := 4294967296) (by decide)
      have hhigh := Int.bmod_lt (x := n) (m := 4294967296) (by decide)
      rw [hwrapped] at hlow hhigh
      exact ⟨by omega, by omega⟩
  | int64 => exact ⟨fun _ h => (nomatch h), fun _ => rfl⟩
  | _ => cases ht

namespace Fusion

variable {f f' : Fusion} {v : ValueId} {t : DataType} {a : Int}

/-! ## Literals and symbolic scalars -/

/-- The scalar is a literal of an integer type. -/
structure IntLiteral (f : Fusion) (v : ValueId) (t : DataType) (a : Int) : Prop where
  has : f.HasValue v
  dtype : f.dtype v = t
  integer : t.isInt = true
  const : f.const? v = some (.int a)

/-- The scalar is a symbol of an integer type. -/
structure IntSymbol (f : Fusion) (v : ValueId) (t : DataType) : Prop where
  has : f.HasValue v
  dtype : f.dtype v = t
  integer : t.isInt = true
  kind : (f.value v).kind = .scalar .symbolic

theorem IntLiteral.scalar (h : f.IntLiteral v t a) : f.isTensor v = false :=
  isTensor_of_const? h.const

theorem IntLiteral.mono (h : f.IntLiteral v t a) (hext : Extends f f') : f'.IntLiteral v t a where
  has := hext.hasValue h.has
  dtype := (hext.dtype v h.has).trans h.dtype
  integer := h.integer
  const := (hext.const? h.has h.scalar).trans h.const

theorem IntSymbol.scalar (h : f.IntSymbol v t) : f.isTensor v = false := by
  simp [isTensor, Value.isTensor, Value.view?, h.kind]

/-- A value added last that is a literal of an integer type. -/
theorem intLiteral_pushValue (f : Fusion) (ht : t.isInt = true) (a : Int) :
    (f.pushValue t (.scalar (.const (.int a)))).IntLiteral ⟨f.values.size⟩ t a where
  has := by simp [HasValue, pushValue]
  dtype := by simp [Fusion.dtype, value_pushValue]
  integer := ht
  const := by simp [const?, Value.const?, value_pushValue]

end Fusion

namespace Build

variable {f f' g : Fusion} {op : BinaryOp} {x y : Operand} {p q v w : ValueId} {s t : DataType}
  {a b : Int}

/-- The operand stands for an integer: a literal of the fusion, or one that is not yet part of it
and will have 64 bits. -/
def IsInteger (f : Fusion) : Operand → DataType → Int → Prop
  | .value v, t, a => f.IntLiteral v t a
  | .literal c, t, a => c = .int a ∧ t = .int64

theorem IsInteger.mono (h : IsInteger f x t a) (hext : Extends f f') : IsInteger f' x t a := by
  cases x with
  | value v => exact IntLiteral.mono h hext
  | literal c => exact h

/-- Reading an operand adds it if it is new, and gives the literal it stands for. -/
theorem IsInteger.resolve (h : IsInteger f x t a) (hv : Edit.Gives (resolve x) f v f') :
    Extends f f' ∧ f'.IntLiteral v t a := by
  cases x with
  | value u =>
      obtain ⟨rfl, rfl⟩ := Edit.gives_pure.1 hv
      exact ⟨.refl f, h⟩
  | literal c =>
      obtain ⟨rfl, rfl⟩ := h
      obtain ⟨rfl, rfl⟩ := Edit.gives_newValue.1 hv
      exact ⟨extends_pushValue f _ _, intLiteral_pushValue f rfl a⟩

/-- An operator over integer literals is a literal where it has a value: the value, converted to the
type of the result. -/
theorem binaryOp_const? (hop : op.isArithmetic = true) (hx : IsInteger f x s a)
    (hy : IsInteger f y t b) (h : (binaryOp op x y).Returns f w f') :
    f'.const? w = (op.evalInt a b).map (·.cast (s.promote t)) := by
  unfold binaryOp at h
  obtain ⟨u, f₁, hu, h⟩ := EditE.returns_bind.1 h
  obtain ⟨hext₁, hu⟩ := hx.resolve (EditE.returns_lift.1 hu)
  obtain ⟨v, f₂, hv, h⟩ := EditE.returns_bind.1 h
  obtain ⟨hext₂, hv⟩ := (hy.mono hext₁).resolve (EditE.returns_lift.1 hv)
  obtain ⟨f₀, f₃, hget, h⟩ := EditE.returns_bind.1 h
  obtain ⟨rfl, rfl⟩ := EditE.returns_get.1 hget
  have hu := hu.mono hext₂
  have htype : promotedType f₂ [u, v] = s.promote t := by
    rw [promotedType_scalars hu.scalar hv.scalar, hu.dtype, hv.dtype]
  have hint := isInt_promote hu.integer hv.integer
  have hfold : foldBinary op (.int a) (.int b) (s.promote t) = op.evalInt a b := by
    simp only [foldBinary, hint]
  dsimp only at h
  rw [htype, BinaryOp.yieldsBool_of_isArithmetic hop, hu.const, hv.const] at h
  dsimp only at h
  rw [hfold] at h
  split at h
  · simp at h
  · cases hvalue : op.evalInt a b with
    | some c =>
        rw [hvalue] at h
        obtain ⟨rfl, rfl⟩ := Edit.gives_newValue.1 (EditE.returns_lift.1 h)
        simp [const?, Value.const?, value_pushValue]
    | none =>
        rw [hvalue] at h
        have hs : ∀ z ∈ [u, v], f₂.isTensor z = false := by
          simp [hu.scalar, hv.scalar]
        obtain ⟨rfl, rfl⟩ := elementwise_scalar hs h
        simp [const?, Value.const?, kind_pushExpr, value_pushValue]

/-- The fusion with an operator over two scalars added. -/
def withOperator (g : Fusion) (op : BinaryOp) (p q : ValueId) (t : DataType) : Fusion :=
  (g.pushValue t (.scalar .symbolic)).pushExpr ⟨.binary op, [p, q], [⟨g.values.size⟩]⟩

/-- Operands that are all scalars can be operated on. -/
theorem returns_elementwise_scalar {kind : ExprKind} {operands : List ValueId}
    (hs : ∀ v ∈ operands, f.isTensor v = false) :
    (elementwise kind operands t).Returns f ⟨f.values.size⟩
      ((f.pushValue t (.scalar .symbolic)).pushExpr ⟨kind, operands, [⟨f.values.size⟩]⟩) := by
  have hnone : operands.filter f.isTensor = [] := by
    rw [List.filter_eq_nil_iff]
    intro v hv
    simp [hs v hv]
  unfold elementwise
  refine EditE.returns_bind.2 ⟨f, f, EditE.returns_get.2 ⟨rfl, rfl⟩, ?_⟩
  dsimp only
  rw [hnone]
  simp only [EditE.returns_bind, EditE.returns_lift, EditE.returns_discard, EditE.returns_pure,
    Edit.newScalar, Edit.gives_newValue, Edit.gives_addExpr]
  exact ⟨_, _, ⟨rfl, rfl⟩, ⟨⟩, _, ⟨_, rfl, rfl⟩, rfl, rfl⟩

/-- An operator over two symbols is added to the fusion. -/
theorem returns_binaryOp (hop : op.isArithmetic = true) (hp : g.IntSymbol p s)
    (hq : g.IntSymbol q t) : (binaryOp op (.value p) (.value q)).Returns g ⟨g.values.size⟩
      (withOperator g op p q (s.promote t)) := by
  have hint := isInt_promote hp.integer hq.integer
  have hs : ∀ v ∈ [p, q], g.isTensor v = false := by
    simp [hp.scalar, hq.scalar]
  unfold binaryOp
  refine EditE.returns_bind.2 ⟨p, g, EditE.returns_lift.2 (Edit.gives_pure.2 ⟨rfl, rfl⟩), ?_⟩
  refine EditE.returns_bind.2 ⟨q, g, EditE.returns_lift.2 (Edit.gives_pure.2 ⟨rfl, rfl⟩), ?_⟩
  refine EditE.returns_bind.2 ⟨g, g, EditE.returns_get.2 ⟨rfl, rfl⟩, ?_⟩
  dsimp only
  rw [promotedType_scalars hp.scalar hq.scalar, hp.dtype, hq.dtype,
    BinaryOp.yieldsBool_of_isArithmetic hop, hint, const?_of_symbolic hp.kind]
  simpa [withOperator] using returns_elementwise_scalar hs

end Build

namespace Fusion

variable {g : Fusion} {op : BinaryOp} {p q v : ValueId} {t : DataType} {a b : Int}
  {known : Bindings} {c : Constant}

/-! ## Evaluating the operator -/

/-- A scalar that is known is not computed. -/
theorem run_evaluateWith_known (fuel : Nat) (h : known.get? v = some c) :
    (g.evaluateWith (fuel + 1) v).run known = (some c, known) := by
  rw [run_evaluateWith, h]

theorem run_bind_of_run {α β : Type} {m : StateM Bindings α} {k : α → StateM Bindings β} {r : α}
    (h : m.run known = (r, known)) : (m >>= k).run known = (k r).run known := by
  rw [StateT.run_bind, h]
  rfl

/-- The added operator computes with the known values of its operands. -/
theorem run_compute_withOperator (ht : t.isInt = true) (hp : known.get? p = some (.int a))
    (hq : known.get? q = some (.int b)) (fuel : Nat) :
    ((Build.withOperator g op p q t).compute
      ((Build.withOperator g op p q t).evaluateWith (fuel + 1)) ⟨g.values.size⟩).run known =
        (op.evalInt a b, known) := by
  have hhas : (g.pushValue t (.scalar .symbolic)).HasValue ⟨g.values.size⟩ := by
    simp [HasValue, pushValue]
  have hkind : ((Build.withOperator g op p q t).value ⟨g.values.size⟩).kind =
      .scalar .symbolic := by
    rw [Build.withOperator, kind_pushExpr, value_pushValue, if_pos rfl]
  have hdtype : (Build.withOperator g op p q t).dtype ⟨g.values.size⟩ = t := by
    rw [Build.withOperator, dtype_pushExpr, dtype, value_pushValue, if_pos rfl]
  have hdefining : (Build.withOperator g op p q t).definingExpr? ⟨g.values.size⟩ =
      some ⟨.binary op, [p, q], [⟨g.values.size⟩]⟩ := by
    rw [Build.withOperator, definingExpr?, definition_pushExpr,
      if_pos ⟨List.mem_singleton_self _, hhas⟩]
    simp [expr, expr?_pushExpr]
  have hvalue : hostBinary t op (.int a) (.int b) = op.evalInt a b := by
    simp only [hostBinary, DataType.isFloat_of_isInt ht, Bool.not_false]
  unfold compute
  rw [hkind, hdefining]
  simp only [Expr.input, List.getD_cons_zero, List.getD_cons_succ]
  rw [run_bind_of_run (run_evaluateWith_known fuel hp)]
  dsimp only
  rw [run_bind_of_run (run_evaluateWith_known fuel hq), hdtype]
  dsimp only
  rw [hvalue]
  rfl

/-- The added operator has the value that it makes of the known values of its operands. -/
theorem evaluate_withOperator (ht : t.isInt = true) (hp : known.get? p = some (.int a))
    (hq : known.get? q = some (.int b)) (hfree : known.get? ⟨g.values.size⟩ = none) :
    (((Build.withOperator g op p q t).evaluate ⟨g.values.size⟩).run known).1 = op.evalInt a b := by
  have hsize : (Build.withOperator g op p q t).values.size = g.values.size + 1 := by
    simp [Build.withOperator, size_pushExpr, pushValue]
  rw [evaluate, hsize, run_evaluateWith, hfree]
  dsimp only
  rw [run_bind_of_run (run_compute_withOperator ht hp hq g.values.size)]
  cases op.evalInt a b <;> rfl

/-- The value of a scalar where two scalars are bound to integers. -/
def valueWhere (f : Fusion) (p q : ValueId) (a b : Int) (v : ValueId) : Option Constant :=
  ((f.evaluate v).run ((Bindings.bind {} p (.int a)).bind q (.int b))).1

theorem valueWhere_withOperator {s : DataType} (hp : g.IntSymbol p s) (hq : g.IntSymbol q t)
    (hne : p ≠ q) : (Build.withOperator g op p q (s.promote t)).valueWhere p q a b
      ⟨g.values.size⟩ = op.evalInt a b := by
  have hnew : ∀ {v : ValueId}, g.HasValue v → (⟨g.values.size⟩ : ValueId) ≠ v := by
    rintro v hv rfl
    exact Nat.lt_irrefl _ hv
  apply evaluate_withOperator (Build.isInt_promote hp.integer hq.integer)
  · rw [Bindings.get?_bind, if_neg hne, Bindings.get?_bind, if_pos rfl]
  · rw [Bindings.get?_bind, if_pos rfl]
  · rw [Bindings.get?_bind, if_neg (hnew hq.has), Bindings.get?_bind, if_neg (hnew hp.has)]
    rfl

end Fusion

namespace Build

variable {f f' g : Fusion} {op : BinaryOp} {x y : Operand} {p q w : ValueId} {s t : DataType}
  {a b : Int}

/-- What an operator over two integer literals folds to, against what it has as value over two
symbols of the same types that are bound to the same integers: the literal is the value, converted
to the type of the result, and it is the value itself exactly unless both types have 32 bits and
the value is out of their range. -/
theorem folded_eq_evaluated_iff (hop : op.isArithmetic = true) (hx : IsInteger f x s a)
    (hy : IsInteger f y t b) (hfold : (binaryOp op x y).Returns f w f') (hp : g.IntSymbol p s)
    (hq : g.IntSymbol q t) (hne : p ≠ q) :
    ∃ z g', (binaryOp op (.value p) (.value q)).Returns g z g' ∧
      f'.const? w = (g'.valueWhere p q a b z).map (·.cast (s.promote t)) ∧
      (f'.const? w = g'.valueWhere p q a b z ↔ ∀ n, g'.valueWhere p q a b z = some (.int n) →
        s = .int32 → t = .int32 → DataType.int32.Holds n) := by
  refine ⟨_, _, returns_binaryOp hop hp hq, ?_, ?_⟩
  · rw [valueWhere_withOperator hp hq hne, binaryOp_const? hop hx hy hfold]
  · rw [valueWhere_withOperator hp hq hne, binaryOp_const? hop hx hy hfold]
    have hint := isInt_promote hp.integer hq.integer
    have hnarrow := DataType.promote_eq_int32_iff hp.integer hq.integer
    cases hvalue : op.evalInt a b with
    | none => simp
    | some c =>
        obtain ⟨n, rfl⟩ := BinaryOp.exists_int_of_evalInt hop hvalue
        simp [Constant.cast_eq_self_iff hint, hnarrow]

/-- A quotient that is rounded up, of a literal of 32 bits and one of 64 bits. -/
theorem mixedQuotient_folded :
    let f := attemptAll [.constantTyped (.int (-7)) .int32] {}
    let g := attemptAll [.scalar .int32, .scalar .int64] {}
    ∃ w f' z g', (binaryOp .ceilDiv (.value ⟨0⟩) (.literal (.int 2))).Returns f w f' ∧
      (binaryOp .ceilDiv (.value ⟨0⟩) (.value ⟨1⟩)).Returns g z g' ∧
      f'.const? w = some (.int (-3)) ∧ g'.valueWhere ⟨0⟩ ⟨1⟩ (-7) 2 z = some (.int (-3)) := by
  intro f g
  have hx : IsInteger f (.value ⟨0⟩) .int32 (-7) := ⟨by decide, rfl, rfl, rfl⟩
  have hy : IsInteger f (.literal (.int 2)) .int64 2 := ⟨rfl, rfl⟩
  have hp : g.IntSymbol ⟨0⟩ .int32 := ⟨by decide, rfl, rfl, rfl⟩
  have hq : g.IntSymbol ⟨1⟩ .int64 := ⟨by decide, rfl, rfl, rfl⟩
  let f' := f.pushValue .int64 (.scalar (.const (.int 2)))
  have hfold : (binaryOp .ceilDiv (.value ⟨0⟩) (.literal (.int 2))).Returns f ⟨2⟩
      (f'.pushValue .int64 (.scalar (.const (.int (-3))))) := rfl
  obtain ⟨z, g', hz, -, hagree⟩ := folded_eq_evaluated_iff rfl hx hy hfold hp hq (by decide)
  have hconst : (f'.pushValue .int64 (.scalar (.const (.int (-3))))).const? ⟨2⟩ =
      some (.int (-3)) := rfl
  refine ⟨_, _, z, g', hfold, hz, hconst, ?_⟩
  exact (hagree.2 fun n _ _ h => nomatch h).symm.trans hconst

/-- The largest integer of 32 bits and one: their sum wraps around when it is folded, and does not
when it is evaluated. -/
theorem wrappedSum_not_evaluated :
    (attemptAll [.constantTyped (.int 2147483647) .int32, .constantTyped (.int 1) .int32,
        .binary .add (.value ⟨0⟩) (.value ⟨1⟩)] {}).const? ⟨2⟩ = some (.int (-2147483648)) ∧
      (attemptAll [.scalar .int32, .scalar .int32,
        .binary .add (.value ⟨0⟩) (.value ⟨1⟩)] {}).valueWhere ⟨0⟩ ⟨1⟩ 2147483647 1 ⟨2⟩ =
        some (.int 2147483648) :=
  ⟨rfl, rfl⟩

end Build
end FusionCompiler
