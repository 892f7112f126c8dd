import FusionCompiler.Proofs.Fusion.Scalars

/-!
# Remembered values

The evaluation of scalars remembers what it has found and looks there first.
This changes no value: bindings that only add values which the first ones imply
lead to the same values, and every evaluation adds such values only.

The argument needs scalars of some rank that grows from operands to results.  In a
sound fusion this is the age of a value; elsewhere it may be the number of values
from which a scalar is computed.

Main results:

- Definition `Fusion.valueUnder`: the value of a scalar under bindings, with
  nothing remembered.
- Theorem `Fusion.Graded.evaluateWith_finds`: over graded scalars the evaluation
  that remembers finds the value with nothing remembered.
- Theorem `Fusion.evaluate_eq`: so it does in a sound fusion.
-/

namespace FusionCompiler

namespace Bindings

variable {b : Bindings} {v w : ValueId} {c : Constant}

theorem get?_bind (b : Bindings) (v w : ValueId) (c : Constant) :
    (b.bind v c).get? w = if w = v then some c else b.get? w := by
  by_cases h : w = v
  · simp [get?, bind, h]
  · simp [get?, bind, List.lookup_cons, h, beq_eq_false_iff_ne.2 h]

end Bindings

namespace Fusion

variable {f : Fusion} {b b' : Bindings} {v : ValueId} {rank : ValueId → Nat} {P : ValueId → Prop}

/-! ## Values without remembering -/

/-- A binary operator of a scalar with a result of the type: exact over integers unless the type is
a floating-point type. -/
def hostBinary (t : DataType) (op : BinaryOp) (x y : Constant) : Option Constant :=
  match x, y, !t.isFloat with
  | .int m, .int n, true => op.evalInt m n
  | x, y, integral => some (Constant.ofFloat (op.eval x.toFloat y.toFloat integral) t)

/-- The value of a scalar, given the values of its operands. -/
def valueFrom (f : Fusion) (b : Bindings) (operand : ValueId → Option Constant) (v : ValueId) :
    Option Constant :=
  match b.get? v with
  | some c => some c
  | none =>
    match (f.value v).kind with
    | .scalar (.const c) => some c
    | .tensor _ => none
    | .scalar _ =>
      match f.definingExpr? v with
      | none => none
      | some e =>
        match e.kind with
        | .unary op =>
          (operand (e.input 0)).map fun x => Constant.ofFloat (op.eval x.toFloat) (f.dtype v)
        | .binary op =>
          (operand (e.input 0)).bind fun x =>
            (operand (e.input 1)).bind fun y => hostBinary (f.dtype v) op x y
        | .select =>
          (operand (e.input 0)).bind fun c => operand (e.input (if c.toBool then 1 else 2))
        | _ => none

/-- The value of a scalar under bindings, at most `fuel` definitions deep, with nothing
remembered. -/
def valueWith (f : Fusion) (b : Bindings) : Nat → ValueId → Option Constant
  | 0, _ => none
  | fuel + 1, v => f.valueFrom b (valueWith f b fuel) v

/-- The value of a scalar under bindings, with nothing remembered. -/
def valueUnder (f : Fusion) (b : Bindings) (v : ValueId) : Option Constant :=
  f.valueWith b (v.index + 1) v

/-- The number of operands that the evaluation of an expression looks at. -/
def readOperands : ExprKind → Nat
  | .unary _ => 1
  | .binary _ => 2
  | .select => 3
  | _ => 0

/-- Scalars whose operands are such scalars of lower rank. -/
structure Graded (f : Fusion) (rank : ValueId → Nat) (P : ValueId → Prop) : Prop where
  operand : ∀ v, P v → f.isTensor v = false → ∀ e, f.definingExpr? v = some e →
    ∀ i < readOperands e.kind, P (e.input i) ∧ rank (e.input i) < rank v

/-- In a sound fusion the operands of a scalar are older. -/
theorem Sound.graded (hf : Sound f) : Graded f ValueId.index fun _ => True :=
  ⟨fun _ _ hscalar _ hdef i _ => ⟨trivial, (hf.operand_older hscalar hdef i).2⟩⟩

/-- The value of a scalar depends on the values of its operands only. -/
theorem valueFrom_congr {g g' : ValueId → Option Constant}
    (h : f.isTensor v = false → ∀ e, f.definingExpr? v = some e →
      ∀ i < readOperands e.kind, g (e.input i) = g' (e.input i)) :
    f.valueFrom b g v = f.valueFrom b g' v := by
  unfold valueFrom
  cases hscalar : f.isTensor v with
  | true =>
      cases hkind : (f.value v).kind with
      | scalar k => simp [Fusion.isTensor, Value.isTensor, Value.view?, hkind] at hscalar
      | tensor t => rfl
  | false =>
      cases hdef : f.definingExpr? v with
      | none => rfl
      | some e =>
          have hoperand := h hscalar e hdef
          dsimp only
          cases hop : e.kind with
          | unary op =>
              rw [hop] at hoperand
              rw [hoperand 0 Nat.zero_lt_one]
          | binary op =>
              rw [hop] at hoperand
              rw [hoperand 0 Nat.zero_lt_two, hoperand 1 Nat.one_lt_two]
          | select =>
              rw [hop] at hoperand
              have hbranch : ∀ c : Constant, g (e.input (if c.toBool then 1 else 2)) =
                  g' (e.input (if c.toBool then 1 else 2)) := by
                intro c
                split
                · exact hoperand 1 (by decide)
                · exact hoperand 2 (by decide)
              rw [hoperand 0 (by decide)]
              simp only [hbranch]
          | _ => rfl

/-- The value of a scalar does not depend on the bound of its recursion. -/
theorem Graded.valueWith_eq (hg : Graded f rank P) (hv : P v) {m n : Nat} (hm : rank v < m)
    (hn : rank v < n) : f.valueWith b m v = f.valueWith b n v := by
  induction m generalizing n v with
  | zero => cases hm
  | succ m ih =>
      cases n with
      | zero => cases hn
      | succ n =>
          rw [valueWith, valueWith]
          refine valueFrom_congr fun hscalar e hdef i hi => ?_
          obtain ⟨hi, hlt⟩ := hg.operand v hv hscalar e hdef i hi
          exact ih hi (by omega) (by omega)

/-- A bound of the recursion above the rank is deep enough for the operands as well. -/
theorem Graded.valueWith_step (hg : Graded f rank P) (hv : P v) {n : Nat} (hn : rank v < n) :
    f.valueWith b n v = f.valueFrom b (f.valueWith b n) v := by
  obtain ⟨n, rfl⟩ := Nat.exists_eq_succ_of_ne_zero (Nat.ne_zero_of_lt hn)
  rw [valueWith]
  refine valueFrom_congr fun hscalar e hdef i hi => ?_
  obtain ⟨hi, hlt⟩ := hg.operand v hv hscalar e hdef i hi
  exact hg.valueWith_eq hi (by omega) (by omega)

/-- The value of a scalar comes from the values of its operands. -/
theorem valueUnder_eq (hf : Sound f) (b : Bindings) (v : ValueId) :
    f.valueUnder b v = f.valueFrom b (f.valueUnder b) v := by
  rw [valueUnder, valueWith]
  refine valueFrom_congr fun hscalar e hdef i hi => ?_
  exact hf.graded.valueWith_eq trivial (hf.operand_older hscalar hdef i).2 (Nat.lt_succ_self _)

theorem valueWith_of_get? {c : Constant} (h : b.get? v = some c) (n : Nat) :
    f.valueWith b (n + 1) v = some c := by
  rw [valueWith, valueFrom, h]

/-- A scalar that is bound has the value it is bound to. -/
theorem valueUnder_of_get? {c : Constant} (h : b.get? v = some c) : f.valueUnder b v = some c :=
  valueWith_of_get? h _

/-! ## Remembering -/

variable {value : ValueId → Option Constant}

/-- The later bindings keep the first ones and add values only which scalars have. -/
structure Implied (value : ValueId → Option Constant) (b b' : Bindings) : Prop where
  keeps : ∀ v c, b.get? v = some c → b'.get? v = some c
  implied : ∀ v c, b'.get? v = some c → value v = some c

theorem Implied.refl (hbound : ∀ v c, b.get? v = some c → value v = some c) : Implied value b b where
  keeps _ _ h := h
  implied := hbound

/-- Remembering the value of a scalar. -/
theorem Implied.bind (h : Implied value b b') {c : Constant} (hc : value v = some c) :
    Implied value b (b'.bind v c) where
  keeps w d hd := by
    rw [Bindings.get?_bind]
    by_cases hw : w = v
    · rw [if_pos hw, ← hc, ← hw]
      exact h.implied w d (h.keeps w d hd)
    · rw [if_neg hw]
      exact h.keeps w d hd
  implied w d hd := by
    rw [Bindings.get?_bind] at hd
    by_cases hw : w = v
    · rw [if_pos hw] at hd
      rw [hw, hc, hd]
    · rw [if_neg hw] at hd
      exact h.implied w d hd

variable {α β : Type}

/-- Started with implied bindings, the computation finds the result and remembers implied values
only. -/
def Finds (value : ValueId → Option Constant) (b : Bindings) (x : StateM Bindings α) (r : α) : Prop :=
  ∀ b', Implied value b b' → (x.run b').1 = r ∧ Implied value b (x.run b').2

theorem finds_pure (b : Bindings) (r : α) : Finds value b (pure r) r :=
  fun _ hb => ⟨rfl, hb⟩

theorem Finds.bind {x : StateM Bindings α} {k : α → StateM Bindings β} {r : α} {s : β}
    (hx : Finds value b x r) (hk : Finds value b (k r) s) : Finds value b (x >>= k) s := by
  intro b' hb
  obtain ⟨hr, hb₁⟩ := hx b' hb
  have hrun : (x >>= k).run b' = (k r).run (x.run b').2 := by
    rw [← hr]
    rfl
  rw [hrun]
  exact hk _ hb₁

/-- What an evaluation does for a scalar that is not known, given evaluations of its operands. -/
def compute (f : Fusion) (operand : ValueId → StateM Bindings (Option Constant)) (v : ValueId) :
    StateM Bindings (Option Constant) :=
  match (f.value v).kind with
  | .scalar (.const c) => pure (some c)
  | .tensor _ => pure none
  | .scalar _ =>
    match f.definingExpr? v with
    | none => pure none
    | some e =>
      match e.kind with
      | .unary op =>
        operand (e.input 0) >>= fun x =>
          pure (x.map fun x => Constant.ofFloat (op.eval x.toFloat) (f.dtype v))
      | .binary op =>
        operand (e.input 0) >>= fun
          | none => pure none
          | some x =>
            operand (e.input 1) >>= fun
              | none => pure none
              | some y => pure (hostBinary (f.dtype v) op x y)
      | .select =>
        operand (e.input 0) >>= fun
          | none => pure none
          | some c => operand (e.input (if c.toBool then 1 else 2))
      | _ => pure none

/-- Remembers the value of a scalar if there is one. -/
def remember (v : ValueId) : Option Constant → StateM Bindings (Option Constant)
  | some c => modify (·.bind v c) >>= fun _ => pure (some c)
  | none => pure none

/-- An evaluation looks the scalar up, or computes and remembers it. -/
theorem run_evaluateWith (f : Fusion) (fuel : Nat) (v : ValueId) (b : Bindings) :
    (f.evaluateWith (fuel + 1) v).run b = match b.get? v with
      | some c => (some c, b)
      | none => (f.compute (f.evaluateWith fuel) v >>= remember v).run b := by
  have hlast : ∀ r : Option Constant, (match r with
      | some c => modify (·.bind v c) >>= fun _ => pure r
      | none => pure r : StateM Bindings (Option Constant)) = remember v r := by
    intro r
    cases r <;> rfl
  have hget : ∀ k : Bindings → StateM Bindings (Option Constant),
      (get >>= k).run b = (k b).run b := fun _ => rfl
  rw [evaluateWith, hget]
  cases hknown : b.get? v with
  | some c => rfl
  | none =>
      apply congrArg fun x : StateM Bindings (Option Constant) => x.run b
      dsimp only
      unfold compute
      cases hkind : (f.value v).kind with
      | tensor t => rfl
      | scalar k =>
          cases k with
          | const c => rfl
          | symbolic | tensorSize =>
              cases hdef : f.definingExpr? v with
              | none => rfl
              | some e =>
                  dsimp only
                  cases hop : e.kind with
                  | unary op =>
                      dsimp only
                      rw [bind_assoc]
                      refine congrArg _ (funext fun x => ?_)
                      cases x <;> rfl
                  | binary op =>
                      dsimp only
                      rw [bind_assoc]
                      refine congrArg _ (funext fun x => ?_)
                      cases x with
                      | none => rfl
                      | some x =>
                          dsimp only
                          rw [bind_assoc]
                          refine congrArg _ (funext fun y => ?_)
                          cases y with
                          | none => rfl
                          | some y =>
                              unfold hostBinary dtype
                              generalize (!(f.value v).dtype.isFloat) = integral
                              cases x <;> cases y <;> cases integral <;> first | rfl | exact hlast _
                  | select =>
                      dsimp only
                      rw [bind_assoc]
                      refine congrArg _ (funext fun x => ?_)
                      cases x with
                      | none => rfl
                      | some c =>
                          dsimp only
                          refine congrArg _ (funext fun y => ?_)
                          cases y <;> rfl
                  | _ => rfl

/-- A scalar that is not known is computed from the values of its operands. -/
theorem compute_finds {operand : ValueId → StateM Bindings (Option Constant)}
    (hfree : b.get? v = none)
    (hoperand : f.isTensor v = false → ∀ e, f.definingExpr? v = some e →
      ∀ i < readOperands e.kind, Finds value b (operand (e.input i)) (value (e.input i))) :
    Finds value b (f.compute operand v) (f.valueFrom b value v) := by
  unfold compute valueFrom
  rw [hfree]
  cases hkind : (f.value v).kind with
  | tensor t => exact finds_pure b none
  | scalar k =>
      cases k with
      | const c => exact finds_pure b (some c)
      | symbolic | tensorSize =>
          cases hdef : f.definingExpr? v with
          | none => exact finds_pure b none
          | some e =>
              have hscalar : f.isTensor v = false := by
                simp [isTensor, Value.isTensor, Value.view?, hkind]
              have hargument := hoperand hscalar e hdef
              dsimp only
              cases hop : e.kind with
              | unary op =>
                  rw [hop] at hargument
                  exact (hargument 0 Nat.zero_lt_one).bind (finds_pure b _)
              | binary op =>
                  rw [hop] at hargument
                  refine (hargument 0 Nat.zero_lt_two).bind ?_
                  cases value (e.input 0) with
                  | none => exact finds_pure b none
                  | some x =>
                      refine (hargument 1 Nat.one_lt_two).bind ?_
                      cases value (e.input 1) with
                      | none => exact finds_pure b none
                      | some y => exact finds_pure b _
              | select =>
                  rw [hop] at hargument
                  refine (hargument 0 (by decide)).bind ?_
                  cases value (e.input 0) with
                  | none => exact finds_pure b none
                  | some c =>
                      dsimp only [Option.bind_some]
                      split
                      · exact hargument 1 (by decide)
                      · exact hargument 2 (by decide)
              | _ => exact finds_pure b none

theorem remember_finds {r : Option Constant} (hr : value v = r) :
    Finds value b (remember v r) r := by
  cases r with
  | none => exact finds_pure b none
  | some c => exact fun b' hb => ⟨rfl, hb.bind hr⟩

/-- Over graded scalars the evaluation that remembers finds the values that come from the values of
the operands, and remembers no others. -/
theorem Graded.evaluateWith_finds (hg : Graded f rank P)
    (hvalue : ∀ v, P v → value v = f.valueFrom b value v) (hv : P v) {fuel : Nat}
    (hfuel : rank v < fuel) : Finds value b (f.evaluateWith fuel v) (value v) := by
  induction fuel generalizing v with
  | zero => cases hfuel
  | succ fuel ih =>
      intro b' hb
      rw [run_evaluateWith]
      cases hknown : b'.get? v with
      | some c => exact ⟨(hb.implied v c hknown).symm, hb⟩
      | none =>
          have hfree : b.get? v = none := by
            cases hbound : b.get? v with
            | none => rfl
            | some c =>
                rw [hb.keeps v c hbound] at hknown
                cases hknown
          have hcompute : Finds value b (f.compute (f.evaluateWith fuel) v) (value v) := by
            rw [hvalue v hv]
            apply compute_finds hfree
            intro hscalar e hdef i hi
            obtain ⟨hi, hlt⟩ := hg.operand v hv hscalar e hdef i hi
            exact ih hi (by omega)
          exact hcompute.bind (remember_finds rfl) b' hb

/-- The evaluation that remembers finds the value with nothing remembered. -/
theorem evaluate_eq (hf : Sound f) (hv : f.HasValue v) (b : Bindings) :
    ((f.evaluate v).run b).1 = f.valueUnder b v :=
  (hf.graded.evaluateWith_finds (fun v _ => valueUnder_eq hf b v) trivial
    (Nat.lt_succ_of_lt hv) b (.refl fun _ _ => valueUnder_of_get?)).1

end Fusion
end FusionCompiler
