import FusionCompiler.Proofs.Fusion.Scalars
import FusionCompiler.Proofs.Kernel.Folding
import FusionCompiler.Proofs.Lower.Grouping

/-!
# Extents at run time

The extent of an axis is a scalar of the fusion, and its kernel arithmetic gives
it a value at run time.  The extents that a transform records are the quotient or
the product it stands for, unless the type of the extent cannot hold it: folded
extents wrap around.

Main results:

- Theorem `Fusion.kernelScalarWith_eq`: the arithmetic of a scalar does not depend
  on the bound of its recursion.
- Theorem `Fusion.IsResult.value_eq`: a recorded result evaluates to the exact
  one if its type holds it.
- Theorem `Fusion.Recorded.exact`: the extents of a recorded transform are exact
  if their types hold them.
-/

namespace FusionCompiler

/-- The integers that a type holds. -/
def DataType.Holds : DataType → Int → Prop
  | .int32, n => -2147483648 ≤ n ∧ n ≤ 2147483647
  | .int64, n => Fits64 n
  | _, _ => False

instance (t : DataType) (n : Int) : Decidable (t.Holds n) :=
  match t with
  | .int32 => inferInstanceAs (Decidable (_ ∧ _))
  | .int64 => inferInstanceAs (Decidable (Fits64 n))
  | .bool | .half | .float | .double => .isFalse id

theorem DataType.Holds.fits {t : DataType} {n : Int} (h : t.Holds n) : Fits64 n := by
  cases t with
  | int32 =>
      obtain ⟨hl, hg⟩ := h
      refine ⟨Int.le_trans ?_ hl, Int.le_trans hg ?_⟩ <;> decide
  | int64 => exact h
  | _ => cases h

/-- A conversion changes no integer that the type holds. -/
theorem DataType.Holds.cast_eq {t : DataType} {n : Int} (h : t.Holds n) :
    (Constant.int n).cast t = .int n := by
  cases t with
  | int32 =>
      obtain ⟨hl, hg⟩ := h
      exact congrArg Constant.int (Int.bmod_eq_of_le_mul_two (by omega) (by omega))
  | int64 => rfl
  | _ => cases h

/-- The host operator on integers is exact where it has a value. -/
theorem BinaryOp.evalInt_eq {op : BinaryOp} {m n r : Int} (hexact : Scalar.exactInt? op m n = some r)
    {c : Constant} (h : op.evalInt m n = some c) : c = .int r := by
  cases op with
  | add | mul =>
      cases hexact
      obtain ⟨k, hk, rfl⟩ := Option.map_eq_some_iff.1 h
      rw [eq_of_checked64 hk]
  | div =>
      simp only [Scalar.exactInt?, Option.ite_none_right_eq_some, Option.some.injEq] at hexact
      obtain ⟨hn, rfl⟩ := hexact
      rw [evalInt, if_neg (Int.ne_of_gt hn)] at h
      obtain ⟨k, hk, rfl⟩ := Option.map_eq_some_iff.1 h
      rw [eq_of_checked64 hk]
  | mod =>
      simp only [Scalar.exactInt?, Option.ite_none_right_eq_some, Option.some.injEq] at hexact
      obtain ⟨hn, rfl⟩ := hexact
      rw [evalInt] at h
      split at h
      · cases h
      · cases h
        rfl
  | ceilDiv =>
      simp only [Scalar.exactInt?, Option.ite_none_right_eq_some, Option.some.injEq] at hexact
      obtain ⟨⟨hn, hsum⟩, rfl⟩ := hexact
      rw [evalInt, if_neg (Int.ne_of_gt hn), roundedUp_of_fits hsum] at h
      obtain ⟨k, hk, rfl⟩ := Option.map_eq_some_iff.1 h
      rw [eq_of_checked64 hk]
  | _ => cases hexact

namespace Fusion

variable {f : Fusion} {env : Scalar.Env} {op : BinaryOp} {v x y z : ValueId}

/-! ## Kernel arithmetic of scalars -/

/-- The operands of a computed scalar are older than it. -/
theorem Sound.operand_lt (hf : Sound f) (hkind : (f.value v).kind = .scalar .symbolic) {e : Expr}
    (hdef : f.definingExpr? v = some e) (i : Nat) : (e.input i).index < v.index := by
  have hscalar : f.isTensor v = false := by simp [isTensor, Value.isTensor, Value.view?, hkind]
  exact (hf.operand_older hscalar hdef i).2

/-- The arithmetic of a scalar does not depend on the bound of its recursion. -/
theorem kernelScalarWith_eq (hf : Sound f) {m n : Nat} (hm : v.index < m) (hn : v.index < n) :
    f.kernelScalarWith m v = f.kernelScalarWith n v := by
  induction m generalizing n v with
  | zero => cases hm
  | succ m ih =>
      cases n with
      | zero => cases hn
      | succ n =>
          unfold kernelScalarWith
          dsimp only
          cases hkind : (f.value v).kind with
          | tensor t => rfl
          | scalar k =>
              cases k with
              | const c => rfl
              | tensorSize t d => rfl
              | symbolic =>
                  cases hdef : f.definingExpr? v with
                  | none => rfl
                  | some e =>
                      have hoperand : ∀ i, f.kernelScalarWith m (e.input i) =
                          f.kernelScalarWith n (e.input i) := by
                        intro i
                        have hlt := hf.operand_lt hkind hdef i
                        exact ih (by omega) (by omega)
                      simp only [hoperand]

theorem kernelScalar_const {c : Constant} (h : f.const? v = some c) :
    f.kernelScalar v = .ofConstant c := by
  unfold kernelScalar kernelScalarWith
  dsimp only
  rw [kind_of_const? h]

theorem kernelScalar_size {tensor : ValueId} {dim : Nat}
    (h : (f.value v).kind = .scalar (.tensorSize tensor dim)) :
    f.kernelScalar v = .size tensor dim := by
  unfold kernelScalar kernelScalarWith
  dsimp only
  rw [h]

/-- The arithmetic of a computed scalar is the operator over the arithmetic of its operands. -/
theorem kernelScalar_defined (hf : Sound f) {e : Expr}
    (hkind : (f.value z).kind = .scalar .symbolic) (hdef : f.definingExpr? z = some e)
    (hop : e.kind = .binary op) (hin : e.inputs = [x, y]) :
    f.kernelScalar z = .mkBinary op (f.kernelScalar x) (f.kernelScalar y) := by
  have hz : f.HasValue z := by
    obtain ⟨d, hd, -⟩ := Option.map_eq_some_iff.1 hdef
    exact hasValue_of_definition hd
  have hzlt : z.index < f.values.size := hz
  have hx := hf.operand_lt hkind hdef 0
  have hy := hf.operand_lt hkind hdef 1
  have h0 : e.input 0 = x := by simp [Expr.input, hin]
  have h1 : e.input 1 = y := by simp [Expr.input, hin]
  rw [h0] at hx
  rw [h1] at hy
  unfold kernelScalar
  rw [kernelScalarWith]
  simp only [hkind, hdef, hop, h0, h1]
  rw [kernelScalarWith_eq hf (m := f.values.size) (n := f.values.size + 1) (by omega) (by omega),
    kernelScalarWith_eq hf (m := f.values.size) (n := f.values.size + 1) (by omega) (by omega)]

/-- A recorded result evaluates to the exact one if its type holds it. -/
theorem IsResult.value_eq (hr : f.IsResult op z x y) (hf : Sound f) {m n r : Int} {c : Constant}
    (hexact : Scalar.exactInt? op m n = some r)
    (hx : (f.kernelScalar x).evaluate env = some (.int m))
    (hy : (f.kernelScalar y).evaluate env = some (.int n))
    (hz : (f.kernelScalar z).evaluate env = some c) (hholds : (f.dtype z).Holds r) :
    c = .int r := by
  cases hr with
  | folded m' n' d hm hn heval hd =>
      rw [kernelScalar_const hm] at hx
      rw [kernelScalar_const hn] at hy
      cases hx
      cases hy
      rw [kernelScalar_const hd, Scalar.evaluate_ofConstant, BinaryOp.evalInt_eq hexact heval,
        hholds.cast_eq] at hz
      exact (Option.some.inj hz).symm
  | defined e hkind hdef hop hin =>
      rw [kernelScalar_defined hf hkind hdef hop hin] at hz
      exact Scalar.evaluate_mkBinary_eq hexact hx hy hz

/-! ## Extents of transforms -/

instance (c : Option Constant) (n : Int) : Decidable (c = some (.int n)) :=
  match c with
  | some (.int m) => decidable_of_iff (m = n) (by simp)
  | some (.bool _) | some (.float _) | none => .isFalse (by simp)

instance (c : Option Constant) (b : Bool) : Decidable (c = some (.bool b)) :=
  match c with
  | some (.bool d) => decidable_of_iff (d = b) (by simp)
  | some (.int _) | some (.float _) | none => .isFalse (by simp)

instance (c : Option Constant) (P : Int → Prop) [DecidablePred P] :
    Decidable (∃ n, c = some (.int n) ∧ P n) :=
  match c with
  | some (.int n) => decidable_of_iff (P n) (by simp)
  | some (.bool _) | some (.float _) | none => .isFalse (by simp)

/-- The extents at run time of the axes listed. -/
def Sized (f : Fusion) (env : Scalar.Env) (axes : List AxisId) (e : AxisId → Int) : Prop :=
  ∀ a ∈ axes, (f.ownExtent a).evaluate env = some (.int (e a))

instance (f : Fusion) (env : Scalar.Env) (axes : List AxisId) (e : AxisId → Int) :
    Decidable (f.Sized env axes e) :=
  inferInstanceAs (Decidable (∀ a ∈ axes, _))

/-- What the extents of axes are at run time; an extent without an integer value counts as zero. -/
def extentsAt (f : Fusion) (env : Scalar.Env) (a : AxisId) : Int :=
  match (f.ownExtent a).evaluate env with
  | some (.int n) => n
  | _ => 0

/-- The quotient of two extents, rounded up. -/
def steps (extent factor : Int) : Int :=
  (extent + factor - 1) / factor

theorem le_steps_mul {m n : Int} (hn : 0 < n) : m ≤ steps m n * n := by
  have hlt := Int.lt_ediv_add_one_mul_self (m + n - 1) hn
  have heq : (steps m n + 1) * n = steps m n * n + n := by rw [Int.add_mul, Int.one_mul]
  unfold steps at heq ⊢
  omega

theorem steps_pos {m n : Int} (hm : 0 < m) (hn : 0 < n) : 0 < steps m n := by
  have hle := le_steps_mul (m := m) hn
  by_contra hnot
  have hnonpos : steps m n * n ≤ 0 := Int.mul_nonpos_of_nonpos_of_nonneg (by omega) (by omega)
  omega

/-- A factor that divides an extent leaves no remainder. -/
theorem steps_mul_of_emod {m n : Int} (hn : 0 < n) (h : m % n = 0) : steps m n * n = m := by
  obtain ⟨q, rfl⟩ := Int.dvd_of_emod_eq_zero h
  have hsplit : n * q + n - 1 = (n - 1) + n * q := by omega
  have hzero : (n - 1) / n = 0 := Int.ediv_eq_zero_of_lt (by omega) (by omega)
  unfold steps
  rw [hsplit, Int.add_mul_ediv_left _ _ (Int.ne_of_gt hn), hzero, Int.zero_add, Int.mul_comm]

/-- The factor of a split is positive, the extent and the factor can be added to round their quotient
up, and the types of the extents that a transform records hold the quotient or the product it stands
for. -/
def Fitting (f : Fusion) (e : AxisId → Int) : Transform → Prop
  | .split a o i _ true =>
    0 < e i ∧ Fits64 (e a + e i - 1) ∧ (f.dtype (f.extent o)).Holds (steps (e a) (e i))
  | .split a o i _ false =>
    0 < e o ∧ Fits64 (e a + e o - 1) ∧ (f.dtype (f.extent i)).Holds (steps (e a) (e o))
  | .merge o i out => (f.dtype (f.extent out)).Holds (e o * e i)

instance (f : Fusion) (e : AxisId → Int) (t : Transform) : Decidable (f.Fitting e t) :=
  match t with
  | .split _ _ _ _ true => inferInstanceAs (Decidable (_ ∧ _ ∧ _))
  | .split _ _ _ _ false => inferInstanceAs (Decidable (_ ∧ _ ∧ _))
  | .merge _ _ _ => inferInstanceAs (Decidable (DataType.Holds _ _))

/-- The extents of a transform are the quotient or the product it stands for. -/
def Exact (e : AxisId → Int) : Transform → Prop
  | .split a o i _ true => 0 < e i ∧ e o = steps (e a) (e i)
  | .split a o i _ false => 0 < e o ∧ e i = steps (e a) (e o)
  | .merge o i out => e out = e o * e i

instance (e : AxisId → Int) (x : Transform) : Decidable (Exact e x) :=
  match x with
  | .split _ _ _ _ true => inferInstanceAs (Decidable (_ ∧ _))
  | .split _ _ _ _ false => inferInstanceAs (Decidable (_ ∧ _))
  | .merge _ _ _ => inferInstanceAs (Decidable (_ = _))

/-- The halves of an exact split are positive and cover the axis. -/
theorem Exact.split {e : AxisId → Int} {a o i : AxisId} {k : ValueId} {innerSplit : Bool}
    (h : Exact e (.split a o i k innerSplit)) (ha : 0 < e a) :
    0 < e o ∧ 0 < e i ∧ e a ≤ e o * e i := by
  cases innerSplit with
  | true =>
      obtain ⟨hi, ho⟩ := h
      have hpos := steps_pos ha hi
      have hle := le_steps_mul (m := e a) hi
      rw [← ho] at hpos hle
      exact ⟨hpos, hi, hle⟩
  | false =>
      obtain ⟨ho, hi⟩ := h
      have hpos := steps_pos ha ho
      have hle := le_steps_mul (m := e a) ho
      rw [← hi] at hpos hle
      exact ⟨ho, hpos, Int.mul_comm (e o) (e i) ▸ hle⟩

/-- The extents of a recorded transform are exact if their types hold them. -/
theorem Recorded.exact {t : Transform} {e : AxisId → Int} (hf : Sound f) (ht : f.Recorded t)
    (hsized : f.Sized env (t.inputs ++ t.outputs) e) (hfit : f.Fitting e t) : Exact e t := by
  have hceil : ∀ m n : Int, 0 < n → Fits64 (m + n - 1) →
      Scalar.exactInt? .ceilDiv m n = some (steps m n) :=
    fun m n hn hsum => if_pos ⟨hn, hsum⟩
  cases t with
  | split a o i k innerSplit =>
      obtain ⟨-, -, -, -, hext⟩ := ht
      have ha := hsized a (by simp [Transform.inputs])
      have ho := hsized o (by simp [Transform.outputs])
      have hi := hsized i (by simp [Transform.outputs])
      cases innerSplit with
      | true =>
          obtain ⟨hk, hr⟩ := hext
          obtain ⟨hpos, hsum, hholds⟩ := hfit
          rw [← hk] at hr
          have hval := hr.value_eq hf (hceil _ _ hpos hsum) ha hi ho hholds
          exact ⟨hpos, Constant.int.inj hval⟩
      | false =>
          obtain ⟨hk, hr⟩ := hext
          obtain ⟨hpos, hsum, hholds⟩ := hfit
          rw [← hk] at hr
          have hval := hr.value_eq hf (hceil _ _ hpos hsum) ha ho hi hholds
          exact ⟨hpos, Constant.int.inj hval⟩
  | merge o i out =>
      obtain ⟨-, -, -, hr⟩ := ht
      have ho := hsized o (by simp [Transform.inputs])
      have hi := hsized i (by simp [Transform.inputs])
      have hout := hsized out (by simp [Transform.outputs])
      exact Constant.int.inj (hr.value_eq hf rfl ho hi hout hfit)

end Fusion
end FusionCompiler
