import FusionCompiler.Proofs.Fusion.Remembering
import FusionCompiler.Proofs.Kernel.Kinds
import FusionCompiler.Proofs.Lower.Extents
import FusionCompiler.Proofs.Schedule.FrozenCalls

/-!
# Extents on the host and in a kernel

An extent is computed twice: on the host, which evaluates a scalar of the fusion
to size a launch, and in the kernel, which evaluates the folded arithmetic of the
same scalar to bound its indices.  Where the host finds an integer and rounds up
no division by a number that is not positive, the kernel finds the same integer.

Main results:

- Definition `Fusion.IndexScalar`: scalars built from integer leaves by the
  operators of extents.
- Theorem `Scalar.foldInt_of_evalInt`: one operator.
- Theorem `Fusion.host_and_kernel_agree`: every such scalar of every fusion.
-/

namespace FusionCompiler

/-- The operators that extents are computed with. -/
def BinaryOp.isArithmetic : BinaryOp → Bool
  | .add | .sub | .mul | .div | .mod | .ceilDiv | .max | .min => true
  | _ => false

theorem BinaryOp.takes_of_isArithmetic {op : BinaryOp} (h : op.isArithmetic = true) :
    op.takes = .int ∧ op.makes = .int := by
  cases op with
  | add | sub | mul | div | mod | ceilDiv | max | min => exact ⟨rfl, rfl⟩
  | _ => cases h

/-- A kernel computes an operator of extents as the host does. -/
theorem Scalar.foldInt_of_evalInt {op : BinaryOp} (hop : op.isArithmetic = true) {m n : Int}
    (hpos : op = .ceilDiv → 0 < n) {c : Constant} (h : op.evalInt m n = some c) :
    foldInt op m n = some c := by
  cases op with
  | add | sub | mul | div | mod | max | min => exact h
  | ceilDiv =>
      have hn := hpos rfl
      rw [BinaryOp.evalInt, if_neg (by omega)] at h
      obtain ⟨k, hk, rfl⟩ := Option.map_eq_some_iff.1 h
      rw [foldInt, if_neg (by omega), eq_of_checked64 hk]
  | _ => cases hop

namespace Fusion

variable {f : Fusion} {b : Bindings} {env : Scalar.Env} {v u : ValueId} {c : Constant}

/-! ## Scalars built by the operators of extents -/

/-- The scalar is an input or the size of a tensor. -/
inductive IsLeaf (f : Fusion) (v : ValueId) : Prop where
  | input (hkind : (f.value v).kind = .scalar .symbolic)
  | size {tensor : ValueId} {dim : Nat} (hkind : (f.value v).kind = .scalar (.tensorSize tensor dim))

/-- The scalar is built from integer literals, inputs and sizes by the operators of extents. -/
inductive IndexScalar (f : Fusion) : ValueId → Prop where
  | literal {v : ValueId} {c : Constant} (hv : f.HasValue v) (hint : (f.dtype v).isInt = true)
      (hkind : (f.value v).kind = .scalar (.const c)) : IndexScalar f v
  | leaf {v : ValueId} (hv : f.HasValue v) (hint : (f.dtype v).isInt = true)
      (hleaf : f.IsLeaf v) (hdef : f.definingExpr? v = none) : IndexScalar f v
  | operation {v x y : ValueId} {e : Expr} {op : BinaryOp} (hint : (f.dtype v).isInt = true)
      (hkind : (f.value v).kind = .scalar .symbolic) (hdef : f.definingExpr? v = some e)
      (hop : e.kind = .binary op) (harith : op.isArithmetic = true) (hin : e.inputs = [x, y])
      (hx : IndexScalar f x) (hy : IndexScalar f y) : IndexScalar f v

/-- Computing `v` rounds up a division by `u`. -/
inductive RoundsUpBy (f : Fusion) (u : ValueId) : ValueId → Prop where
  | here {v x : ValueId} {e : Expr} (hdef : f.definingExpr? v = some e)
      (hop : e.kind = .binary .ceilDiv) (hin : e.inputs = [x, u]) : RoundsUpBy f u v
  | operand {v x : ValueId} {e : Expr} (hdef : f.definingExpr? v = some e) (hx : x ∈ e.inputs)
      (h : RoundsUpBy f u x) : RoundsUpBy f u v

/-- The bindings bind leaves only, integer leaves to integers, and the environment gives the inputs
and sizes that are bound the same values. -/
structure Binds (f : Fusion) (b : Bindings) (env : Scalar.Env) : Prop where
  undefined : ∀ v c, b.get? v = some c → f.IsLeaf v ∧ f.definingExpr? v = none
  integer : ∀ v c, b.get? v = some c → (f.dtype v).isInt = true → ∃ n, c = .int n
  input : ∀ v c, b.get? v = some c → (f.value v).kind = .scalar .symbolic → env.input v = some c
  size : ∀ v n, b.get? v = some (.int n) → ∀ tensor dim,
    (f.value v).kind = .scalar (.tensorSize tensor dim) → env.size tensor dim = some n

theorem IndexScalar.hasValue (h : f.IndexScalar v) : f.HasValue v := by
  cases h with
  | literal hv | leaf hv => exact hv
  | operation _ _ hdef =>
      obtain ⟨d, hd, -⟩ := Option.map_eq_some_iff.1 hdef
      exact hasValue_of_definition hd

theorem RoundsUpBy.hasValue (hf : Sound f) (h : f.RoundsUpBy u v) : f.HasValue u := by
  induction h with
  | operand _ _ _ ih => exact ih
  | here hdef _ hin =>
      obtain ⟨d, -, hlive, -⟩ := hf.live_of_definingExpr? hdef
      apply (hf.exprs d _ hlive).inputs
      simp [hin]

theorem roundsUpBy_iff {e : Expr} (hdef : f.definingExpr? v = some e) :
    f.RoundsUpBy u v ↔ (e.kind = .binary .ceilDiv ∧ ∃ x, e.inputs = [x, u]) ∨
      ∃ x ∈ e.inputs, f.RoundsUpBy u x := by
  constructor
  · intro h
    cases h with
    | here hdef' hop hin =>
        cases hdef.symm.trans hdef'
        exact .inl ⟨hop, _, hin⟩
    | operand hdef' hx h =>
        cases hdef.symm.trans hdef'
        exact .inr ⟨_, hx, h⟩
  · rintro (⟨hop, x, hin⟩ | ⟨x, hx, h⟩)
    · exact .here hdef hop hin
    · exact .operand hdef hx h

theorem not_roundsUpBy (hdef : f.definingExpr? v = none) : ¬ f.RoundsUpBy u v := by
  intro h
  cases h <;> simp_all

theorem kernelScalar_input (hkind : (f.value v).kind = .scalar .symbolic)
    (hdef : f.definingExpr? v = none) : f.kernelScalar v = .input v (f.dtype v) := by
  unfold kernelScalar kernelScalarWith
  dsimp only
  rw [hkind, hdef]
  rfl

/-- The arithmetic of such a scalar is integer arithmetic. -/
theorem IndexScalar.hasKind (hf : Sound f) (h : f.IndexScalar v) :
    Scalar.HasKind f.dtype (f.kernelScalar v) .int := by
  induction h with
  | @literal v c hv hint hkind =>
      have hc : f.const? v = some c := by simp [const?, Value.const?, hkind]
      obtain ⟨n, rfl⟩ := hf.literals v c hc hint
      rw [kernelScalar_const hc]
      exact .int n
  | @leaf v hv hint hleaf hdef =>
      cases hleaf with
      | input hkind =>
          rw [kernelScalar_input hkind hdef]
          apply Scalar.HasKind.input
          cases htype : f.dtype v <;> simp_all [DataType.isInt, DataType.kind?]
      | size hkind =>
          rw [kernelScalar_size hkind]
          exact .size _ _
  | @operation v x y e op hint hkind hdef hop harith hin hx hy ihx ihy =>
      rw [kernelScalar_defined hf hkind hdef hop hin]
      obtain ⟨htakes, hmakes⟩ := BinaryOp.takes_of_isArithmetic harith
      rw [← hmakes]
      apply Scalar.HasKind.mkBinary
      exact .binary op (htakes ▸ ihx) (htakes ▸ ihy)

/-! ## Agreement -/

/-- A bound leaf has the same value in a kernel. -/
theorem Binds.leaf (hb : f.Binds b env) (hint : (f.dtype v).isInt = true)
    (h : b.get? v = some c) :
    ∃ n, c = .int n ∧ (f.kernelScalar v).evaluate env = some (.int n) := by
  obtain ⟨hleaf, hdef⟩ := hb.undefined v c h
  obtain ⟨n, rfl⟩ := hb.integer v c h hint
  refine ⟨n, rfl, ?_⟩
  cases hleaf with
  | input hkind =>
      rw [kernelScalar_input hkind hdef]
      exact hb.input v _ h hkind
  | size hkind =>
      rw [kernelScalar_size hkind, Scalar.evaluate, hb.size v n h _ _ hkind]
      rfl

/-- The value of an operation over integers comes from the values of its operands. -/
theorem valueUnder_operation (hf : Sound f) {e : Expr} {op : BinaryOp} {x y : ValueId}
    (hfree : b.get? v = none) (hkind : (f.value v).kind = .scalar .symbolic)
    (hdef : f.definingExpr? v = some e) (hop : e.kind = .binary op) (hin : e.inputs = [x, y]) :
    f.valueUnder b v = (f.valueUnder b x).bind fun p =>
      (f.valueUnder b y).bind fun q => hostBinary (f.dtype v) op p q := by
  rw [valueUnder_eq hf, valueFrom, hfree, hkind, hdef]
  simp [hop, Expr.input, hin]

/-- A scalar with a value on the host has the same value in a kernel. -/
theorem IndexScalar.agree (hf : Sound f) (hb : f.Binds b env) (hv : f.IndexScalar v)
    (hpos : ∀ u, f.RoundsUpBy u v → ∀ n, f.valueUnder b u = some (.int n) → 0 < n)
    (h : f.valueUnder b v = some c) :
    ∃ n, c = .int n ∧ (f.kernelScalar v).evaluate env = some (.int n) := by
  induction hv generalizing c with
  | @literal v d hv hint hkind =>
      have hd : f.const? v = some d := by simp [const?, Value.const?, hkind]
      obtain ⟨n, rfl⟩ := hf.literals v d hd hint
      cases hbound : b.get? v with
      | some r =>
          obtain ⟨hleaf, -⟩ := hb.undefined v r hbound
          cases hleaf <;> simp_all
      | none =>
          rw [valueUnder_eq hf, valueFrom, hbound, hkind] at h
          cases h
          rw [kernelScalar_const hd]
          exact ⟨n, rfl, rfl⟩
  | @leaf v hv hint hleaf hdef =>
      cases hbound : b.get? v with
      | some r =>
          rw [valueUnder_of_get? hbound] at h
          cases h
          exact hb.leaf hint hbound
      | none =>
          rw [valueUnder_eq hf, valueFrom, hbound, hdef] at h
          cases hleaf <;> simp_all
  | @operation v x y e op hint hkind hdef hop harith hin hx hy ihx ihy =>
      have hfree : b.get? v = none := by
        cases hbound : b.get? v with
        | none => rfl
        | some r =>
            have hnone := (hb.undefined v r hbound).2
            rw [hdef] at hnone
            cases hnone
      rw [valueUnder_operation hf hfree hkind hdef hop hin] at h
      obtain ⟨p, hp, h⟩ := Option.bind_eq_some_iff.1 h
      obtain ⟨q, hq, h⟩ := Option.bind_eq_some_iff.1 h
      have hxin : x ∈ e.inputs := by simp [hin]
      have hyin : y ∈ e.inputs := by simp [hin]
      obtain ⟨m, rfl, hm⟩ := ihx (fun u hu => hpos u (.operand hdef hxin hu)) hp
      obtain ⟨n, rfl, hn⟩ := ihy (fun u hu => hpos u (.operand hdef hyin hu)) hq
      have hexact : op.evalInt m n = some c := by
        cases htype : f.dtype v <;> simp_all [hostBinary, DataType.isInt, DataType.isFloat]
      have hdivisor : op = .ceilDiv → 0 < n := by
        rintro rfl
        exact hpos y (.here hdef hop hin) n hq
      have hfold := Scalar.foldInt_of_evalInt harith hdivisor hexact
      have hc : c.kind? = some .int := by
        rw [Scalar.kind_foldInt hfold, (BinaryOp.takes_of_isArithmetic harith).2]
      obtain ⟨r, rfl⟩ := Constant.kind?_eq_int.1 hc
      refine ⟨r, rfl, ?_⟩
      rw [kernelScalar_defined hf hkind hdef hop hin]
      exact Scalar.evaluate_mkBinary_of_foldInt (fun _ => (hx.hasKind hf).floatFree) hm hn hfold

/-- In every fusion, where the evaluation on the host finds a value for a scalar built by the
operators of extents, and every divisor that it rounds up a division by is positive, the kernel
arithmetic of the scalar has the same value, an integer. -/
theorem host_and_kernel_agree (calls : List Call) {b : Bindings} {env : Scalar.Env} {v : ValueId}
    {c : Constant} :
    let f := attemptAll calls {}
    f.IndexScalar v → f.Binds b env →
    (∀ u, f.RoundsUpBy u v → ∀ n, ((f.evaluate u).run b).1 = some (.int n) → 0 < n) →
    ((f.evaluate v).run b).1 = some c →
    ∃ n, c = .int n ∧ (f.kernelScalar v).evaluate env = some (.int n) := by
  intro f hv hb hpos h
  have hf : Sound f := (attemptAll_freezes calls regular_empty).regular.sound
  rw [evaluate_eq hf hv.hasValue] at h
  apply hv.agree hf hb _ h
  intro u hu n hn
  rw [← evaluate_eq hf (hu.hasValue hf)] at hn
  exact hpos u hu n hn

/-- The number of blocks that cover an extent without its first seven elements, times the size of a
tensor. -/
def blocksBeyondSeven : List Call :=
  [.tensor [-1] [true] .float, .scalar .int64, .binary .sub (.value ⟨3⟩) (.literal (.int 7)),
    .binary .ceilDiv (.value ⟨5⟩) (.literal (.int 4)), .binary .mul (.value ⟨7⟩) (.value ⟨1⟩)]

/-- Over an empty extent and a tensor of three elements. -/
theorem blocksBeyondSeven_agree :
    let f := attemptAll blocksBeyondSeven {}
    let b : Bindings := (Bindings.bind {} ⟨3⟩ (.int 0)).bind ⟨1⟩ (.int 3)
    let env : Scalar.Env :=
      { input := fun v => if v.index = 3 then some (.int 0) else none
        size := fun t d => if t.index = 0 ∧ d = 0 then some 3 else none }
    ((f.evaluate ⟨8⟩).run b).1 = some (.int (-3)) ∧
      (f.kernelScalar ⟨8⟩).evaluate env = some (.int (-3)) := by
  intro f b env
  have hextent : f.IndexScalar ⟨3⟩ := .leaf (by decide) rfl (.input rfl) rfl
  have hsize : f.IndexScalar ⟨1⟩ := .leaf (by decide) rfl (.size rfl) rfl
  have hseven : f.IndexScalar ⟨4⟩ := .literal (by decide) rfl rfl
  have hfour : f.IndexScalar ⟨6⟩ := .literal (by decide) rfl rfl
  have hrest : f.IndexScalar ⟨5⟩ := .operation rfl rfl rfl rfl rfl rfl hextent hseven
  have hblocks : f.IndexScalar ⟨7⟩ := .operation rfl rfl rfl rfl rfl rfl hrest hfour
  have hall : f.IndexScalar ⟨8⟩ := .operation rfl rfl rfl rfl rfl rfl hblocks hsize
  have hbound : ∀ v c, b.get? v = some c → (v = ⟨1⟩ ∧ c = .int 3) ∨ (v = ⟨3⟩ ∧ c = .int 0) := by
    intro v c h
    rw [Bindings.get?_bind, Bindings.get?_bind] at h
    split at h
    · simp_all
    · split at h
      · simp_all
      · cases h
  have hbinds : f.Binds b env := by
    constructor <;> intro v c h
    · rcases hbound v c h with ⟨rfl, rfl⟩ | ⟨rfl, rfl⟩
      · exact ⟨.size rfl, rfl⟩
      · exact ⟨.input rfl, rfl⟩
    · rcases hbound v c h with ⟨rfl, rfl⟩ | ⟨rfl, rfl⟩
      · exact fun _ => ⟨3, rfl⟩
      · exact fun _ => ⟨0, rfl⟩
    · rcases hbound v c h with ⟨rfl, rfl⟩ | ⟨rfl, rfl⟩
      · intro hkind
        cases hkind
      · exact fun _ => rfl
    · intro tensor dim hkind
      rcases hbound v (.int c) h with ⟨rfl, hc⟩ | ⟨rfl, hc⟩
      · cases hc
        cases hkind
        rfl
      · cases hkind
  have hpos : ∀ u, f.RoundsUpBy u ⟨8⟩ → ∀ n, ((f.evaluate u).run b).1 = some (.int n) → 0 < n := by
    intro u hu n hn
    have hdivisor : u = ⟨6⟩ := by
      have h8 : f.definingExpr? ⟨8⟩ = some ⟨.binary .mul, [⟨7⟩, ⟨1⟩], [⟨8⟩]⟩ := rfl
      have h7 : f.definingExpr? ⟨7⟩ = some ⟨.binary .ceilDiv, [⟨5⟩, ⟨6⟩], [⟨7⟩]⟩ := rfl
      have h5 : f.definingExpr? ⟨5⟩ = some ⟨.binary .sub, [⟨3⟩, ⟨4⟩], [⟨5⟩]⟩ := rfl
      have hleaf : ¬ f.RoundsUpBy u ⟨1⟩ ∧ ¬ f.RoundsUpBy u ⟨3⟩ ∧ ¬ f.RoundsUpBy u ⟨4⟩ ∧
          ¬ f.RoundsUpBy u ⟨6⟩ :=
        ⟨not_roundsUpBy rfl, not_roundsUpBy rfl, not_roundsUpBy rfl, not_roundsUpBy rfl⟩
      simpa [roundsUpBy_iff h8, roundsUpBy_iff h7, roundsUpBy_iff h5, hleaf, eq_comm] using hu
    subst hdivisor
    have hfour' : ((f.evaluate ⟨6⟩).run b).1 = some (.int 4) := by rfl
    rw [hfour'] at hn
    cases hn
    decide
  have hvalue : ((f.evaluate ⟨8⟩).run b).1 = some (.int (-3)) := by rfl
  obtain ⟨n, hn, hkernel⟩ := host_and_kernel_agree blocksBeyondSeven hall hbinds hpos hvalue
  cases hn
  exact ⟨hvalue, hkernel⟩

end Fusion
end FusionCompiler
