import FusionCompiler.Proofs.Fusion.FoldedOperators
import FusionCompiler.Proofs.Fusion.NeededExpressions

/-!
# Equal scalars

Replays ask whether two scalars are provably equal.  The answer looks at three
things in turn: whether the scalars are one, whether both are known integers, and
whether both apply one operator to operands that are provably equal.  A scalar may
be known although its operands were built differently from those of another known
scalar, so it is not obvious that the three fit together.

They do over terms, which are built from integer literals and leaves by the
operators of extents.  Provably equal terms are known to the same extent, which
makes the relation transitive, and they have one value under all bindings of the
leaves.

Main results:

- Theorem `Fusion.IntegerTerm.evaluate_eq`: the evaluation of a term finds the
  value that comes from its operands.
- Theorem `Fusion.ProvablyEqual.termValue_eq`: provably equal terms have one value.
- Theorem `Fusion.sameScalar_iff`: the comparison finds exactly the provably equal
  terms.
- Theorem `Fusion.sameScalar_sound`: the comparison is an equivalence relation, and
  terms that it relates evaluate to the same integer.
-/

namespace FusionCompiler

/-- Equal operators compare as equal, and no others. -/
theorem ExprKind.binary_beq_iff {op op' : BinaryOp} :
    (ExprKind.binary op == ExprKind.binary op') = true ↔ op = op' :=
  decide_eq_true_iff

namespace Fusion

open Relation

variable {f : Fusion} {b : Bindings} {op op' : BinaryOp} {u v w x y x' y' : ValueId}
  {c : Constant} {n : Int}

/-! ## Terms -/

/-- The scalar applies an operator of extents to two values and is an integer. -/
structure Applies (f : Fusion) (op : BinaryOp) (v x y : ValueId) : Prop where
  arithmetic : op.isArithmetic = true
  dtype : (f.dtype v).isInt = true
  kind : (f.value v).kind = .scalar .symbolic
  defined : ∃ e, f.definingExpr? v = some e ∧ e.kind = .binary op ∧ e.inputs = [x, y]

/-- The scalar is built from integer literals and leaves by the operators of extents. -/
inductive IntegerTerm (f : Fusion) : ValueId → Prop where
  | literal {v : ValueId} {n : Int} (hv : f.HasValue v)
      (hkind : (f.value v).kind = .scalar (.const (.int n))) (hdef : f.definingExpr? v = none) :
      IntegerTerm f v
  | leaf {v : ValueId} (hv : f.HasValue v) (hleaf : f.IsLeaf v) (hdef : f.definingExpr? v = none) :
      IntegerTerm f v
  | operation {v x y : ValueId} {op : BinaryOp} (hop : f.Applies op v x y) (hx : IntegerTerm f x)
      (hy : IntegerTerm f y) : IntegerTerm f v

/-- A scalar applies one operator to one pair of operands. -/
theorem Applies.unique (h : f.Applies op v x y) (h' : f.Applies op' v x' y') :
    op = op' ∧ x = x' ∧ y = y' := by
  obtain ⟨e, he, hop, hin⟩ := h.defined
  obtain ⟨e', he', hop', hin'⟩ := h'.defined
  obtain rfl : e = e' := Option.some.inj (he.symm.trans he')
  rw [hop] at hop'
  rw [hin] at hin'
  cases hop'
  cases hin'
  exact ⟨rfl, rfl, rfl⟩

/-- A binary operation is computed from its two operands. -/
theorem Applies.computedFrom_iff (h : f.Applies op v x y) :
    f.ComputedFrom u v ↔ u = x ∨ u = y := by
  obtain ⟨e, he, -, hin⟩ := h.defined
  simp [ComputedFrom, he, hin]

/-- What has only finite chains below it is not below itself. -/
theorem not_transGen_self {α : Type} {r : α → α → Prop} {a : α} (h : Acc r a) :
    ¬ TransGen r a a := by
  have hacc := h.transGen
  clear h
  induction hacc with
  | intro a _ ih => exact fun hself => ih a hself hself

/-- What has no definition is computed from nothing. -/
theorem not_computedFrom (hdef : f.definingExpr? v = none) : ¬ f.ComputedFrom u v := by
  simp [ComputedFrom, hdef]

namespace IntegerTerm

/-- An integer term is a value of the fusion. -/
theorem hasValue (h : f.IntegerTerm v) : f.HasValue v := by
  cases h with
  | literal hv | leaf hv => exact hv
  | operation hop =>
      obtain ⟨e, he, -⟩ := hop.defined
      obtain ⟨d, hd, -⟩ := Option.map_eq_some_iff.1 he
      exact hasValue_of_definition hd

/-- The operands of a term are terms. -/
theorem operands (h : f.IntegerTerm v) (hop : f.Applies op v x y) :
    f.IntegerTerm x ∧ f.IntegerTerm y := by
  obtain ⟨e, he, -⟩ := hop.defined
  cases h with
  | literal _ _ hdef | leaf _ _ hdef =>
      rw [hdef] at he
      cases he
  | operation hop' hx hy =>
      obtain ⟨-, rfl, rfl⟩ := hop'.unique hop
      exact ⟨hx, hy⟩

/-- A term is not computed from itself. -/
theorem acyclic (h : f.IntegerTerm v) : ¬ TransGen f.ComputedFrom v v := by
  have hacc : Acc f.ComputedFrom v := by
    induction h with
    | literal _ _ hdef | leaf _ _ hdef => exact ⟨_, fun u hu => absurd hu (not_computedFrom hdef)⟩
    | operation hop _ _ ihx ihy =>
        refine ⟨_, fun u hu => ?_⟩
        rcases hop.computedFrom_iff.1 hu with rfl | rfl
        · exact ihx
        · exact ihy
  exact not_transGen_self hacc

end IntegerTerm

/-! ## Values of terms -/

/-- All values of a fusion. -/
def allValues (f : Fusion) : Finset ValueId :=
  (Finset.range f.values.size).image ValueId.mk

/-- All values are those that the fusion has. -/
theorem mem_allValues : v ∈ f.allValues ↔ f.HasValue v := by
  constructor
  · intro hv
    obtain ⟨i, hi, rfl⟩ := Finset.mem_image.1 hv
    exact Finset.mem_range.1 hi
  · exact fun hv => Finset.mem_image.2 ⟨v.index, Finset.mem_range.2 hv, rfl⟩

/-- The operands of a term are terms that are computed from fewer values. -/
theorem graded_integerTerm (f : Fusion) :
    Graded f (f.countBelow f.allValues) f.IntegerTerm := by
  refine ⟨fun v hv _ e he i hi => ?_⟩
  cases hv with
  | literal _ _ hdef | leaf _ _ hdef =>
      rw [hdef] at he
      cases he
  | @operation _ x y _ hop hx hy =>
      obtain ⟨e', he', hkind, hin⟩ := hop.defined
      obtain rfl : e = e' := Option.some.inj (he.symm.trans he')
      have hlt : ∀ u, f.IntegerTerm u → f.ComputedFrom u v →
          f.countBelow f.allValues u < f.countBelow f.allValues v := fun u hu huv =>
        countBelow_lt (mem_allValues.2 hu.hasValue) hu.acyclic huv
      have hi : i < 2 := by simpa [hkind, readOperands] using hi
      obtain rfl | rfl : i = 0 ∨ i = 1 := by omega
      · simpa [Expr.input, hin] using ⟨hx, hlt x hx (hop.computedFrom_iff.2 (.inl rfl))⟩
      · simpa [Expr.input, hin] using ⟨hy, hlt y hy (hop.computedFrom_iff.2 (.inr rfl))⟩

/-- The rank of a term is bounded by the number of values. -/
theorem IntegerTerm.countBelow_lt_size (h : f.IntegerTerm v) :
    f.countBelow f.allValues v < f.values.size + 1 := by
  have hcard : f.allValues.card ≤ f.values.size := by
    simpa [allValues] using Finset.card_image_le (s := Finset.range f.values.size) (f := ValueId.mk)
  have hlt := countBelow_lt_card (mem_allValues.2 h.hasValue) h.acyclic
  omega

/-- The value of a term under bindings, with nothing remembered. -/
def termValue (f : Fusion) (b : Bindings) (v : ValueId) : Option Constant :=
  f.valueWith b (f.values.size + 1) v

namespace IntegerTerm

/-- The value of a term is worked out from its own operands. -/
theorem termValue_step (h : f.IntegerTerm v) (b : Bindings) :
    f.termValue b v = f.valueFrom b (f.termValue b) v :=
  (graded_integerTerm f).valueWith_step h h.countBelow_lt_size

/-- The evaluation of a term finds its value, whatever it has remembered on the way. -/
theorem evaluate_eq (h : f.IntegerTerm v) (b : Bindings) :
    ((f.evaluate v).run b).1 = f.termValue b v :=
  ((graded_integerTerm f).evaluateWith_finds (fun _ hu => hu.termValue_step b) h
    h.countBelow_lt_size b (.refl fun _ _ hc => valueWith_of_get? hc _)).1

end IntegerTerm

/-- The bindings bind leaves only, and bind them to integers. -/
def BindsLeaves (f : Fusion) (b : Bindings) : Prop :=
  ∀ v c, b.get? v = some c → f.IsLeaf v ∧ f.definingExpr? v = none ∧ ∃ n, c = .int n

/-- Without bindings no value of another kind is bound. -/
theorem bindsLeaves_empty (f : Fusion) : f.BindsLeaves {} :=
  fun _ _ h => nomatch h

namespace BindsLeaves

/-- Literals are not bound. -/
theorem get?_literal (hb : f.BindsLeaves b) (hkind : (f.value v).kind = .scalar (.const c)) :
    b.get? v = none := by
  cases hbound : b.get? v with
  | none => rfl
  | some d =>
      obtain ⟨hleaf, -⟩ := hb v d hbound
      cases hleaf with
      | input hinput =>
          rw [hkind] at hinput
          cases hinput
      | size hsize =>
          rw [hkind] at hsize
          cases hsize

/-- Results of operations are not bound. -/
theorem get?_applies (hb : f.BindsLeaves b) (hop : f.Applies op v x y) : b.get? v = none := by
  obtain ⟨e, he, -⟩ := hop.defined
  cases hbound : b.get? v with
  | none => rfl
  | some d =>
      obtain ⟨-, hdef, -⟩ := hb v d hbound
      rw [he] at hdef
      cases hdef

end BindsLeaves

/-- A literal has its own value. -/
theorem termValue_literal (hb : f.BindsLeaves b) (hkind : (f.value v).kind = .scalar (.const c)) :
    f.termValue b v = some c := by
  rw [termValue, valueWith, valueFrom, hb.get?_literal hkind, hkind]

/-- A leaf has the value that is bound to it. -/
theorem termValue_leaf (hleaf : f.IsLeaf v) (hdef : f.definingExpr? v = none) :
    f.termValue b v = b.get? v := by
  rw [termValue, valueWith, valueFrom, hdef]
  cases b.get? v with
  | some c => rfl
  | none => cases hleaf with
    | input hkind | size hkind => rw [hkind]

/-- The value of an operation comes from the values of its operands. -/
theorem termValue_operation (hb : f.BindsLeaves b) (hv : f.IntegerTerm v)
    (hop : f.Applies op v x y) :
    f.termValue b v = (f.termValue b x).bind fun p =>
      (f.termValue b y).bind fun q => hostBinary (f.dtype v) op p q := by
  obtain ⟨e, he, hkind, hin⟩ := hop.defined
  rw [hv.termValue_step, valueFrom, hb.get?_applies hop, hop.kind, he]
  simp [hkind, Expr.input, hin]

/-- Over integers the host evaluates with integer arithmetic. -/
theorem hostBinary_int (ht : (f.dtype v).isInt = true) (op : BinaryOp) (m n : Int) :
    hostBinary (f.dtype v) op (.int m) (.int n) = op.evalInt m n := by
  simp only [hostBinary, DataType.isFloat_of_isInt ht, Bool.not_false]

/-- The values of terms are integers. -/
theorem IntegerTerm.exists_int (hv : f.IntegerTerm v) (hb : f.BindsLeaves b)
    (h : f.termValue b v = some c) : ∃ n, c = .int n := by
  induction hv generalizing c with
  | literal _ hkind =>
      rw [termValue_literal hb hkind] at h
      cases h
      exact ⟨_, rfl⟩
  | leaf _ hleaf hdef =>
      rw [termValue_leaf hleaf hdef] at h
      obtain ⟨-, -, hint⟩ := hb _ c h
      exact hint
  | operation hop hx hy ihx ihy =>
      rw [termValue_operation hb (.operation hop hx hy) hop] at h
      obtain ⟨p, hp, h⟩ := Option.bind_eq_some_iff.1 h
      obtain ⟨q, hq, h⟩ := Option.bind_eq_some_iff.1 h
      obtain ⟨m, rfl⟩ := ihx hp
      obtain ⟨n, rfl⟩ := ihy hq
      rw [hostBinary_int hop.dtype] at h
      exact BinaryOp.exists_int_of_evalInt hop.arithmetic h

/-- The value of an operation does not depend on its type. -/
theorem termValue_operation_iff (hb : f.BindsLeaves b) (hv : f.IntegerTerm v)
    (hop : f.Applies op v x y) :
    f.termValue b v = some c ↔ ∃ m n, f.termValue b x = some (.int m) ∧
      f.termValue b y = some (.int n) ∧ op.evalInt m n = some c := by
  obtain ⟨hx, hy⟩ := hv.operands hop
  rw [termValue_operation hb hv hop]
  constructor
  · intro h
    obtain ⟨p, hp, h⟩ := Option.bind_eq_some_iff.1 h
    obtain ⟨q, hq, h⟩ := Option.bind_eq_some_iff.1 h
    obtain ⟨m, rfl⟩ := hx.exists_int hb hp
    obtain ⟨n, rfl⟩ := hy.exists_int hb hq
    rw [hostBinary_int hop.dtype] at h
    exact ⟨m, n, hp, hq, h⟩
  · rintro ⟨m, n, hm, hn, h⟩
    rw [hm, hn, Option.bind_some, Option.bind_some, hostBinary_int hop.dtype, h]

/-- A value found with nothing bound is the value under all bindings of the leaves. -/
theorem IntegerTerm.termValue_of_empty (hv : f.IntegerTerm v) (hb : f.BindsLeaves b)
    (h : f.termValue {} v = some c) : f.termValue b v = some c := by
  have hempty := bindsLeaves_empty f
  induction hv generalizing c with
  | literal _ hkind =>
      rw [termValue_literal hempty hkind] at h
      rw [termValue_literal hb hkind, h]
  | leaf _ hleaf hdef =>
      rw [termValue_leaf hleaf hdef] at h
      cases h
  | operation hop hx hy ihx ihy =>
      have hterm := IntegerTerm.operation hop hx hy
      obtain ⟨m, n, hm, hn, h⟩ := (termValue_operation_iff hempty hterm hop).1 h
      exact (termValue_operation_iff hb hterm hop).2 ⟨m, n, ihx hm, ihy hn, h⟩

/-- A term is known as the integer that it has as value with nothing bound. -/
theorem IntegerTerm.constInt?_eq_some_iff (hv : f.IntegerTerm v) :
    f.constInt? v = some n ↔ f.termValue {} v = some (.int n) := by
  have hmap : f.constInt? v = (f.termValue {} v).map (·.toInt) := by
    rw [← hv.evaluate_eq]
    rfl
  rw [hmap, Option.map_eq_some_iff]
  constructor
  · rintro ⟨c, hc, hn⟩
    obtain ⟨m, rfl⟩ := hv.exists_int (bindsLeaves_empty f) hc
    exact hn ▸ hc
  · exact fun h => ⟨_, h, rfl⟩

/-! ## Provably equal terms -/

/-- The scalars are one, known as one integer, or apply one operator to provably equal operands. -/
inductive ProvablyEqual (f : Fusion) : ValueId → ValueId → Prop where
  | refl (v : ValueId) : ProvablyEqual f v v
  | known {u v : ValueId} {n : Int} (hu : f.constInt? u = some n) (hv : f.constInt? v = some n) :
      ProvablyEqual f u v
  | computed {u v x y x' y' : ValueId} {op : BinaryOp} (hu : f.Applies op u x y)
      (hv : f.Applies op v x' y') (hx : ProvablyEqual f x x') (hy : ProvablyEqual f y y') :
      ProvablyEqual f u v

namespace ProvablyEqual

/-- Provably equal terms have one value under all bindings of the leaves. -/
theorem termValue_eq (h : f.ProvablyEqual u v) (hu : f.IntegerTerm u) (hv : f.IntegerTerm v)
    (hb : f.BindsLeaves b) : f.termValue b u = f.termValue b v := by
  induction h with
  | refl => rfl
  | known hn hn' =>
      rw [hu.termValue_of_empty hb (hu.constInt?_eq_some_iff.1 hn),
        hv.termValue_of_empty hb (hv.constInt?_eq_some_iff.1 hn')]
  | computed hop hop' _ _ ihx ihy =>
      obtain ⟨hx, hy⟩ := hu.operands hop
      obtain ⟨hx', hy'⟩ := hv.operands hop'
      apply Option.ext
      intro c
      rw [termValue_operation_iff hb hu hop, termValue_operation_iff hb hv hop', ihx hx hx',
        ihy hy hy']

/-- Provably equal terms are known as the same integer or not at all. -/
theorem constInt?_eq (h : f.ProvablyEqual u v) (hu : f.IntegerTerm u) (hv : f.IntegerTerm v) :
    f.constInt? u = f.constInt? v := by
  apply Option.ext
  intro n
  rw [hu.constInt?_eq_some_iff, hv.constInt?_eq_some_iff, h.termValue_eq hu hv (bindsLeaves_empty f)]

/-- Provable equality has no direction. -/
protected theorem symm (h : f.ProvablyEqual u v) : f.ProvablyEqual v u := by
  induction h with
  | refl v => exact .refl v
  | known hu hv => exact .known hv hu
  | computed hu hv _ _ ihx ihy => exact .computed hv hu ihx ihy

/-- Where one of two steps compares known integers, the other one compares them as well. -/
protected theorem trans (h : f.ProvablyEqual u v) (h' : f.ProvablyEqual v w)
    (hu : f.IntegerTerm u) (hv : f.IntegerTerm v) (hw : f.IntegerTerm w) :
    f.ProvablyEqual u w := by
  induction h generalizing w with
  | refl => exact h'
  | known hn hn' => exact .known hn ((h'.constInt?_eq hv hw).symm.trans hn')
  | @computed u v x y x' y' op hop hop' hxx hyy ihx ihy =>
      cases h' with
      | refl => exact .computed hop hop' hxx hyy
      | known hn hn' =>
          exact .known (((computed hop hop' hxx hyy).constInt?_eq hu hv).trans hn) hn'
      | computed hop₁ hop₂ hxx' hyy' =>
          obtain ⟨rfl, rfl, rfl⟩ := hop'.unique hop₁
          obtain ⟨hx, hy⟩ := hu.operands hop
          obtain ⟨hx', hy'⟩ := hv.operands hop'
          obtain ⟨hx₂, hy₂⟩ := hw.operands hop₂
          exact .computed hop hop₂ (ihx hxx' hx hx' hx₂) (ihy hyy' hy hy' hy₂)

end ProvablyEqual

/-! ## The comparison -/

/-- What the comparison does for scalars that are neither one nor both known. -/
def sameDefinition (f : Fusion) (fuel : Nat) (u v : ValueId) : Bool :=
  match f.definingExpr? u, f.definingExpr? v with
  | some d, some e => d.kind == e.kind && d.inputs.length == e.inputs.length
      && (d.inputs.zip e.inputs).all fun (p, q) => f.sameScalarWith fuel p q
  | _, _ => false

/-- Scalars of different names are the same just if their definitions are, unless both are known. -/
theorem sameScalarWith_succ (hne : u ≠ v) (hknown : f.constInt? u = none ∨ f.constInt? v = none)
    (fuel : Nat) : f.sameScalarWith (fuel + 1) u v = f.sameDefinition fuel u v := by
  rw [sameScalarWith, if_neg hne]
  split
  case h_1 hu hv =>
      rw [hu, hv] at hknown
      simp at hknown
  case h_2 => rfl

/-- The definitions of two operations are compared by their operators and operands. -/
theorem sameDefinition_iff {fuel : Nat} (hu : f.Applies op u x y) (hv : f.Applies op' v x' y') :
    f.sameDefinition fuel u v = true ↔
      op = op' ∧ f.sameScalarWith fuel x x' = true ∧ f.sameScalarWith fuel y y' = true := by
  obtain ⟨d, hd, hdop, hdin⟩ := hu.defined
  obtain ⟨e, he, heop, hein⟩ := hv.defined
  simp [sameDefinition, hd, he, hdop, heop, hdin, hein, ExprKind.binary_beq_iff]

/-- Only operations have the same definition. -/
theorem exists_applies_of_sameDefinition {fuel : Nat} (hu : f.IntegerTerm u) (hv : f.IntegerTerm v)
    (h : f.sameDefinition fuel u v = true) :
    ∃ op op' x y x' y', f.Applies op u x y ∧ f.Applies op' v x' y' := by
  unfold sameDefinition at h
  cases hu with
  | literal _ _ hdef | leaf _ _ hdef => simp [hdef] at h
  | operation hop =>
      cases hv with
      | literal _ _ hdef | leaf _ _ hdef => simp [hdef] at h
      | operation hop' => exact ⟨_, _, _, _, _, _, hop, hop'⟩

/-- Provably equal scalars that are neither one nor both known apply one operator. -/
theorem ProvablyEqual.exists_applies (h : f.ProvablyEqual u v) (hne : u ≠ v)
    (hknown : f.constInt? u = none ∨ f.constInt? v = none) :
    ∃ op x y x' y', f.Applies op u x y ∧ f.Applies op v x' y' ∧ f.ProvablyEqual x x' ∧
      f.ProvablyEqual y y' := by
  cases h with
  | refl => exact absurd rfl hne
  | known hu hv =>
      rw [hu, hv] at hknown
      simp at hknown
  | computed hu hv hx hy => exact ⟨_, _, _, _, _, hu, hv, hx, hy⟩

/-- The comparison finds exactly the provably equal terms, if it may go as deep as the first of them
is. -/
theorem sameScalarWith_iff (hu : f.IntegerTerm u) (hv : f.IntegerTerm v) {fuel : Nat}
    (hfuel : f.countBelow f.allValues u < fuel) :
    f.sameScalarWith fuel u v = true ↔ f.ProvablyEqual u v := by
  induction fuel generalizing u v with
  | zero => cases hfuel
  | succ fuel ih =>
      by_cases hne : u = v
      · rw [sameScalarWith, if_pos hne]
        exact iff_of_true rfl (hne ▸ .refl u)
      by_cases hboth : ∃ m n, f.constInt? u = some m ∧ f.constInt? v = some n
      · obtain ⟨m, n, hm, hn⟩ := hboth
        rw [sameScalarWith, if_neg hne, hm, hn]
        dsimp only
        rw [beq_iff_eq]
        constructor
        · rintro rfl
          exact .known hm hn
        · intro h
          have heq := h.constInt?_eq hu hv
          rw [hm, hn] at heq
          exact Option.some.inj heq
      · have hknown : f.constInt? u = none ∨ f.constInt? v = none := by
          cases hm : f.constInt? u with
          | none => exact .inl rfl
          | some m =>
              cases hn : f.constInt? v with
              | none => exact .inr rfl
              | some n => exact absurd ⟨m, n, hm, hn⟩ hboth
        rw [sameScalarWith_succ hne hknown]
        -- the operands of the first term are below it, so the remaining depth is enough for them
        have hoperands : ∀ {op x y x' y'}, f.Applies op u x y → f.Applies op v x' y' →
            (f.sameScalarWith fuel x x' = true ↔ f.ProvablyEqual x x') ∧
              (f.sameScalarWith fuel y y' = true ↔ f.ProvablyEqual y y') := by
          intro op x y x' y' hop hop'
          obtain ⟨hx, hy⟩ := hu.operands hop
          obtain ⟨hx', hy'⟩ := hv.operands hop'
          have hltx := countBelow_lt (mem_allValues.2 hx.hasValue) hx.acyclic
            (hop.computedFrom_iff.2 (.inl rfl))
          have hlty := countBelow_lt (mem_allValues.2 hy.hasValue) hy.acyclic
            (hop.computedFrom_iff.2 (.inr rfl))
          exact ⟨ih hx hx' (by omega), ih hy hy' (by omega)⟩
        constructor
        · intro h
          obtain ⟨op, op', x, y, x', y', hop, hop'⟩ := exists_applies_of_sameDefinition hu hv h
          obtain ⟨rfl, hx, hy⟩ := (sameDefinition_iff hop hop').1 h
          obtain ⟨hxx, hyy⟩ := hoperands hop hop'
          exact .computed hop hop' (hxx.1 hx) (hyy.1 hy)
        · intro h
          obtain ⟨op, x, y, x', y', hop, hop', hx, hy⟩ := h.exists_applies hne hknown
          obtain ⟨hxx, hyy⟩ := hoperands hop hop'
          exact (sameDefinition_iff hop hop').2 ⟨rfl, hxx.2 hx, hyy.2 hy⟩

/-- The comparison finds exactly the provably equal terms. -/
theorem sameScalar_iff (hu : f.IntegerTerm u) (hv : f.IntegerTerm v) :
    f.sameScalar u v = true ↔ f.ProvablyEqual u v :=
  sameScalarWith_iff hu hv hu.countBelow_lt_size

/-- Over the terms of a fusion, which are built from integer literals and leaves by the operators of
extents and not from themselves, the comparison is an equivalence relation.  Terms that it relates
evaluate alike under all bindings of the leaves to integers: both to the same integer, or both to
nothing. -/
theorem sameScalar_sound (f : Fusion) :
    Equivalence (fun u v : { v // f.IntegerTerm v } => f.sameScalar u v = true) ∧
      ∀ u v, f.IntegerTerm u → f.IntegerTerm v → f.sameScalar u v = true →
        ∀ b, f.BindsLeaves b →
          ((f.evaluate u).run b).1 = ((f.evaluate v).run b).1 ∧
            ∀ c, ((f.evaluate u).run b).1 = some c → ∃ n, c = .int n := by
  refine ⟨⟨fun u => ?_, fun {u v} h => ?_, fun {u v w} h h' => ?_⟩, fun u v hu hv h b hb => ?_⟩
  · exact (sameScalar_iff u.2 u.2).2 (.refl u)
  · exact (sameScalar_iff v.2 u.2).2 ((sameScalar_iff u.2 v.2).1 h).symm
  · have huv := (sameScalar_iff u.2 v.2).1 h
    have hvw := (sameScalar_iff v.2 w.2).1 h'
    exact (sameScalar_iff u.2 w.2).2 (huv.trans hvw u.2 v.2 w.2)
  · have heq := (sameScalar_iff hu hv).1 h
    rw [hu.evaluate_eq, hv.evaluate_eq, heq.termValue_eq hu hv hb]
    exact ⟨rfl, fun c hc => hv.exists_int hb hc⟩

/-- A symbol times four, once with a literal of 64 bits and once with one of 32 bits. -/
def quadrupledTwice : List Call :=
  [.scalar .int64, .constantTyped (.int 4) .int64, .constantTyped (.int 4) .int32,
    .binary .mul (.value ⟨0⟩) (.value ⟨1⟩), .binary .mul (.value ⟨0⟩) (.value ⟨2⟩)]

/-- Two ways to quadruple a number are found to be the same, and both give twenty for five. -/
theorem quadrupledTwice_sound :
    ∃ f, attemptAll quadrupledTwice {} = f ∧ f.sameScalar ⟨3⟩ ⟨4⟩ = true ∧
      ((f.evaluate ⟨3⟩).run (Bindings.bind {} ⟨0⟩ (.int 5))).1 = some (.int 20) ∧
      ((f.evaluate ⟨4⟩).run (Bindings.bind {} ⟨0⟩ (.int 5))).1 = some (.int 20) := by
  let f := attemptAll quadrupledTwice {}
  have hsymbol : f.IntegerTerm ⟨0⟩ := .leaf (by decide) (.input rfl) rfl
  have hwide : f.IntegerTerm ⟨1⟩ := .literal (by decide) rfl rfl
  have hnarrow : f.IntegerTerm ⟨2⟩ := .literal (by decide) rfl rfl
  have hfirst : f.Applies .mul ⟨3⟩ ⟨0⟩ ⟨1⟩ := ⟨rfl, rfl, rfl, _, rfl, rfl, rfl⟩
  have hsecond : f.Applies .mul ⟨4⟩ ⟨0⟩ ⟨2⟩ := ⟨rfl, rfl, rfl, _, rfl, rfl, rfl⟩
  have hsame : f.sameScalar ⟨3⟩ ⟨4⟩ = true := by decide +kernel
  have hbinds : f.BindsLeaves (Bindings.bind {} ⟨0⟩ (.int 5)) := by
    intro v c h
    rw [Bindings.get?_bind] at h
    split at h
    case isTrue hv =>
        cases h
        exact hv ▸ ⟨.input rfl, rfl, 5, rfl⟩
    case isFalse => cases h
  obtain ⟨heq, -⟩ := (sameScalar_sound f).2 ⟨3⟩ ⟨4⟩ (.operation hfirst hsymbol hwide)
    (.operation hsecond hsymbol hnarrow) hsame _ hbinds
  have hvalue : ((f.evaluate ⟨3⟩).run (Bindings.bind {} ⟨0⟩ (.int 5))).1 = some (.int 20) := by
    decide +kernel
  exact ⟨f, rfl, hsame, hvalue, heq ▸ hvalue⟩

end Fusion
end FusionCompiler
