import FusionCompiler.Proofs.Fusion.FoldedOperators
import FusionCompiler.Proofs.Fusion.Lookalikes
import FusionCompiler.Proofs.Lower.Counterparts

/-!
# Roots without guards

A root axis that is only merged, and split by factors that divide it, is left out
of the guard on root indices.  The axis may be merged with axes of other roots,
which may be padded, and the extent of a merged axis may wrap around.  Neither
matters: followed back from the leaves, an index that is smaller in magnitude than
the extent of its axis has a quotient and a remainder that are smaller than the
extents of the two merged axes, and the two halves of an even split make an index
that is smaller than the extent of the split axis.

Whether a factor divides an extent is asked on the host.  In the kernel the factor
has to be the same number.  It need not be: the kernel computes some operators of
integers in floating point.

Main results:

- Theorem `Fusion.Balanced.agreed`: if host and kernel agree on the factors of all
  splits, they agree on all extents.
- Theorem `LoopPlan.BackLinked.shorter`: one transform without remainder.
- Theorem `Fusion.exactRoots_below`: the index of a root without guard is below the
  extent of the root.
-/

namespace FusionCompiler

/-! ## Magnitudes -/

/-- A number of smaller magnitude than a 64-bit integer is a 64-bit integer. -/
theorem Fits64.of_natAbs_lt {m n : Int} (hn : Fits64 n) (h : m.natAbs < n.natAbs) : Fits64 m := by
  unfold Fits64 int64Range at hn ⊢
  dsimp only at hn ⊢
  omega

/-- The quotient by one of two factors is smaller than the other factor. -/
theorem natAbs_tdiv_lt {x r m n : Int} (hx : x.natAbs < r.natAbs) (hr : r.natAbs ≤ (m * n).natAbs) :
    (x.tdiv n).natAbs < m.natAbs := by
  rw [Int.natAbs_tdiv]
  apply Nat.div_lt_of_lt_mul
  rw [Int.natAbs_mul, Nat.mul_comm] at hr
  exact Nat.lt_of_lt_of_le hx hr

/-- Digits below two extents make a number below the product of the extents. -/
theorem natAbs_mul_add_lt {x y m n r : Int} (hx : x.natAbs < m.natAbs) (hy : y.natAbs < n.natAbs)
    (hr : m.natAbs * n.natAbs ≤ r.natAbs) :
    (x * n).natAbs < r.natAbs ∧ (x * n + y).natAbs < r.natAbs := by
  have hstep : (x.natAbs + 1) * n.natAbs ≤ m.natAbs * n.natAbs := Nat.mul_le_mul_right _ hx
  rw [Nat.add_mul, Nat.one_mul] at hstep
  have hsum := Int.natAbs_add_le (x * n) y
  rw [Int.natAbs_mul] at hsum ⊢
  omega

/-- Wrapping an integer around makes it no larger. -/
theorem Constant.natAbs_le_of_cast {t : DataType} (ht : t.isInt = true) {m n : Int}
    (h : (Constant.int m).cast t = .int n) : n.natAbs ≤ m.natAbs := by
  cases t with
  | int32 =>
      cases h
      by_cases hfits : DataType.int32.Holds m
      · rw [Constant.int.inj hfits.cast_eq]
      · have hlow := Int.le_bmod (x := m) (m := 4294967296) (by decide)
        have hhigh := Int.bmod_lt (x := m) (m := 4294967296) (by decide)
        unfold DataType.Holds at hfits
        omega
  | int64 =>
      cases h
      exact Nat.le_refl _
  | _ => cases ht

/-! ## Results and their operands -/

/-- The operators that make the extents of transforms. -/
def BinaryOp.isExtentOp (op : BinaryOp) : Prop :=
  op = .mul ∨ op = .ceilDiv

namespace Scalar

variable {env : Env} {op : BinaryOp} {a b : Scalar} {m n r : Int} {c : Constant}

/-- The sum of two operands, less one, is a 64-bit integer: their quotient can be rounded up. -/
def Adds (env : Env) (a b : Scalar) : Prop :=
  ∀ m, a.evaluate env = some (.int m) → ∀ n, b.evaluate env = some (.int n) → Fits64 (m + n - 1)

instance (env : Env) (a b : Scalar) : Decidable (Adds env a b) :=
  decidable_of_iff (¬ ∃ m, a.evaluate env = some (.int m) ∧
    ∃ n, b.evaluate env = some (.int n) ∧ ¬ Fits64 (m + n - 1)) (by simp [Adds])

theorem exists_int_of_foldInt (hop : op.isExtentOp) (h : foldInt op m n = some c) :
    ∃ r, c = .int r := by
  rcases hop with rfl | rfl
  · obtain ⟨r, -, rfl⟩ := Option.map_eq_some_iff.1 h
    exact ⟨r, rfl⟩
  · simp only [foldInt, Option.ite_none_left_eq_some, Option.some.injEq] at h
    exact ⟨_, h.2.symm⟩

/-- An operator of extents is exact where it has a value, if there is no overflow on the way. -/
theorem exactInt?_of_foldInt (hop : op.isExtentOp) (hsum : op = .ceilDiv → Fits64 (m + n - 1))
    (h : foldInt op m n = some c) : ∃ r, c = .int r ∧ exactInt? op m n = some r := by
  rcases hop with rfl | rfl
  · obtain ⟨r, hr, rfl⟩ := Option.map_eq_some_iff.1 h
    rw [eq_of_checked64 hr]
    exact ⟨_, rfl, rfl⟩
  · have hfits := hsum rfl
    simp only [foldInt, Option.ite_none_left_eq_some, Option.some.injEq] at h
    obtain ⟨hpos, rfl⟩ := h
    rw [BinaryOp.roundedUp_of_fits hfits]
    exact ⟨_, rfl, if_pos ⟨by omega, hfits⟩⟩

/-- The quotient of a dividend that is smaller than a 64-bit integer does not overflow. -/
theorem foldInt_div_of_natAbs_lt (hr : Fits64 r) (hm : m.natAbs < r.natAbs) (hn : n ≠ 0) :
    foldInt .div m n = some (.int (m.tdiv n)) := by
  have hsmall : (m.tdiv n).natAbs < r.natAbs := by
    rw [Int.natAbs_tdiv]
    exact Nat.lt_of_le_of_lt (Nat.div_le_self _ _) hm
  rw [foldInt, if_neg hn, checked64_of_fits (hr.of_natAbs_lt hsmall)]
  rfl

/-- A dividend that is smaller than a 64-bit integer has a remainder: it is not the least integer. -/
theorem foldInt_mod_of_natAbs_lt (hr : Fits64 r) (hm : m.natAbs < r.natAbs) (hn : n ≠ 0) :
    foldInt .mod m n = some (.int (m.tmod n)) := by
  have hleast : m ≠ int64Range.least := by
    unfold Fits64 int64Range at hr
    unfold int64Range
    dsimp only at hr ⊢
    omega
  rw [foldInt, if_neg]
  rintro (hzero | ⟨hm, -⟩)
  · exact hn hzero
  · exact hleast hm

/-- A result other than zero has operands other than zero. -/
theorem ne_zero_of_exactInt? (hop : op.isExtentOp) (h : exactInt? op m n = some r) (hr : r ≠ 0) :
    m ≠ 0 ∧ n ≠ 0 := by
  rcases hop with rfl | rfl
  · cases h
    exact ⟨left_ne_zero_of_mul hr, right_ne_zero_of_mul hr⟩
  · simp only [exactInt?, Option.ite_none_right_eq_some, Option.some.injEq] at h
    obtain ⟨⟨hpos, -⟩, rfl⟩ := h
    refine ⟨?_, by omega⟩
    rintro rfl
    exact hr (Int.ediv_eq_zero_of_lt (by omega) (by omega))

/-- What a folded operator of extents stands for: zero, an operand besides a literal one, or what the
operator makes of the values of its operands. -/
theorem cases_of_extentOp (hop : op.isExtentOp) (h : (mkBinary op a b).evaluate env = some c) :
    c = .int 0 ∨ (op = .mul ∧ a = .int 1 ∧ b.evaluate env = some c) ∨
      (b = .int 1 ∧ a.evaluate env = some c) ∨
        ∃ x y, a.evaluate env = some x ∧ b.evaluate env = some y ∧ evalBinary op x y = some c := by
  rcases mkBinary_cases op a b with ⟨m, n, d, rfl, rfl, hd, heq⟩ | ⟨s, hs, heq⟩ | ⟨-, heq⟩
  · rw [heq, evaluate_ofConstant] at h
    cases h
    exact .inr (.inr (.inr ⟨.int m, .int n, rfl, rfl, hd⟩))
  · rw [heq] at h
    rcases hop with rfl | rfl
    · simp only [simplify?] at hs
      split at hs
      · cases hs
        cases h
        exact .inl rfl
      · split at hs
        case isTrue hone =>
            cases hs
            exact .inr (.inl ⟨rfl, eq_of_isInt hone, h⟩)
        case isFalse =>
            simp only [Option.ite_none_right_eq_some, Option.some.injEq] at hs
            obtain ⟨hone, rfl⟩ := hs
            exact .inr (.inr (.inl ⟨eq_of_isInt hone, h⟩))
    · simp only [simplify?, Option.ite_none_right_eq_some, Option.some.injEq] at hs
      obtain ⟨hone, rfl⟩ := hs
      exact .inr (.inr (.inl ⟨eq_of_isInt hone, h⟩))
  · rw [heq, evaluate] at h
    split at h
    · cases h
    case h_2 x hx =>
        split at h
        · cases h
        case h_2 y hy => exact .inr (.inr (.inr ⟨x, y, hx, hy, h⟩))

/-- An operator of extents makes integers of integers. -/
theorem exists_int_of_operands (hop : op.isExtentOp)
    (ha : ∀ c, a.evaluate env = some c → ∃ n, c = .int n)
    (hb : ∀ c, b.evaluate env = some c → ∃ n, c = .int n)
    (h : (mkBinary op a b).evaluate env = some c) : ∃ n, c = .int n := by
  rcases cases_of_extentOp hop h with rfl | ⟨-, -, h⟩ | ⟨-, h⟩ | ⟨x, y, hx, hy, h⟩
  · exact ⟨0, rfl⟩
  · exact hb c h
  · exact ha c h
  · obtain ⟨m, rfl⟩ := ha x hx
    obtain ⟨n, rfl⟩ := hb y hy
    exact exists_int_of_foldInt hop h

/-- A result that is an integer other than zero is exact, and has integer operands. -/
theorem exists_operands (hop : op.isExtentOp) (hadds : op = .ceilDiv → Adds env a b)
    (h : (mkBinary op a b).evaluate env = some (.int r)) (hr : r ≠ 0) :
    ∃ m n, a.evaluate env = some (.int m) ∧ b.evaluate env = some (.int n) ∧
      exactInt? op m n = some r := by
  rcases cases_of_extentOp hop h with hzero | ⟨rfl, rfl, hb⟩ | ⟨rfl, ha⟩ | ⟨x, y, hx, hy, h⟩
  · exact absurd (Constant.int.inj hzero) hr
  · exact ⟨1, r, rfl, hb, by rw [exactInt?, Int.one_mul]⟩
  · refine ⟨r, 1, ha, rfl, ?_⟩
    rcases hop with rfl | rfl
    · rw [exactInt?, Int.mul_one]
    · rw [exactInt?, if_pos ⟨Int.one_pos, hadds rfl r ha 1 rfl⟩, Int.add_sub_cancel, Int.ediv_one]
  · -- an operand that is no integer makes a floating-point number
    have hint : ∃ m n, x = .int m ∧ y = .int n := by
      rcases hop with rfl | rfl <;> cases x <;> cases y <;>
        first | exact ⟨_, _, rfl, rfl⟩ | cases h
    obtain ⟨m, n, rfl, rfl⟩ := hint
    obtain ⟨q, hq, hexact⟩ := exactInt?_of_foldInt hop (fun h => hadds h m hx n hy) h
    cases hq
    exact ⟨m, n, hx, hy, hexact⟩

end Scalar

namespace Fusion

variable {f : Fusion} {env : Scalar.Env} {op : BinaryOp} {k x y z : ValueId} {a : AxisId}
  {t : Transform} {n r : Int}

/-! ## Host and kernel -/

/-- What a kernel makes of the scalar is an integer, and unless this is zero the host makes the same
of the scalar, or nothing as long as no inputs are bound. -/
def Agreed (f : Fusion) (env : Scalar.Env) (k : ValueId) : Prop :=
  ∀ c, (f.kernelScalar k).evaluate env = some c →
    ∃ n, c = .int n ∧ (n ≠ 0 → ∀ d, ((f.evaluate k).run {}).1 = some d → d = .int n)

instance (f : Fusion) (env : Scalar.Env) (k : ValueId) : Decidable (f.Agreed env k) :=
  match h : (f.kernelScalar k).evaluate env with
  | none => .isTrue (by simp [Agreed, h])
  | some (.int n) =>
    decidable_of_iff (n = 0 ∨ ((f.evaluate k).run {}).1 = some (.int n) ∨
      ((f.evaluate k).run {}).1.isNone = true) (by
        cases hd : ((f.evaluate k).run {}).1 <;> simp [Agreed, h, hd, or_iff_not_imp_left])
  | some (.bool _) | some (.float _) => .isFalse (by simp [Agreed, h])

/-- The integer that the host knows is the one that a kernel computes. -/
theorem Agreed.constInt?_eq (h : f.Agreed env k) {m : Int}
    (hval : (f.kernelScalar k).evaluate env = some (.int n)) (hn : n ≠ 0)
    (hm : f.constInt? k = some m) : m = n := by
  obtain ⟨n', hn', hhost⟩ := h _ hval
  cases hn'
  have hmap : f.constInt? k = ((f.evaluate k).run {}).1.map (·.toInt) := rfl
  rw [hmap] at hm
  obtain ⟨d, hd, rfl⟩ := Option.map_eq_some_iff.1 hm
  rw [hhost hn d hd]
  rfl

theorem agreed_of_const? (hf : Sound f) (hk : f.HasValue k) (h : f.const? k = some (.int n)) :
    f.Agreed env k := by
  intro c hc
  rw [kernelScalar_const h, Scalar.evaluate_ofConstant] at hc
  cases hc
  refine ⟨n, rfl, fun _ d hd => ?_⟩
  rw [evaluate_eq hf hk, valueUnder_of_const? hf h] at hd
  exact (Option.some.inj hd).symm

/-- Host and kernel agree on the root: a size is known to the kernel only. -/
theorem PlainAxis.agreed (h : f.PlainAxis a) (hf : Sound f) (ha : f.HasAxis a) :
    f.Agreed env (f.extent a) := by
  have hhas := (hf.extents a ha).has
  cases h with
  | literal n hn hone => exact agreed_of_const? hf hhas hn
  | size tensor dim hkind hdef hnot =>
      intro c hc
      rw [kernelScalar_size hkind] at hc
      obtain ⟨n, -, rfl⟩ := Option.map_eq_some_iff.1 hc
      refine ⟨n, rfl, fun _ d hd => ?_⟩
      rw [evaluate_eq hf hhas, valueUnder_eq hf, valueFrom, hkind, hdef] at hd
      cases hd

/-- The quotient of a split can be rounded up: the sum behind it is a 64-bit integer. -/
def Rounds (f : Fusion) (env : Scalar.Env) : Transform → Prop
  | .split a _ _ k _ => Scalar.Adds env (f.ownExtent a) (f.kernelScalar k)
  | .merge .. => True

instance (f : Fusion) (env : Scalar.Env) (t : Transform) : Decidable (f.Rounds env t) :=
  match t with
  | .split a _ _ _ _ => inferInstanceAs (Decidable (Scalar.Adds env (f.ownExtent a) _))
  | .merge .. => .isTrue trivial

/-- Host and kernel agree on a result if they agree on its operands. -/
theorem IsResult.agreed (hr : f.IsResult op z x y) (hop : op.isExtentOp) (hf : Sound f)
    (hadds : op = .ceilDiv → Scalar.Adds env (f.kernelScalar x) (f.kernelScalar y))
    (hz : f.IntegerScalar z) (hx : f.HasValue x) (hy : f.HasValue y) (hax : f.Agreed env x)
    (hay : f.Agreed env y) : f.Agreed env z := by
  cases hr with
  | folded m n c hm hn heval hd =>
      obtain ⟨r, hr⟩ := hf.literals z _ hd hz.integer
      exact agreed_of_const? hf hz.has (hr ▸ hd)
  | defined e hkind hdef hkindop hin =>
      intro c hc
      rw [kernelScalar_defined hf hkind hdef hkindop hin] at hc
      obtain ⟨r, rfl⟩ := Scalar.exists_int_of_operands hop
        (fun c hc => (hax c hc).imp fun _ h => h.1) (fun c hc => (hay c hc).imp fun _ h => h.1) hc
      refine ⟨r, rfl, fun hr d hd => ?_⟩
      obtain ⟨m, n, hm, hn, hexact⟩ := Scalar.exists_operands hop hadds hc hr
      obtain ⟨hm0, hn0⟩ := Scalar.ne_zero_of_exactInt? hop hexact hr
      rw [evaluate_eq hf hz.has, valueUnder_operation hf rfl hkind hdef hkindop hin] at hd
      obtain ⟨p, hp, hd⟩ := Option.bind_eq_some_iff.1 hd
      obtain ⟨q, hq, hd⟩ := Option.bind_eq_some_iff.1 hd
      rw [← evaluate_eq hf hx] at hp
      rw [← evaluate_eq hf hy] at hq
      obtain ⟨m', hm', hhostx⟩ := hax _ hm
      obtain ⟨n', hn', hhosty⟩ := hay _ hn
      cases hm'
      cases hn'
      obtain rfl := hhostx hm0 p hp
      obtain rfl := hhosty hn0 q hq
      have hintegral : (!(f.dtype z).isFloat) = true := by
        rw [DataType.isFloat_of_isInt hz.integer]
        rfl
      unfold hostBinary at hd
      rw [hintegral] at hd
      exact BinaryOp.evalInt_eq hexact hd

/-- Host and kernel agree on the extents that a transform makes if they agree on its factor and on
the extents of its inputs. -/
theorem Recorded.agreed (ht : f.Recorded t) (hf : Sound f) (hrounds : f.Rounds env t)
    (hfactor : ∀ k ∈ t.factor?, f.Agreed env k)
    (hin : ∀ a ∈ t.inputs, f.Agreed env (f.extent a)) :
    ∀ a ∈ t.outputs, f.Agreed env (f.extent a) := by
  have hout : ∀ a ∈ t.outputs, f.IntegerScalar (f.extent a) := fun a ha =>
    hf.extents a (ht.hasAxis_output ha)
  have hhas : ∀ a ∈ t.inputs, f.HasValue (f.extent a) := fun a ha =>
    (hf.extents a (ht.hasAxis_input ha)).has
  cases t with
  | split a o i k innerSplit =>
      obtain ⟨-, -, -, hk, hext⟩ := ht
      have hakey := hin a (by simp [Transform.inputs])
      have hafactor := hfactor k rfl
      have hquotient : ∀ b ∈ [o, i], f.IsResult .ceilDiv (f.extent b) (f.extent a) k →
          f.Agreed env (f.extent b) := fun b hb hr =>
        hr.agreed (.inr rfl) hf (fun _ => hrounds) (hout b hb) (hhas a (by simp [Transform.inputs]))
          hk.has hakey hafactor
      intro b hb
      cases innerSplit with
      | true =>
          obtain ⟨rfl, hr⟩ := hext
          rcases List.mem_pair.1 hb with rfl | rfl
          · exact hquotient b hb hr
          · exact hafactor
      | false =>
          obtain ⟨rfl, hr⟩ := hext
          rcases List.mem_pair.1 hb with rfl | rfl
          · exact hafactor
          · exact hquotient b hb hr
  | merge o i out =>
      obtain ⟨-, -, -, hr⟩ := ht
      intro b hb
      rw [List.mem_singleton.1 hb]
      have ho : o ∈ (Transform.merge o i out).inputs := by simp [Transform.inputs]
      have hi : i ∈ (Transform.merge o i out).inputs := by simp [Transform.inputs]
      have hmul : BinaryOp.mul ≠ .ceilDiv := by decide
      exact hr.agreed (.inl rfl) hf (absurd · hmul) (hout out (by simp [Transform.outputs]))
        (hhas o ho) (hhas i hi) (hin o ho) (hin i hi)

/-- Host and kernel agree on all extents if they agree on the factors of all splits and no quotient
overflows. -/
theorem Balanced.agreed {root leaf : List AxisId} {ts : List TransformId}
    (h : f.Balanced root ts leaf) (hf : Sound f) (hroot : ∀ a ∈ root, f.HasAxis a ∧ f.PlainAxis a)
    (hrounds : ∀ t ∈ ts, f.Rounds env (f.transform t))
    (hfactors : ∀ t ∈ ts, ∀ k ∈ (f.transform t).factor?, f.Agreed env k) :
    ∀ a ∈ root ++ f.outputsOf ts, f.Agreed env (f.extent a) := by
  refine h.forward_induction hf (fun a ha => (hroot a ha).2.agreed hf (hroot a ha).1) fun t ht => ?_
  exact (hf.recorded t (h.has t ht)).agreed hf (hrounds t ht) (hfactors t ht)

/-! ## Extents without remainder -/

/-- A result other than zero is no larger than the exact one. -/
theorem IsResult.natAbs_le (hr : f.IsResult op z x y) (hop : op.isExtentOp) (hf : Sound f)
    (hadds : op = .ceilDiv → Scalar.Adds env (f.kernelScalar x) (f.kernelScalar y))
    (hz : f.IntegerScalar z) (hval : (f.kernelScalar z).evaluate env = some (.int r)) (hne : r ≠ 0) :
    ∃ m n, (f.kernelScalar x).evaluate env = some (.int m) ∧
      (f.kernelScalar y).evaluate env = some (.int n) ∧
        ∀ q, Scalar.exactInt? op m n = some q → r.natAbs ≤ q.natAbs := by
  cases hr with
  | folded m n c hm hn heval hd =>
      rw [kernelScalar_const hd, Scalar.evaluate_ofConstant] at hval
      refine ⟨m, n, ?_, ?_, fun q hq => ?_⟩
      · rw [kernelScalar_const hm, Scalar.evaluate_ofConstant]
      · rw [kernelScalar_const hn, Scalar.evaluate_ofConstant]
      · rw [BinaryOp.evalInt_eq hq heval] at hval
        exact Constant.natAbs_le_of_cast hz.integer (Option.some.inj hval)
  | defined e hkind hdef hkindop hin =>
      rw [kernelScalar_defined hf hkind hdef hkindop hin] at hval
      obtain ⟨m, n, hm, hn, hexact⟩ := Scalar.exists_operands hop hadds hval hne
      refine ⟨m, n, hm, hn, fun q hq => ?_⟩
      rw [hexact] at hq
      cases hq
      exact Nat.le_refl _

/-- A factor that divides an extent and its quotient make no more than the extent. -/
theorem IsResult.natAbs_mul_le (hr : f.IsResult .ceilDiv z x k) (hf : Sound f)
    (hadds : Scalar.Adds env (f.kernelScalar x) (f.kernelScalar k)) (hz : f.IntegerScalar z)
    (hx : f.Agreed env x) (hk : f.Agreed env k) {m' n' : Int}
    (hm' : f.constInt? x = some m') (hn' : f.constInt? k = some n') (hpos : 0 < n')
    (hmod : m' % n' = 0) (hzval : (f.kernelScalar z).evaluate env = some (.int r)) (hr0 : r ≠ 0)
    (hkval : (f.kernelScalar k).evaluate env = some (.int n)) (hn0 : n ≠ 0) :
    ∃ m, (f.kernelScalar x).evaluate env = some (.int m) ∧ r.natAbs * n.natAbs ≤ m.natAbs := by
  obtain ⟨m, n₀, hm, hn, hle⟩ := hr.natAbs_le (.inr rfl) hf (fun _ => hadds) hz hzval hr0
  cases hkval.symm.trans hn
  obtain rfl := hk.constInt?_eq hkval hn0 hn'
  have hle := hle (steps m n') (if_pos ⟨hpos, hadds m hm n' hn⟩)
  have hm0 : m ≠ 0 := by
    rintro rfl
    have hzero : steps 0 n' = 0 := Int.ediv_eq_zero_of_lt (by omega) (by omega)
    rw [hzero] at hle
    omega
  obtain rfl := hx.constInt?_eq hm hm0 hm'
  refine ⟨m', hm, ?_⟩
  calc r.natAbs * n'.natAbs ≤ (steps m' n').natAbs * n'.natAbs := Nat.mul_le_mul_right _ hle
    _ = m'.natAbs := by rw [← Int.natAbs_mul, steps_mul_of_emod hpos hmod]

/-- The halves of an even split are no larger together than the axis. -/
theorem Recorded.natAbs_mul_le {o i : AxisId} {innerSplit : Bool} {q : Int}
    (ht : f.Recorded (.split a o i k innerSplit)) (hf : Sound f)
    (hrounds : f.Rounds env (.split a o i k innerSplit)) (ha : f.Agreed env (f.extent a))
    (hk : f.Agreed env k)
    (heven : f.splitsEvenly (.split a o i k innerSplit) = true)
    (ho : (f.ownExtent o).evaluate env = some (.int q)) (hq : q ≠ 0)
    (hi : (f.ownExtent i).evaluate env = some (.int r)) (hr : r ≠ 0) :
    ∃ n, (f.ownExtent a).evaluate env = some (.int n) ∧ q.natAbs * r.natAbs ≤ n.natAbs := by
  have hout : ∀ b ∈ [o, i], f.IntegerScalar (f.extent b) := fun b hb =>
    hf.extents b (ht.hasAxis_output hb)
  rw [splitsEvenly] at heven
  split at heven
  case h_2 => cases heven
  case h_1 m' n' hm hn =>
      obtain ⟨hpos, hmod⟩ : 0 < n' ∧ m' % n' = 0 := by simpa using heven
      obtain ⟨-, -, -, -, hext⟩ := ht
      cases innerSplit with
      | true =>
          obtain ⟨rfl, hres⟩ := hext
          exact hres.natAbs_mul_le hf hrounds (hout o (by simp)) ha hk hm hn hpos hmod ho hq hi hr
      | false =>
          obtain ⟨rfl, hres⟩ := hext
          rw [Nat.mul_comm]
          exact hres.natAbs_mul_le hf hrounds (hout i (by simp)) ha hk hm hn hpos hmod hi hr ho hq

end Fusion

/-! ## Indices without overruns -/

namespace LoopPlan

open Fusion

variable {p : LoopPlan} {v : ValueId} {env : Scalar.Env} {m leaves : AxisIndices} {t : Transform}
  {a : AxisId}

/-- The index of an axis is an integer of smaller magnitude than the extent of the axis. -/
def Shorter (p : LoopPlan) (env : Scalar.Env) (m : AxisIndices) (a : AxisId) : Prop :=
  ∃ s x n, m.get? a = some s ∧ s.evaluate env = some (.int x) ∧
    (p.fusion.ownExtent a).evaluate env = some (.int n) ∧ x.natAbs < n.natAbs

/-- The halves of an even split lead back to an index that is smaller than the extent of the axis. -/
theorem BackLinked.shorter_split {o i : AxisId} {k : ValueId} {innerSplit : Bool}
    (h : BackLinked p m (.split a o i k innerSplit)) (hf : Sound p.fusion)
    (ht : p.fusion.Recorded (.split a o i k innerSplit))
    (hown : ∀ a, p.concreteExtent a = p.fusion.ownExtent a)
    (hagreed : p.fusion.Agreed env (p.fusion.extent a)) (hfactor : p.fusion.Agreed env k)
    (hrounds : p.fusion.Rounds env (.split a o i k innerSplit))
    (hfits : ∀ n, (p.fusion.ownExtent a).evaluate env = some (.int n) → Fits64 n)
    (heven : p.fusion.splitsEvenly (.split a o i k innerSplit) = true)
    (houter : p.Shorter env m o) (hinner : p.Shorter env m i) : p.Shorter env m a := by
  obtain ⟨so, si, ho, hi, ha⟩ := h
  obtain ⟨so', x, q, ho', hx, hq, hxq⟩ := houter
  obtain ⟨si', y, r, hi', hy, hr, hyr⟩ := hinner
  cases ho.symm.trans ho'
  cases hi.symm.trans hi'
  obtain ⟨n, hn, hle⟩ :=
    ht.natAbs_mul_le hf hrounds hagreed hfactor heven hq (by omega) hr (by omega)
  obtain ⟨hprod, hsum⟩ := natAbs_mul_add_lt hxq hyr hle
  have hfit := hfits n hn
  rw [hown i] at ha
  have hmul := Scalar.evaluate_mkBinary_of_fits (exactInt?_mul x r) hx hr (hfit.of_natAbs_lt hprod)
  have hadd := Scalar.evaluate_mkBinary_of_fits (exactInt?_add _ y) hmul hy (hfit.of_natAbs_lt hsum)
  exact ⟨_, _, n, ha, hadd, hn, hsum⟩

/-- The index of a merged axis leads back to indices that are smaller than the extents of the two
axes, also if the extent of the merged axis wraps around. -/
theorem BackLinked.shorter_merge {o i out : AxisId} (h : BackLinked p m (.merge o i out))
    (hf : Sound p.fusion) (ht : p.fusion.Recorded (.merge o i out))
    (hown : ∀ a, p.concreteExtent a = p.fusion.ownExtent a)
    (hfits : ∀ n, (p.fusion.ownExtent out).evaluate env = some (.int n) → Fits64 n)
    (hout : p.Shorter env m out) : p.Shorter env m o ∧ p.Shorter env m i := by
  obtain ⟨s, hs, ho, hi⟩ := h
  obtain ⟨s', x, r, hs', hx, hr, hxr⟩ := hout
  cases hs.symm.trans hs'
  have hfit := hfits r hr
  have hextent := hf.extents out (ht.hasAxis_output (by simp [Transform.outputs]))
  obtain ⟨-, -, -, hres⟩ := ht
  have hmul : BinaryOp.mul ≠ .ceilDiv := by decide
  obtain ⟨q, n, hq, hn, hle⟩ := hres.natAbs_le (.inl rfl) hf (absurd · hmul) hextent hr (by omega)
  have hle := hle (q * n) rfl
  have hn0 : n ≠ 0 := by
    rintro rfl
    rw [Int.mul_zero] at hle
    omega
  have hquot := natAbs_tdiv_lt hxr hle
  have hrem : (x.tmod n).natAbs < n.natAbs := by
    rw [Int.natAbs_tmod]
    exact Nat.mod_lt _ (by omega)
  rw [hown i] at ho hi
  have hdiv := Scalar.evaluate_mkBinary_of_foldInt (by simp [BinaryOp.isComparison]) hx hn
    (Scalar.foldInt_div_of_natAbs_lt hfit hxr hn0)
  have hmod := Scalar.evaluate_mkBinary_of_foldInt (by simp [BinaryOp.isComparison]) hx hn
    (Scalar.foldInt_mod_of_natAbs_lt hfit hxr hn0)
  exact ⟨⟨_, _, q, ho, hdiv, hq, hquot⟩, _, _, n, hi, hmod, hn, hrem⟩

/-- Backward arithmetic makes indices smaller than the extents of what a transform without remainder
consumes from such indices of what it produces. -/
theorem BackLinked.shorter (h : BackLinked p m t) (hf : Sound p.fusion) (ht : p.fusion.Recorded t)
    (hown : ∀ a, p.concreteExtent a = p.fusion.ownExtent a)
    (hagreed : ∀ a ∈ t.inputs, p.fusion.Agreed env (p.fusion.extent a))
    (hfactor : ∀ k ∈ t.factor?, p.fusion.Agreed env k) (hrounds : p.fusion.Rounds env t)
    (hfits : ∀ a ∈ t.inputs ++ t.outputs, ∀ n,
      (p.fusion.ownExtent a).evaluate env = some (.int n) → Fits64 n)
    (heven : p.fusion.splitsEvenly t = true) (hout : ∀ a ∈ t.outputs, p.Shorter env m a) :
    ∀ a ∈ t.inputs, p.Shorter env m a := by
  intro b hb
  cases t with
  | split a o i k innerSplit =>
      obtain rfl := List.mem_singleton.1 hb
      exact h.shorter_split hf ht hown (hagreed b hb) (hfactor k rfl) hrounds
        (hfits b (List.mem_append_left _ hb)) heven (hout o (by simp [Transform.outputs]))
        (hout i (by simp [Transform.outputs]))
  | merge o i out =>
      have hmerged : out ∈ (Transform.merge o i out).outputs := by simp [Transform.outputs]
      obtain ⟨ho, hi⟩ := h.shorter_merge hf ht hown (hfits out (List.mem_append_right _ hmerged))
        (hout out hmerged)
      rcases List.mem_pair.1 hb with rfl | rfl
      · exact ho
      · exact hi

/-- The index of an exact root is smaller than its extent if the leaf indices are smaller than
theirs. -/
theorem Standalone.shorter_of_isExactRoot (hp : p.Standalone)
    (hfactors : ∀ t ∈ p.fusion.history v, ∀ k ∈ (p.fusion.transform t).factor?, p.fusion.Agreed env k)
    (hrounds : ∀ t ∈ p.fusion.history v, p.fusion.Rounds env (p.fusion.transform t))
    (hfits : ∀ a ∈ p.fusion.axesOf v, ∀ n,
      (p.fusion.ownExtent a).evaluate env = some (.int n) → Fits64 n)
    (hleaves : ∀ l ∈ p.fusion.leaf v, p.Shorter env leaves l)
    (ha : a ∈ (p.fusion.view v).domain.root) (h : p.isExactRoot v a = true) :
    p.Shorter env (p.carried v leaves) a := by
  have hb := hp.cuts.history hp.sound v
  have hagreed := hb.agreed hp.sound (fun b hb => ⟨hp.sound.domains v b
    (by simp [TensorDomain.listed, hb]), hp.plain.root v b hb⟩) hrounds hfactors
  have hlinked := (carriedBack_linked (m := leaves) hp.sound hb fun l hl => by
    obtain ⟨s, -, -, hs, -⟩ := hleaves l hl
    exact ⟨s, hs⟩).2
  unfold isExactRoot at h
  dsimp only at h
  split at h
  case h_2 => cases h
  case h_1 result hresult =>
      refine hb.of_exactLeaves hp.sound (fun t ht heven => ?_) (fun l hl _ => ?_) (by simpa using ha)
        hresult a List.mem_cons_self
      · exact (hlinked t ht).shorter hp.sound (hp.sound.recorded t (hb.has t ht)) hp.own
          (fun b hb' => hagreed b (hb.mem_axes ht (List.mem_append_left _ hb'))) (hfactors t ht)
          (hrounds t ht) (fun b hb' => hfits b (hb.mem_axes ht hb')) heven
      · have hkept : (p.carried v leaves).get? l = leaves.get? l := by
          refine carriedBack_get?_of_not_mem fun hin => ?_
          exact (List.nodup_append.1 (hb.perm.nodup_iff.1 hb.nodup)).2.2 l hl l hin rfl
        obtain ⟨s, x, n, hs, hx⟩ := hleaves l hl
        exact ⟨s, x, n, hkept.trans hs, hx⟩

end LoopPlan

namespace Fusion

open LoopPlan

variable {calls : List Call} {f : Fusion} {a : AxisId}

/-- The integer is below the extent of an axis at run time. -/
def BelowExtent (f : Fusion) (env : Scalar.Env) (x : Int) (a : AxisId) : Prop :=
  ∃ n, (f.ownExtent a).evaluateInt env = some n ∧ x < n

instance (f : Fusion) (env : Scalar.Env) (x : Int) (a : AxisId) :
    Decidable (f.BelowExtent env x a) :=
  match h : (f.ownExtent a).evaluateInt env with
  | some n => decidable_of_iff (x < n) (by simp [BelowExtent, h])
  | none => .isFalse (by simp [BelowExtent, h])

/-- The root index that leaf indices below their extents lead back to is below the extent of the
root, if the root is left out of the guard as exact, the extents and the sums behind their quotients
are 64-bit integers, root sizes are not negative, and host and kernel agree on the factors of the
splits. -/
theorem exactRoots_below (hcalls : ∀ c ∈ calls, c.isLeafwise = true)
    (h : applyAll Schedule.replay calls {} = some f) :
    ∃ groups, LoopGroups.build f = .ok groups ∧
      ∀ (v : ValueId) (env : Scalar.Env) (leaves : AxisIndices) (x : AxisId → Int),
        (∀ t ∈ f.history v, ∀ k ∈ (f.transform t).factor?, f.Agreed env k) →
        (∀ t ∈ f.history v, f.Rounds env (f.transform t)) →
        (∀ a ∈ f.axesOf v, ∀ n ∈ (f.ownExtent a).evaluateInt env, Fits64 n) →
        (∀ a ∈ (f.view v).domain.root, ∀ n ∈ (f.ownExtent a).evaluateInt env, 0 ≤ n) →
        (∀ l ∈ f.leaf v, Valued env leaves x l ∧ 0 ≤ x l ∧ f.BelowExtent env (x l) l) →
        ∀ a ∈ (f.view v).domain.root, isExactRoot ⟨f, groups⟩ v a = true →
          ∃ s r, (backward ⟨f, groups⟩ v leaves).get? a = some s ∧
            s.evaluate env = some (.int r) ∧ f.BelowExtent env r a := by
  obtain ⟨groups, hgroups, hp⟩ := exists_standalone hcalls h
  refine ⟨groups, hgroups, fun v env leaves x hfactors hrounds hfits hnonneg hleaves a ha hexact => ?_⟩
  have hb := hp.cuts.history hp.sound v
  have hroot : ∀ b ∈ (f.view v).domain.root, f.HasAxis b ∧ f.PlainAxis b := fun b hb =>
    ⟨hp.sound.domains v b (by simp [TensorDomain.listed, hb]), hp.plain.root v b hb⟩
  have hagreed := hb.agreed hp.sound hroot hrounds hfactors
  have hint : ∀ {s : Scalar} {n : Int}, s.evaluate env = some (.int n) →
      s.evaluateInt env = some n := fun hs => by
    rw [Scalar.evaluateInt, hs]
    rfl
  have hget := backward_get? ⟨f, groups⟩ v leaves a
  by_cases hbroad : (f.axis a).isBroadcast = true
  · rw [if_pos ⟨ha, hbroad⟩] at hget
    refine ⟨_, 0, hget, rfl, 1, ?_, Int.one_pos⟩
    rw [(hroot a ha).2.ownExtent_of_broadcast hbroad]
    rfl
  · rw [if_neg fun hc => hbroad hc.2] at hget
    have hsmaller : ∀ l ∈ f.leaf v, Shorter ⟨f, groups⟩ env leaves l := by
      intro l hl
      obtain ⟨⟨s, hs, hx⟩, hx0, n, hn, hlt⟩ := hleaves l hl
      obtain ⟨c, hc, rfl⟩ := Option.map_eq_some_iff.1 hn
      obtain ⟨n, rfl, -⟩ := hagreed l (hb.leaf_mem_axes hl) c hc
      have hlt : x l < n := hlt
      exact ⟨s, x l, n, hs, hx, hc, by omega⟩
    obtain ⟨s, r, n, hs, hr, hn, hlt⟩ := hp.shorter_of_isExactRoot hfactors hrounds
      (fun b hb n hn => hfits b hb n (hint hn)) hsmaller ha hexact
    have hpos := hnonneg a ha n (hint hn)
    exact ⟨s, r, hget.trans hs, hr, n, hint hn, by omega⟩

/-- A matrix of five rows copied in blocks of four rows, the rows of a block merged with the
columns. -/
def paddedRows : List Call :=
  [.tensor [5, -1] [true, true] .float, .input ⟨0⟩, .unary .neg (.value ⟨0⟩), .output ⟨7⟩,
    .split ⟨7⟩ 0 (.const 4) true, .merge ⟨7⟩ 1 2]

/-- The matrix has three columns. -/
def threeColumns : Scalar.Env :=
  { size := fun tensor dim => if tensor = ⟨0⟩ ∧ dim = 1 then some 3 else none }

/-- The end of the second block, in the last column of a row behind the matrix. -/
def rowBehind : AxisIndices :=
  ⟨[(⟨4⟩, .int 1), (⟨6⟩, .int 11)]⟩

theorem paddedRows_below :
    ∃ f groups, applyAll Schedule.replay paddedRows {} = some f ∧ LoopGroups.build f = .ok groups ∧
      ∃ s r, (backward ⟨f, groups⟩ ⟨7⟩ rowBehind).get? ⟨3⟩ = some s ∧
        s.evaluate threeColumns = some (.int r) ∧ f.BelowExtent threeColumns r ⟨3⟩ := by
  have hrun : ((applyAll Schedule.replay paddedRows {}).any fun f =>
      decide ((∀ t ∈ f.history ⟨7⟩, ∀ k ∈ (f.transform t).factor?, f.Agreed threeColumns k) ∧
        (∀ t ∈ f.history ⟨7⟩, f.Rounds threeColumns (f.transform t)) ∧
        (∀ a ∈ f.axesOf ⟨7⟩, ∀ n ∈ (f.ownExtent a).evaluateInt threeColumns, Fits64 n) ∧
        (∀ a ∈ (f.view ⟨7⟩).domain.root, ∀ n ∈ (f.ownExtent a).evaluateInt threeColumns, 0 ≤ n) ∧
        (∀ l ∈ f.leaf ⟨7⟩, Valued threeColumns rowBehind (pointOf threeColumns rowBehind) l ∧
          0 ≤ pointOf threeColumns rowBehind l ∧
            f.BelowExtent threeColumns (pointOf threeColumns rowBehind l) l) ∧
        (⟨3⟩ : AxisId) ∈ (f.view ⟨7⟩).domain.root) &&
      (LoopGroups.build f).toOption.any fun groups => isExactRoot ⟨f, groups⟩ ⟨7⟩ ⟨3⟩) = true := by
    decide +kernel
  obtain ⟨f, hf, hchecks⟩ := (Option.any_eq_true _ _).1 hrun
  simp only [Bool.and_eq_true, decide_eq_true_eq] at hchecks
  obtain ⟨⟨hfactors, hrounds, hfits, hnonneg, hleaves, hroot⟩, hexact⟩ := hchecks
  obtain ⟨groups, hgroups, hbelow⟩ := exactRoots_below (by decide) hf
  rw [hgroups] at hexact
  exact ⟨f, groups, hf, hgroups,
    hbelow ⟨7⟩ threeColumns rowBehind _ hfactors hrounds hfits hnonneg hleaves ⟨3⟩ hroot hexact⟩

/-- Four elements split by three if `2 ^ 53 < 2 ^ 53 + 1`, and by two otherwise.  The host compares
doubles, which cannot tell the two numbers apart. -/
def comparedFactor : List Call :=
  [.tensor [4] [true] .float, .input ⟨0⟩, .unary .neg (.value ⟨0⟩), .output ⟨4⟩,
    .constant (.bool true), .copy (.value ⟨5⟩),
    .select (.value ⟨6⟩) (.literal (.int 9007199254740992)) (.literal (.int 0)),
    .select (.value ⟨6⟩) (.literal (.int 9007199254740993)) (.literal (.int 0)),
    .binary .lt (.value ⟨9⟩) (.value ⟨12⟩),
    .select (.value ⟨13⟩) (.literal (.int 3)) (.literal (.int 2)),
    .split ⟨4⟩ 0 (.value ⟨16⟩) true]

/-- The last element of the second block of three. -/
def sixthElement : AxisIndices :=
  ⟨[(⟨2⟩, .int 1), (⟨3⟩, .int 2)]⟩

theorem comparedFactor_not_below :
    ∃ f groups, (∀ c ∈ comparedFactor, c.isLeafwise = true) ∧
      applyAll Schedule.replay comparedFactor {} = some f ∧ LoopGroups.build f = .ok groups ∧
      (∀ l ∈ f.leaf ⟨4⟩, Valued {} sixthElement (pointOf {} sixthElement) l ∧
        0 ≤ pointOf {} sixthElement l ∧ f.BelowExtent {} (pointOf {} sixthElement l) l) ∧
      ∃ a ∈ (f.view ⟨4⟩).domain.root, isExactRoot ⟨f, groups⟩ ⟨4⟩ a = true ∧
        Valued {} (backward ⟨f, groups⟩ ⟨4⟩ sixthElement) (fun _ => 5) a ∧
        (f.ownExtent a).evaluate {} = some (.int 4) ∧ ¬ f.BelowExtent {} 5 a := by
  have hrun : ((applyAll Schedule.replay comparedFactor {}).any fun f =>
      (LoopGroups.build f).toOption.any fun groups =>
        decide ((∀ l ∈ f.leaf ⟨4⟩, Valued {} sixthElement (pointOf {} sixthElement) l ∧
          0 ≤ pointOf {} sixthElement l ∧ f.BelowExtent {} (pointOf {} sixthElement l) l) ∧
        ∃ a ∈ (f.view ⟨4⟩).domain.root, isExactRoot ⟨f, groups⟩ ⟨4⟩ a = true ∧
          Valued {} (backward ⟨f, groups⟩ ⟨4⟩ sixthElement) (fun _ => 5) a ∧
          (f.ownExtent a).evaluate {} = some (.int 4) ∧ ¬ f.BelowExtent {} 5 a)) = true := by
    decide +kernel
  obtain ⟨f, hf, hgroups⟩ := (Option.any_eq_true _ _).1 hrun
  obtain ⟨groups, hgroups, hchecks⟩ := (Option.any_eq_true _ _).1 hgroups
  obtain ⟨hleaves, hroot⟩ := of_decide_eq_true hchecks
  exact ⟨f, groups, by decide, hf, Results.ok_of_toOption hgroups, hleaves, hroot⟩

end Fusion
end FusionCompiler
