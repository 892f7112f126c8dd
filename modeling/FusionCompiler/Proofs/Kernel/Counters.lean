import FusionCompiler.Proofs.Kernel.Substitution

/-!
# Indices that count

The loops of a kernel give their axes loop indices, indices of the launch, or zero
where nothing is iterated.  What index arithmetic makes of these is zero or counts
with them, while an extent never does.  So folding takes no index for the extent
that it is compared with, whatever floating-point literals the extent is computed
from.

Main results:

- Theorems `Scalar.Counted.add`, `Scalar.Counted.mul`, `Scalar.Counted.div` and
  `Scalar.Counted.rem`: index arithmetic keeps an index counting or zero.
- Theorem `Scalar.Counted.evaluate_lt`: the comparison of such an index with an
  extent holds if the values compare.
- Theorem `Fusion.evaluate_ownExtent_congr`: an extent has one value in all
  iterations.
-/

namespace FusionCompiler
namespace Scalar

variable {env env' : Env} {op : BinaryOp} {a b c s : Scalar} {m n : Int}

/-- What loops give their axes as indices. -/
inductive IsCounter : Scalar → Prop where
  | zero : IsCounter .zero
  | loop (l : LoopId) : IsCounter (.loop l)
  | launch (t : ParallelType) : IsCounter (.launchIndex t)

/-- Whether the index of a loop or of the launch occurs in the scalar. -/
def counts : Scalar → Bool
  | .loop _ | .launchIndex _ => true
  | .unary _ x => x.counts
  | .binary _ a b => a.counts || b.counts
  | .select c a b => c.counts || a.counts || b.counts
  | _ => false

/-- The scalar is zero, or counts with the loops. -/
def Counted (s : Scalar) : Prop :=
  s = .zero ∨ s.counts = true

/-- A counter is counted. -/
theorem IsCounter.counted (h : IsCounter s) : Counted s := by
  cases h with
  | zero => exact .inl rfl
  | loop | launch => exact .inr rfl

/-! ## Folding -/

/-- Literals mention no counter. -/
theorem counts_of_isLiteral (h : s.isLiteral = true) : s.counts = false := by
  cases s <;> first | rfl | cases h

/-- What mentions a counter is no literal. -/
theorem isInt_of_counts (h : s.counts = true) (k : Int) : s.isInt k = false := by
  cases s <;> first | rfl | cases h

/-- What mentions a counter is not folded. -/
theorem foldLiterals_of_counts (h : a.counts = true ∨ b.counts = true) :
    foldLiterals op a b = none := by
  unfold foldLiterals
  split
  · simp [counts] at h
  · rfl

/-- Folding does not make a scalar count. -/
theorem counts_mkBinary (ha : a.counts = false) (hb : b.counts = false) :
    (mkBinary op a b).counts = false := by
  rcases mkBinary_cases op a b with ⟨m, n, c, -, -, -, heq⟩ | ⟨s, hs, heq⟩ | ⟨-, heq⟩
  · rw [heq]
    cases c <;> rfl
  · rw [heq]
    rcases eq_of_simplify hs with rfl | rfl | hliteral
    · exact ha
    · exact hb
    · exact counts_of_isLiteral hliteral
  · simp [heq, counts, ha, hb]

/-- A folded unary operation mentions no new counter. -/
theorem counts_mkUnary {op : UnaryOp} (ha : a.counts = false) : (mkUnary op a).counts = false := by
  unfold mkUnary
  split
  · exact ha
  · rfl
  · exact ha

/-- A folded choice mentions no new counter. -/
theorem counts_mkSelect (hc : c.counts = false) (ha : a.counts = false) (hb : b.counts = false) :
    (mkSelect c a b).counts = false := by
  unfold mkSelect
  split
  · exact ha
  · exact hb
  · simp [counts, hc, ha, hb]

/-- The folded operation over an operand that counts, where nothing simplifies. -/
theorem counts_mkBinary_of_simplify (h : a.counts = true ∨ b.counts = true)
    (hsimplify : ∀ s, simplify? op a b = some s → Counted s) : Counted (mkBinary op a b) := by
  unfold mkBinary
  rw [foldLiterals_of_counts h]
  dsimp only
  cases hs : simplify? op a b with
  | some s => exact hsimplify s hs
  | none => exact .inr (by simpa [counts] using h)

/-! ## Index arithmetic -/

namespace Counted

/-- A multiple of what is counted is counted. -/
theorem mul (h : Counted a) (b : Scalar) : Counted (a.mul b) := by
  rcases h with rfl | ha
  · left
    rcases mkBinary_cases .mul .zero b with ⟨m, n, c, hm, -, hc, heq⟩ | ⟨s, hs, heq⟩ | ⟨hs, -⟩
    · cases hm
      obtain ⟨k, hk, rfl⟩ := Option.map_eq_some_iff.1 hc
      rw [Int.zero_mul] at hk
      rw [Scalar.mul, heq, eq_of_checked64 hk]
      rfl
    · rw [Scalar.mul, heq]
      simpa [simplify?, zero, isInt] using hs.symm
    · simp [simplify?, zero, isInt] at hs
  · refine counts_mkBinary_of_simplify (.inl ha) fun s hs => ?_
    simp only [simplify?, isInt_of_counts ha, Bool.false_or, Bool.false_eq_true, if_false] at hs
    split at hs
    · cases hs
      exact .inl rfl
    · split at hs
      · cases hs
        exact .inr ha
      · cases hs

/-- A sum of what is counted is counted. -/
theorem add (ha : Counted a) (hb : Counted b) : Counted (a.add b) := by
  rcases ha with rfl | ha
  · rcases mkBinary_cases .add .zero b with ⟨m, n, c, hm, hn, hc, heq⟩ | ⟨s, hs, heq⟩ | ⟨hs, -⟩
    · cases hm
      subst hn
      obtain ⟨k, hk, rfl⟩ := Option.map_eq_some_iff.1 hc
      rw [Int.zero_add] at hk
      rw [Scalar.add, heq, eq_of_checked64 hk]
      exact hb
    · rw [Scalar.add, heq]
      have hsb : b = s := by simpa [simplify?, zero, isInt] using hs
      exact hsb ▸ hb
    · simp [simplify?, zero, isInt] at hs
  · refine counts_mkBinary_of_simplify (.inl ha) fun s hs => ?_
    simp only [simplify?, isInt_of_counts ha, Bool.false_eq_true, if_false] at hs
    split at hs
    · cases hs
      exact .inr ha
    · cases hs

/-- A quotient of what is counted is counted. -/
theorem div (h : Counted a) (b : Scalar) : Counted (a.div b) := by
  rcases h with rfl | ha
  · left
    rcases mkBinary_cases .div .zero b with ⟨m, n, c, hm, -, hc, heq⟩ | ⟨s, hs, heq⟩ | ⟨hs, -⟩
    · cases hm
      simp only [foldInt, Option.ite_none_left_eq_some, Option.map_eq_some_iff] at hc
      obtain ⟨-, k, hk, rfl⟩ := hc
      rw [Int.zero_tdiv] at hk
      rw [Scalar.div, heq, eq_of_checked64 hk]
      rfl
    · rw [Scalar.div, heq]
      simp only [simplify?] at hs
      split at hs
      · exact (Option.some.inj hs).symm
      · simpa [zero, isInt] using hs.symm
    · simp only [simplify?] at hs
      split at hs
      · cases hs
      · simp [zero, isInt] at hs
  · refine counts_mkBinary_of_simplify (.inl ha) fun s hs => ?_
    simp only [simplify?, isInt_of_counts ha, Bool.false_eq_true, if_false] at hs
    split at hs
    · cases hs
      exact .inr ha
    · cases hs

/-- A remainder of what is counted is counted. -/
theorem rem (h : Counted a) (b : Scalar) : Counted (a.rem b) := by
  rcases h with rfl | ha
  · left
    rcases mkBinary_cases .mod .zero b with ⟨m, n, c, hm, -, hc, heq⟩ | ⟨s, hs, heq⟩ | ⟨hs, -⟩
    · cases hm
      simp only [foldInt, Option.ite_none_left_eq_some, Int.zero_tmod, Option.some.injEq] at hc
      rw [Scalar.rem, heq, ← hc.2]
      rfl
    · rw [Scalar.rem, heq]
      simpa [simplify?, zero, isInt] using hs.symm
    · simp [simplify?, zero, isInt] at hs
  · refine counts_mkBinary_of_simplify (.inl ha) fun s hs => ?_
    simp only [simplify?, isInt_of_counts ha, Bool.or_false] at hs
    split at hs
    · cases hs
      exact .inl rfl
    · cases hs

end Counted

/-! ## Comparisons -/

/-- Scalars that the equality test takes for one another count alike. -/
theorem counts_eq_of_beq (h : (a == b) = true) : a.counts = b.counts := by
  induction b generalizing a with
  | unary op x ih =>
      cases a with
      | unary op' x' =>
          have h' : (op' == op && x' == x) = true := h
          simp only [counts]
          exact ih (Bool.and_eq_true_iff.1 h').2
      | _ => cases h
  | binary op x y ihx ihy =>
      cases a with
      | binary op' x' y' =>
          have h' : (op' == op && (x' == x && y' == y)) = true := h
          simp only [Bool.and_eq_true] at h'
          simp [counts, ihx h'.2.1, ihy h'.2.2]
      | _ => cases h
  | select c x y ihc ihx ihy =>
      cases a with
      | select c' x' y' =>
          have h' : (c' == c && (x' == x && y' == y)) = true := h
          simp only [Bool.and_eq_true] at h'
          simp [counts, ihc h'.1, ihx h'.2.1, ihy h'.2.2]
      | _ => cases h
  | _ => cases a <;> first | rfl | cases h

/-- The comparison of an index with an extent holds if the values compare. -/
theorem Counted.evaluate_lt (h : Counted a) (hb : b.counts = false)
    (hm : a.evaluate env = some (.int m)) (hn : b.evaluate env = some (.int n)) (hlt : m < n) :
    (a.lt b).evaluate env = some (.bool true) := by
  unfold Scalar.lt
  rcases mkBinary_cases .lt a b with ⟨m', n', c, rfl, rfl, hc, heq⟩ | ⟨s, hs, heq⟩ | ⟨-, heq⟩
  · cases hm
    cases hn
    cases hc
    rw [heq, evaluate_ofConstant]
    simp [hlt]
  · -- an index that counts is no extent, and zero is no positive one
    simp only [simplify?] at hs
    split at hs
    case isFalse => cases hs
    case isTrue hsame =>
        rcases h with rfl | ha
        · have hzero : b = .int 0 := by
            cases b with
            | int k =>
                have hk : ((0 : Int) == k) = true := hsame
                rw [← eq_of_beq hk]
            | _ => cases hsame
          subst hzero
          cases hm
          cases hn
          cases hlt
        · rw [counts_eq_of_beq hsame, hb] at ha
          cases ha
  · rw [heq, evaluate, hm, hn]
    simp [evalBinary, foldInt, hlt]

/-! ## What stays the same from iteration to iteration -/

/-- Environments that agree on everything but the indices of loops and of the launch. -/
structure Env.Alike (env env' : Env) : Prop where
  input : env'.input = env.input
  size : env'.size = env.size
  stride : env'.stride = env.stride
  launchExtent : env'.launchExtent = env.launchExtent

/-- A scalar that does not count has one value in all iterations. -/
theorem evaluate_congr (h : env.Alike env') (hs : s.counts = false) :
    s.evaluate env' = s.evaluate env := by
  induction s with
  | loop | launchIndex => cases hs
  | unary op x ih => rw [evaluate, evaluate, ih hs]
  | binary op x y ihx ihy =>
      simp only [counts, Bool.or_eq_false_iff] at hs
      rw [evaluate, evaluate, ihx hs.1, ihy hs.2]
  | select c x y ihc ihx ihy =>
      simp only [counts, Bool.or_eq_false_iff] at hs
      rw [evaluate, evaluate, ihc hs.1.1, ihx hs.1.2, ihy hs.2]
  | _ => simp only [evaluate, h.input, h.size, h.stride, h.launchExtent]

end Scalar

namespace Fusion

open Scalar

/-- Scalars of a fusion mention no counter. -/
theorem counts_kernelScalarWith (f : Fusion) (fuel : Nat) (v : ValueId) :
    (f.kernelScalarWith fuel v).counts = false := by
  induction fuel generalizing v with
  | zero => rfl
  | succ fuel ih =>
      unfold kernelScalarWith
      dsimp only
      split
      case h_1 c hc => cases c <;> rfl
      · rfl
      · rfl
      · split
        · rfl
        · split
          · exact counts_mkUnary (ih _)
          · exact counts_mkBinary (ih _) (ih _)
          · exact counts_mkSelect (ih _) (ih _) (ih _)
          · rfl

/-- An extent does not count with the loops. -/
theorem counts_ownExtent (f : Fusion) (a : AxisId) : (f.ownExtent a).counts = false :=
  f.counts_kernelScalarWith _ _

/-- An extent has one value in all iterations. -/
theorem evaluate_ownExtent_congr (f : Fusion) {env env' : Env} (h : env.Alike env') (a : AxisId) :
    (f.ownExtent a).evaluate env' = (f.ownExtent a).evaluate env :=
  evaluate_congr h (f.counts_ownExtent a)

end Fusion
end FusionCompiler
