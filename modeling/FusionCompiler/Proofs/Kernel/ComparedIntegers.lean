import FusionCompiler.Proofs.Kernel.Folding
import FusionCompiler.Proofs.Numeric.IntegersAsDoubles

/-!
# Comparing integers on the host and in kernels

Two evaluators compare integers.  The one for extents converts both operands to
doubles and compares these, the one for kernel scalars compares the integers.  The
conversion keeps the order and keeps zero apart, so the two can differ only on
integers that become one double.

Main results:

- Theorem `evalInt_eq_foldInt_nearest`: comparing doubles is comparing the integers
  nearest to the operands.
- Theorem `evalInt_agrees_iff`: which comparisons the two evaluators agree on.
-/

namespace FusionCompiler

theorem Fits64.natAbs_lt {a : Int} (h : Fits64 a) : a.natAbs < 2 ^ 64 := by
  have hlow : -(2 ^ 63 : Int) ≤ a := h.1
  have hhigh : a ≤ 2 ^ 63 - 1 := h.2
  omega

namespace BinaryOp

open Numeric Scalar

variable {op : BinaryOp} {a b c d : Int}

/-- A truth value comes back from the double that encodes it. -/
theorem truth_bne_zero (p : Bool) : (truth p != 0.0) = p := by
  cases p <;> rfl

/-- Comparisons see the order of their operands, logical operators which of them are zero. -/
theorem foldInt_congr (hop : op.yieldsBool = true) (hlt : a < b ↔ c < d) (hgt : b < a ↔ d < c)
    (hleft : a = 0 ↔ c = 0) (hright : b = 0 ↔ d = 0) : foldInt op a b = foldInt op c d := by
  have heq : a = b ↔ c = d := by omega
  cases op with
  | lt => simp only [foldInt, hlt]
  | le => simp only [foldInt, ← not_lt, hgt]
  | gt => simp only [foldInt, hgt]
  | ge => simp only [foldInt, ← not_lt, hlt]
  | eq => simp only [foldInt, heq]
  | ne => simp only [foldInt, ne_eq, heq]
  | and => simp only [foldInt, ne_eq, hleft, hright]
  | or => simp only [foldInt, ne_eq, hleft, hright]
  | _ => cases hop

theorem exists_foldInt (hop : op.yieldsBool = true) (a b : Int) :
    ∃ p, foldInt op a b = some (.bool p) := by
  cases op with
  | lt | le | gt | ge | eq | ne | and | or => exact ⟨_, rfl⟩
  | _ => cases hop

/-- Comparing doubles is comparing the integers nearest to the operands. -/
theorem evalInt_eq_foldInt_nearest (hop : op.yieldsBool = true) (ha : Fits64 a) (hb : Fits64 b) :
    op.evalInt a b = foldInt op (nearestInt a) (nearestInt b) := by
  have hx := holds_ofInt ha.natAbs_lt
  have hy := holds_ofInt hb.natAbs_lt
  have htruth : ∀ {p q : Bool}, p = q → some (Constant.bool (truth p != 0.0)) = some (.bool q) := by
    intro p q hpq
    rw [truth_bne_zero, hpq]
  have hnonzero : ∀ {f : Float} {n : Int}, Holds f n → (f != 0.0) = decide (n ≠ 0) := by
    intro f n hf
    rw [hf.bne_zero, decide_eq_decide, Ne, Int.cast_eq_zero]
  have hequal : (Float.ofInt a == Float.ofInt b) = decide (nearestInt a = nearestInt b) := by
    rw [Bool.eq_iff_iff, hx.beq_iff hy, Int.cast_inj, decide_eq_true_iff]
  cases op with
  | lt => exact htruth (decide_eq_decide.2 ((hx.lt_iff hy).trans Int.cast_lt))
  | le => exact htruth (decide_eq_decide.2 ((hx.le_iff hy).trans Int.cast_le))
  | gt => exact htruth (decide_eq_decide.2 ((hy.lt_iff hx).trans Int.cast_lt))
  | ge => exact htruth (decide_eq_decide.2 ((hy.le_iff hx).trans Int.cast_le))
  | eq => exact htruth hequal
  | ne => exact htruth (by rw [bne, hequal, decide_not])
  | and => exact htruth (by rw [hnonzero hx, hnonzero hy, Bool.decide_and])
  | or => exact htruth (by rw [hnonzero hx, hnonzero hy, Bool.decide_or])
  | _ => cases hop

/-- Integers that become one double are answered as equal integers are. -/
theorem foldInt_nearest_of_eq (hop : op.yieldsBool = true) (h : nearestInt a = nearestInt b) :
    foldInt op (nearestInt a) (nearestInt b) = foldInt op a a := by
  rw [← h]
  exact foldInt_congr hop (by simp) (by simp) nearestInt_eq_zero nearestInt_eq_zero

/-- Integers that become two doubles are answered as they are themselves. -/
theorem foldInt_nearest_of_ne (hop : op.yieldsBool = true) (h : nearestInt a ≠ nearestInt b) :
    foldInt op (nearestInt a) (nearestInt b) = foldInt op a b :=
  foldInt_congr hop (nearestInt_lt_iff h) (nearestInt_lt_iff h.symm) nearestInt_eq_zero
    nearestInt_eq_zero

/-- The evaluators always give truth values.  They give the same one unless the operands become
one double and the exact answer is not the one for equal operands.  So they agree for logical
operators and on operands up to `2 ^ 53`. -/
theorem evalInt_agrees_iff (hop : op.yieldsBool = true) (ha : Fits64 a) (hb : Fits64 b) :
    ∃ p q, op.evalInt a b = some (.bool p) ∧ foldInt op a b = some (.bool q) ∧
      (p = q ↔ (nearestInt a = nearestInt b → foldInt op a b = foldInt op a a)) ∧
      (op.isLogical = true ∨ a.natAbs ≤ 2 ^ 53 ∧ b.natAbs ≤ 2 ^ 53 → p = q) := by
  obtain ⟨p, hp⟩ := exists_foldInt hop (nearestInt a) (nearestInt b)
  obtain ⟨q, hq⟩ := exists_foldInt hop a b
  have hagree : p = q ↔ (nearestInt a = nearestInt b → foldInt op a b = foldInt op a a) := by
    by_cases h : nearestInt a = nearestInt b
    · rw [← foldInt_nearest_of_eq hop h, hp, hq]
      simp only [h, forall_const, Option.some.injEq, Constant.bool.injEq, eq_comm]
    · rw [foldInt_nearest_of_ne hop h, hq] at hp
      have hpq : q = p := Constant.bool.inj (Option.some.inj hp)
      exact ⟨fun _ heq => absurd heq h, fun _ => hpq.symm⟩
  refine ⟨p, q, (evalInt_eq_foldInt_nearest hop ha hb).trans hp, hq, hagree, fun h => ?_⟩
  rw [hagree]
  intro heq
  rcases h with hlogical | ⟨hsmall, hsmall'⟩
  · have hzero : b = 0 ↔ a = 0 := by rw [← nearestInt_eq_zero, ← heq, nearestInt_eq_zero]
    cases op with
    | and | or => simp only [foldInt, ne_eq, hzero]
    | _ => cases hlogical
  · rw [nearestInt_of_le hsmall, nearestInt_of_le hsmall'] at heq
    rw [heq]

/-- Beyond `2 ^ 53` some integers still become different doubles. -/
theorem successors_agree :
    BinaryOp.lt.evalInt (2 ^ 53 + 1) (2 ^ 53 + 2) = foldInt .lt (2 ^ 53 + 1) (2 ^ 53 + 2) := by
  obtain ⟨p, q, hp, hq, hagree, -⟩ :=
    @evalInt_agrees_iff .lt (2 ^ 53 + 1) (2 ^ 53 + 2) rfl (by decide) (by decide)
  have hapart : nearestInt (2 ^ 53 + 1) ≠ nearestInt (2 ^ 53 + 2) := by decide
  rw [hp, hq, hagree.2 fun heq => absurd heq hapart]

/-- Host and kernel disagree on whether `2 ^ 53` is below its successor. -/
theorem adjacent_compared_differently :
    BinaryOp.lt.yieldsBool = true ∧ Fits64 (2 ^ 53) ∧ Fits64 (2 ^ 53 + 1) ∧
      BinaryOp.lt.evalInt (2 ^ 53) (2 ^ 53 + 1) = some (.bool false) ∧
      foldInt .lt (2 ^ 53) (2 ^ 53 + 1) = some (.bool true) := by
  refine ⟨rfl, by decide, by decide, ?_, rfl⟩
  rw [evalInt_eq_foldInt_nearest rfl (by decide) (by decide)]
  rfl

end BinaryOp
end FusionCompiler
