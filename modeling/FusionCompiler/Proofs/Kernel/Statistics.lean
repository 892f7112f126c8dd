import Mathlib.Algebra.Order.Field.Rat
import Mathlib.Tactic.FieldSimp
import Mathlib.Tactic.LinearCombination
import Mathlib.Tactic.Ring
import FusionCompiler.Host.Machine

/-!
# Statistics of samples

Over the rational numbers, joining the statistics of two lists of samples gives
the statistics of the lists together, also when one of them has no samples.

Main results:

- Theorem `Moments.combine_ofSamples`: what joining two statistics gives.
- Theorem `Moments.foldl_combine_ofSamples`: what joining any number of them gives.
-/

namespace FusionCompiler
namespace Moments

variable {xs ys : List ℚ}

/-- The mean of samples, which is zero if there are none. -/
def mean (xs : List ℚ) : ℚ :=
  if xs = [] then 0 else xs.sum / xs.length

/-- The sum of squared deviations from a value. -/
def deviations (xs : List ℚ) (a : ℚ) : ℚ :=
  (xs.map fun x => (x - a) ^ 2).sum

/-- The statistics of samples. -/
def ofSamples (xs : List ℚ) : Moments ℚ :=
  ⟨mean xs, deviations xs (mean xs), xs.length⟩

theorem ofSamples_singleton (x : ℚ) : ofSamples [x] = sample x := by
  simp [ofSamples, mean, deviations, sample]

theorem mean_mul_length (xs : List ℚ) : mean xs * xs.length = xs.sum := by
  unfold mean
  split
  case isTrue h => simp [h]
  case isFalse h =>
      have hlength : (xs.length : ℚ) ≠ 0 := by simpa using h
      field_simp

/-- Deviations in terms of the squares and the sum of the samples. -/
theorem deviations_eq (xs : List ℚ) (a : ℚ) :
    deviations xs a = (xs.map (· ^ 2)).sum - 2 * a * xs.sum + a ^ 2 * xs.length := by
  unfold deviations
  induction xs with
  | nil => simp
  | cons x xs ih =>
      simp only [List.map_cons, List.sum_cons, List.length_cons, ih, Nat.cast_add, Nat.cast_one]
      ring

/-- Deviations from the mean are least: those from another value are greater by its distance. -/
theorem deviations_mean (xs : List ℚ) (a : ℚ) :
    deviations xs a = deviations xs (mean xs) + (mean xs - a) ^ 2 * xs.length := by
  rw [deviations_eq, deviations_eq, ← mean_mul_length xs]
  ring

theorem deviations_append (xs ys : List ℚ) (a : ℚ) :
    deviations (xs ++ ys) a = deviations xs a + deviations ys a := by
  simp [deviations]

/-- Joining the statistics of two lists gives the statistics of the lists together. -/
theorem combine_ofSamples (xs ys : List ℚ) :
    (ofSamples xs).combine (ofSamples ys) = ofSamples (xs ++ ys) := by
  unfold combine
  by_cases hys : ys = []
  · subst hys
    simp [ofSamples]
  have hy : (ys.length : ℚ) ≠ 0 := by simpa using hys
  have hall : (xs.length : ℚ) + ys.length ≠ 0 := by
    have hpos : 0 < ys.length := List.length_pos_of_ne_nil hys
    exact_mod_cast (show xs.length + ys.length ≠ 0 by omega)
  have hmean : mean (xs ++ ys) =
      mean xs + (mean ys - mean xs) * (ys.length / (xs.length + ys.length)) := by
    have hsum := mean_mul_length (xs ++ ys)
    rw [List.sum_append, ← mean_mul_length xs, ← mean_mul_length ys, List.length_append,
      Nat.cast_add] at hsum
    field_simp
    linear_combination hsum
  have hdeviations : deviations (xs ++ ys) (mean (xs ++ ys)) = deviations xs (mean xs) +
      (deviations ys (mean ys) + (mean ys - mean xs) * (mean ys - mean xs) * xs.length *
        (ys.length / (xs.length + ys.length))) := by
    rw [deviations_append, deviations_mean xs, deviations_mean ys, hmean]
    field_simp
    ring
  have hcount : ((ofSamples ys).count == 0) = false := by simpa [ofSamples] using hys
  unfold ofSamples at hcount ⊢
  rw [hcount, hdeviations, hmean, List.length_append, Nat.cast_add]
  rfl

/-- Statistics joined one after the other are those of all samples. -/
theorem foldl_combine_ofSamples {β : Type} (g : β → List ℚ) (bs : List β) (xs : List ℚ) :
    (bs.map fun b => ofSamples (g b)).foldl combine (ofSamples xs) =
      ofSamples (xs ++ bs.flatMap g) := by
  induction bs generalizing xs with
  | nil => simp
  | cons b bs ih =>
      rw [List.map_cons, List.foldl_cons, combine_ofSamples, ih, List.flatMap_cons,
        List.append_assoc]

end Moments

namespace Arithmetic

/-- The arithmetic works on statistics exactly, over the rational numbers. -/
structure ExactStatistics (A : Arithmetic ℚ) : Prop where
  zero : A.zero = 0
  round : ∀ t x, A.round t x = x
  sample : A.sample = Moments.sample
  combine : A.combine = Moments.combine

/-- Exact rational numbers.  Of the operators, only those of statistics are carried out. -/
def rationals : Arithmetic ℚ where
  zero := 0
  ofConstant c := c.toInt
  round _ x := x
  isTrue := (· != 0)
  unary _ x := x
  binary _ x _ _ := x
  sample := Moments.sample
  combine := Moments.combine

theorem exactStatistics_rationals : ExactStatistics rationals :=
  ⟨rfl, fun _ _ => rfl, rfl, rfl⟩

end Arithmetic
end FusionCompiler
