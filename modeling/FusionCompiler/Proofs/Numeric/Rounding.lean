import FusionCompiler.Numeric.Magnitude
import Mathlib.Tactic.Ring
import Mathlib.Algebra.Order.Ring.Nat
import Mathlib.Algebra.Order.Ring.Int

/-!
# Integers rounded to doubles

A double has room for 53 binary digits.  An integer with more of them is rounded to
the nearest multiple of a power of two, and a tie goes to the even multiple.

Main results:

- Theorem `nearestInt_of_le`: integers up to `2 ^ 53` keep their value.
- Theorem `nearestInt_mono`: rounding respects the order, so it can make two
  integers equal but it cannot exchange them.
-/

namespace FusionCompiler
namespace Numeric

variable {a b c d k m n : Nat}

/-! ## Quotients -/

/-- Rounding a quotient: down, up, or to even. -/
theorem divNearestEven_eq (n d : Nat) :
    divNearestEven n d = if 2 * (n % d) < d then n / d
      else if d < 2 * (n % d) then n / d + 1 else n / d + n / d % 2 := by
  simp only [divNearestEven]
  split_ifs <;> omega

/-- A quotient is not rounded below its floor. -/
theorem div_le_divNearestEven (n d : Nat) : n / d ≤ divNearestEven n d := by
  rw [divNearestEven_eq]
  split_ifs <;> omega

/-- A quotient is not rounded above the next number. -/
theorem divNearestEven_le (n d : Nat) : divNearestEven n d ≤ n / d + 1 := by
  rw [divNearestEven_eq]
  split_ifs <;> omega

/-- An exact quotient is not rounded. -/
theorem divNearestEven_of_dvd (hd : 0 < d) (h : d ∣ n) : divNearestEven n d = n / d := by
  rw [divNearestEven_eq, Nat.mod_eq_zero_of_dvd h, if_pos hd]

/-- Whole numbers are not rounded. -/
theorem divNearestEven_one (n : Nat) : divNearestEven n 1 = n := by
  rw [divNearestEven_of_dvd Nat.one_pos (Nat.one_dvd n), Nat.div_one]

/-- Rounding depends on the value of a fraction only. -/
theorem divNearestEven_scale (n d : Nat) (hc : 0 < c) :
    divNearestEven (n * c) (d * c) = divNearestEven n d := by
  have hdiv : n * c / (d * c) = n / d := Nat.mul_div_mul_right n d hc
  have hmod : 2 * (n * c % (d * c)) = 2 * (n % d) * c := by
    rw [Nat.mul_mod_mul_right, mul_assoc]
  rw [divNearestEven_eq, divNearestEven_eq, hdiv, hmod]
  simp only [Nat.mul_lt_mul_right hc]

/-- A larger dividend has no smaller quotient. -/
theorem divNearestEven_mono (h : a ≤ b) : divNearestEven a d ≤ divNearestEven b d := by
  rcases (Nat.div_le_div_right h : a / d ≤ b / d).lt_or_eq with hlt | heq
  · exact (divNearestEven_le a d).trans (hlt.trans_le (div_le_divNearestEven b d))
  · have hmod : a % d ≤ b % d := by
      have ha := Nat.div_add_mod a d
      have hb := Nat.div_add_mod b d
      rw [heq] at ha
      omega
    rw [divNearestEven_eq, divNearestEven_eq, heq]
    split_ifs <;> omega

/-! ## Nearest doubles -/

/-- How many binary digits of a number a double has no room for. -/
def excess (n : Nat) : Nat :=
  n.log2 - 52

/-- The 53 leading binary digits of a number, rounded by the rest. -/
def leading (n : Nat) : Nat :=
  divNearestEven n (2 ^ excess n)

/-- The value of the double that is nearest to a number. -/
def nearest (n : Nat) : Nat :=
  leading n * 2 ^ excess n

/-- Numbers of at most 53 bits have no bits too many. -/
theorem excess_eq_zero (h : n < 2 ^ 53) : excess n = 0 := by
  by_cases hn : n = 0
  · rw [hn]
    rfl
  · have hlog := (Nat.log2_lt hn).2 h
    unfold excess
    omega

/-- Numbers of at most 53 bits are their own leading bits. -/
theorem leading_of_lt (h : n < 2 ^ 53) : leading n = n := by
  rw [leading, excess_eq_zero h, pow_zero, divNearestEven_one]

/-- Numbers of at most 53 bits are doubles. -/
theorem nearest_of_lt (h : n < 2 ^ 53) : nearest n = n := by
  rw [nearest, leading_of_lt h, excess_eq_zero h, pow_zero, mul_one]

/-- The first number of 54 bits is a double. -/
theorem nearest_of_le (h : n ≤ 2 ^ 53) : nearest n = n := by
  rcases h.lt_or_eq with hlt | rfl
  · exact nearest_of_lt hlt
  · decide

/-- The bits of a number are the 53 leading ones and those too many. -/
theorem log2_eq (h : 2 ^ 52 ≤ n) : n.log2 = 52 + excess n := by
  have hlog := (Nat.le_log2 (show n ≠ 0 by omega)).2 h
  unfold excess
  omega

/-- Doubling a number adds a bit. -/
theorem log2_mul_two_pow (hn : n ≠ 0) (k : Nat) : (n * 2 ^ k).log2 = n.log2 + k := by
  have hpos : 0 < 2 ^ k := Nat.two_pow_pos k
  rw [Nat.log2_eq_iff (Nat.mul_ne_zero hn hpos.ne'), Nat.add_right_comm, pow_add, pow_add]
  exact ⟨Nat.mul_le_mul_right _ (Nat.log2_self_le hn),
    Nat.mul_lt_mul_of_pos_right Nat.lt_log2_self hpos⟩

/-- Doubling a number adds a bit that is too many. -/
theorem excess_scale (h : 2 ^ 52 ≤ n) (k : Nat) : excess (n * 2 ^ k) = excess n + k := by
  have hlog := log2_eq h
  rw [excess, log2_mul_two_pow (by omega)]
  omega

/-- Doubling a number keeps the leading bits. -/
theorem leading_scale (h : 2 ^ 52 ≤ n) (k : Nat) : leading (n * 2 ^ k) = leading n := by
  rw [leading, excess_scale h, pow_add, divNearestEven_scale _ _ (Nat.two_pow_pos k), leading]

/-- Rounding commutes with doubling. -/
theorem nearest_scale (h : 2 ^ 52 ≤ n) (k : Nat) : nearest (n * 2 ^ k) = nearest n * 2 ^ k := by
  rw [nearest, leading_scale h, excess_scale h, pow_add, ← mul_assoc, nearest]

/-- The leading bits make a number of 53 bits, or of 54 after rounding up. -/
theorem leading_bounds (h : 2 ^ 52 ≤ n) : 2 ^ 52 ≤ leading n ∧ leading n ≤ 2 ^ 53 := by
  have hlog := log2_eq h
  have hpos : 0 < 2 ^ excess n := Nat.two_pow_pos _
  have hlow : 2 ^ 52 ≤ n / 2 ^ excess n := by
    rw [Nat.le_div_iff_mul_le hpos, ← pow_add, ← hlog]
    exact Nat.log2_self_le (by omega)
  have hhigh : n / 2 ^ excess n < 2 ^ 53 := by
    rw [Nat.div_lt_iff_lt_mul hpos, ← pow_add, show 53 + excess n = n.log2 + 1 by omega]
    exact Nat.lt_log2_self
  exact ⟨hlow.trans (div_le_divNearestEven _ _), (divNearestEven_le _ _).trans hhigh⟩

/-- Rounding up can carry into a 54th digit, which is then the only one that is set. -/
theorem carry (h : 2 ^ 52 ≤ n) (h' : n ≤ 2 ^ 53) :
    2 ^ 52 ≤ n / 2 ^ excess n ∧ n / 2 ^ excess n < 2 ^ 53 ∧
      n / 2 ^ excess n * 2 ^ excess n = n := by
  rcases h'.lt_or_eq with hlt | rfl
  · rw [excess_eq_zero hlt, pow_zero, Nat.div_one, mul_one]
    exact ⟨h, hlt, rfl⟩
  · decide

/-- Rounding up adds one bit at most. -/
theorem excess_leading_le (h : 2 ^ 52 ≤ n) : excess (leading n) ≤ 1 := by
  rcases (leading_bounds h).2.lt_or_eq with hlt | heq
  · rw [excess_eq_zero hlt]
    exact Nat.zero_le 1
  · rw [heq]
    decide

/-- Rounding does not go below the largest power of two. -/
theorem two_pow_log2_le_nearest (h : 2 ^ 52 ≤ n) : 2 ^ n.log2 ≤ nearest n := by
  rw [log2_eq h, pow_add]
  exact Nat.mul_le_mul_right _ (leading_bounds h).1

/-- Rounding does not go above the next power of two. -/
theorem nearest_le_two_pow (h : 2 ^ 52 ≤ n) : nearest n ≤ 2 ^ (n.log2 + 1) := by
  rw [log2_eq h, show 52 + excess n + 1 = 53 + excess n by omega, pow_add]
  exact Nat.mul_le_mul_right _ (leading_bounds h).2

/-- Rounding keeps the order. -/
theorem nearest_mono (h : a ≤ b) : nearest a ≤ nearest b := by
  by_cases hb : b < 2 ^ 53
  · rwa [nearest_of_lt hb, nearest_of_lt (h.trans_lt hb)]
  have hb₀ : 2 ^ 52 ≤ b := by omega
  by_cases ha : a < 2 ^ 53
  · have hlog : 53 ≤ b.log2 := (Nat.le_log2 (by omega)).2 (Nat.le_of_not_lt hb)
    calc nearest a = a := nearest_of_lt ha
      _ ≤ 2 ^ 53 := ha.le
      _ ≤ 2 ^ b.log2 := Nat.pow_le_pow_right (by decide) hlog
      _ ≤ nearest b := two_pow_log2_le_nearest hb₀
  · have ha₀ : 2 ^ 52 ≤ a := by omega
    have hlog : a.log2 ≤ b.log2 := by
      rw [Nat.le_log2 (by omega)]
      exact (Nat.log2_self_le (by omega)).trans h
    rcases hlog.lt_or_eq with hlt | heq
    · calc nearest a ≤ 2 ^ (a.log2 + 1) := nearest_le_two_pow ha₀
        _ ≤ 2 ^ b.log2 := Nat.pow_le_pow_right (by decide) hlt
        _ ≤ nearest b := two_pow_log2_le_nearest hb₀
    · have hexcess : excess a = excess b := by rw [excess, heq, excess]
      rw [nearest, nearest, leading, leading, hexcess]
      exact Nat.mul_le_mul_right _ (divNearestEven_mono h)

/-- Only zero is rounded to zero. -/
theorem nearest_eq_zero : nearest n = 0 ↔ n = 0 := by
  refine ⟨fun h => ?_, fun h => by rw [h]; rfl⟩
  by_contra hn
  have := nearest_mono (Nat.pos_of_ne_zero hn)
  rw [h] at this
  exact absurd this (by decide)

/-! ## Signed integers -/

/-- The value of the double that is nearest to an integer. -/
def nearestInt : Int → Int
  | .ofNat n => nearest n
  | .negSucc n => -nearest (n + 1)

/-- Integers that are no less than zero are rounded as natural numbers. -/
theorem nearestInt_natCast (n : Nat) : nearestInt n = nearest n := rfl

/-- Rounding is symmetric. -/
theorem nearestInt_neg (n : Nat) : nearestInt (-n) = -nearest n := by
  cases n with
  | zero => rfl
  | succ n => rfl

/-- Integers up to `2 ^ 53` keep their value. -/
theorem nearestInt_of_le {a : Int} (h : a.natAbs ≤ 2 ^ 53) : nearestInt a = a := by
  obtain ⟨n, rfl | rfl⟩ := a.eq_nat_or_neg
  · rw [nearestInt_natCast, nearest_of_le (by omega)]
  · rw [nearestInt_neg, nearest_of_le (by omega)]

/-- Only zero is rounded to zero, also among integers. -/
theorem nearestInt_eq_zero {a : Int} : nearestInt a = 0 ↔ a = 0 := by
  obtain ⟨n, rfl | rfl⟩ := a.eq_nat_or_neg
  · rw [nearestInt_natCast, Int.natCast_eq_zero, nearest_eq_zero, Int.natCast_eq_zero]
  · rw [nearestInt_neg, neg_eq_zero, Int.natCast_eq_zero, nearest_eq_zero, neg_eq_zero,
      Int.natCast_eq_zero]

/-- A larger integer has no smaller nearest double. -/
theorem nearestInt_mono {a b : Int} (h : a ≤ b) : nearestInt a ≤ nearestInt b := by
  obtain ⟨m, rfl | rfl⟩ := a.eq_nat_or_neg <;> obtain ⟨n, rfl | rfl⟩ := b.eq_nat_or_neg
  · rw [nearestInt_natCast, nearestInt_natCast]
    exact Int.ofNat_le.2 (nearest_mono (Int.ofNat_le.1 h))
  · rw [show m = 0 by omega, show n = 0 by omega]
    exact le_rfl
  · rw [nearestInt_neg, nearestInt_natCast]
    omega
  · rw [nearestInt_neg, nearestInt_neg]
    have := nearest_mono (show n ≤ m by omega)
    omega

/-- Rounding does not exchange integers. -/
theorem nearestInt_lt_iff {a b : Int} (h : nearestInt a ≠ nearestInt b) :
    nearestInt a < nearestInt b ↔ a < b := by
  refine ⟨fun hlt => ?_, fun hlt => (nearestInt_mono hlt.le).lt_of_ne h⟩
  by_contra hge
  exact hlt.not_ge (nearestInt_mono (not_lt.1 hge))

end Numeric
end FusionCompiler
