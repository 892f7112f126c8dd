import Mathlib
import FusionCompiler.Proofs.Numeric.Rounding

/-!
# Doubles made from integers

The logical model of `Float` holds a mantissa, an exponent and a sign, packs them into
64 bits, and rounds after every operation.  For zeros and normal numbers this module
says which rational number the bits stand for, and it follows the conversion of an
integer through the model: shifting, rounding, a possible carry, and packing.

Main results:

- Theorem `Denotes.round`: rounding a mantissa gives the nearest value of 53 digits.
- Theorem `Denotes.unpack_pack`: packing loses nothing.
- Theorem `Denotes.compare_eq`: doubles compare as their values do.
- Theorem `holds_ofInt`: an integer of 64 bits becomes the double nearest to it.
-/

namespace FusionCompiler
namespace Numeric

open Float.Model Float.Model.UnpackedFloat

variable {k m n M : Nat} {e : Int} {s : Sign} {x y : ℚ} {u v : UnpackedFloat}

/-! ## Rounding a mantissa -/

/-- Dropping binary digits keeps the first of them and whether another one is set. -/
theorem shiftRight_exact (M k : Nat) :
    (⟨M, false, false⟩ : ExtendedMantissa) >>> k =
      ⟨M / 2 ^ k, decide (2 ^ k ≤ 2 * (M % 2 ^ k)),
        decide (2 * (M % 2 ^ k) ≠ 0 ∧ 2 * (M % 2 ^ k) ≠ 2 ^ k)⟩ := by
  induction k with
  | zero => simp [HShiftRight.hShiftRight, Nat.repeat, Nat.mod_one]
  | succ k ih =>
      have hlt : M % 2 ^ k < 2 ^ k := Nat.mod_lt _ (Nat.two_pow_pos k)
      have hdiv : M / 2 ^ k / 2 = M / 2 ^ (k + 1) := by rw [Nat.div_div_eq_div_mul, pow_succ]
      have hmod : M % 2 ^ (k + 1) = M % 2 ^ k + 2 ^ k * (M / 2 ^ k % 2) := Nat.mod_pow_succ
      change ((⟨M, false, false⟩ : ExtendedMantissa) >>> k).shiftRightOne = _
      rw [ih, ExtendedMantissa.shiftRightOne, hmod, hdiv, pow_succ]
      -- The digit dropped last multiplies a power of two; with its value known, all is linear.
      rcases Nat.mod_two_eq_zero_or_one (M / 2 ^ k) with hbit | hbit
      all_goals
        congr 1
        · rw [Bool.eq_iff_iff, bne_iff_ne, decide_eq_true_eq, hbit]
          omega
        · rw [← Bool.decide_or, decide_eq_decide, hbit]
          omega

/-- Shifting a mantissa divides it by a power of two. -/
theorem mantissa_shiftRight (M k : Nat) :
    ((⟨M, false, false⟩ : ExtendedMantissa) >>> k).mantissa = M / 2 ^ k := by
  rw [shiftRight_exact]

/-- A mantissa is rounded to nearest, ties to even. -/
theorem roundedMantissa_eq (m : Nat) (roundBit stickyBit : Bool) :
    (⟨m, roundBit, stickyBit⟩ : ExtendedMantissa).roundedMantissa =
      if roundBit then if stickyBit then m + 1 else m + m % 2 else m := by
  cases roundBit <;> cases stickyBit <;> rfl

/-- Rounding what is left after digits were dropped rounds the quotient. -/
theorem roundedMantissa_shiftRight (M k : Nat) :
    ((⟨M, false, false⟩ : ExtendedMantissa) >>> k).roundedMantissa =
      divNearestEven M (2 ^ k) := by
  have hpos : 0 < 2 ^ k := Nat.two_pow_pos k
  rw [shiftRight_exact, roundedMantissa_eq, divNearestEven_eq]
  simp only [decide_eq_true_eq]
  split_ifs <;> omega

/-- A mantissa with at least 53 digits loses those beyond the 53rd. -/
theorem shiftToTargetExponent_exact (hM : 2 ^ 52 ≤ M) (he : -1074 ≤ e + excess M) :
    shiftToTargetExponent .binary64 M e .exact =
      ((⟨M, false, false⟩ : ExtendedMantissa) >>> excess M, e + excess M) := by
  have hlog := log2_eq hM
  have htarget : Format.binary64.targetExponent (totalExponent M e) = e + excess M := by
    change max ((M.log2 : Int) + 1 + e - 53) (-1074) = _
    omega
  have hshift : (e + excess M - e).toNat = excess M := by omega
  rw [shiftToTargetExponent, htarget, shiftToExponent, hshift]
  rfl

/-- Rounding gives the leading digits; a carry is shifted out. -/
theorem roundWithAccuracy_exact (s : Sign) (hM : 2 ^ 52 ≤ M) (he : -1074 ≤ e + excess M) :
    ∃ h, roundWithAccuracy .binary64 s M e .exact =
      .finite s (leading M / 2 ^ excess (leading M)) (e + excess M + excess (leading M)) h := by
  obtain ⟨hlow, hhigh⟩ := leading_bounds hM
  have hpos : leading M / 2 ^ excess (leading M) ≠ 0 := by
    have := (carry hlow hhigh).1
    omega
  refine ⟨Nat.pos_of_ne_zero hpos, ?_⟩
  have hrounded : divNearestEven M (2 ^ excess M) = leading M := rfl
  rw [roundWithAccuracy, shiftToTargetExponent_exact hM he]
  simp only [roundedMantissa_shiftRight, hrounded,
    shiftToTargetExponent_exact hlow (show -1074 ≤ e + excess M + excess (leading M) by omega),
    mantissa_shiftRight]
  exact dif_neg hpos

/-! ## Doubles and their values -/

/-- The double is a zero or a normal number, and this is its value. -/
inductive Denotes : UnpackedFloat → ℚ → Prop
  | zero (s : Sign) : Denotes (.zero s) 0
  | finite (s : Sign) {m : Nat} {e : Int} (h : 0 < m) (hlow : 2 ^ 52 ≤ m) (hhigh : m < 2 ^ 53)
      (hleast : -1074 ≤ e) (hgreatest : e ≤ 971) :
      Denotes (.finite s m e h) (s.apply m * 2 ^ e)

/-- A sign passes through products. -/
theorem apply_mul (s : Sign) (m n : Int) : s.apply (m * n) = s.apply m * n := by
  cases s
  · exact (Int.neg_mul m n).symm
  · rfl

/-- A rounded mantissa stands for the nearest number of 53 digits. -/
theorem Denotes.round (s : Sign) (hM : 2 ^ 52 ≤ M) (hleast : -1074 ≤ e + excess M)
    (hgreatest : e + excess M + excess (leading M) ≤ 971) :
    Denotes (roundWithAccuracy .binary64 s M e .exact) (s.apply (nearest M) * 2 ^ e) := by
  obtain ⟨h, hround⟩ := roundWithAccuracy_exact s hM hleast
  obtain ⟨hlow, hhigh, hcarry⟩ := carry (leading_bounds hM).1 (leading_bounds hM).2
  have hvalue : (s.apply (nearest M) * 2 ^ e : ℚ) =
      s.apply (leading M / 2 ^ excess (leading M) : Nat) *
        2 ^ (e + excess M + excess (leading M)) := by
    have hsplit : nearest M =
        leading M / 2 ^ excess (leading M) * (2 ^ excess (leading M) * 2 ^ excess M) := by
      rw [← mul_assoc, hcarry, nearest]
    rw [hsplit, Nat.cast_mul, apply_mul, zpow_add₀ two_ne_zero, zpow_add₀ two_ne_zero,
      zpow_natCast, zpow_natCast]
    push_cast
    ring
  rw [hround, hvalue]
  exact .finite s h hlow hhigh (by omega) hgreatest

/-- The opposite sign. -/
theorem apply_neg (s : Sign) (n : Int) : (-s).apply n = -s.apply n := by
  cases s
  · exact (Int.neg_neg n).symm
  · rfl

/-- The negation of a double denotes the negation of its number. -/
theorem Denotes.neg (h : Denotes u x) : Denotes u.neg (-x) := by
  cases h with
  | zero s =>
      rw [neg_zero]
      exact .zero (-s)
  | @finite s m e h hlow hhigh hleast hgreatest =>
      have hvalue : -(s.apply m * 2 ^ e : ℚ) = (-s).apply m * 2 ^ e := by
        rw [apply_neg, Int.cast_neg, neg_mul]
      rw [hvalue]
      exact .finite (-s) h hlow hhigh hleast hgreatest

/-! ## Bit patterns -/

/-- The sign is packed in front. -/
theorem unpackSign_packComponents {f : Float.Model.Format} {s : Sign} {exponent mantissa} :
    unpackSign (packComponents f s exponent mantissa) = s.toBitVec := by
  ext i hi
  obtain rfl : i = 0 := by omega
  simp [unpackSign, packComponents, BitVec.getLsbD_append, BitVec.getElem_append]

/-- A sign is read back as it was written. -/
theorem ofBitVec_toBitVec (s : Sign) : Sign.ofBitVec s.toBitVec = s := by
  cases s <;> rfl

/-- A mantissa of 53 bits is its implicit bit and the other 52. -/
theorem toNat_implicit (hlow : 2 ^ 52 ≤ m) (hhigh : m < 2 ^ 53) :
    (1#1 ++ BitVec.ofNat 52 m).toNat = m := by
  rw [BitVec.toNat_append, ← Nat.shiftLeft_add_eq_or_of_lt (BitVec.isLt _), BitVec.toNat_ofNat,
    BitVec.toNat_ofNat]
  omega

/-- A normal number is packed without its leading digit, under a positive exponent. -/
theorem pack_finite (s : Sign) (h : 0 < m) (hlow : 2 ^ 52 ≤ m) (hhigh : m < 2 ^ 53)
    (hk : e + 1023 + 52 = k) (hgreatest : k < 2047) :
    pack .binary64 (.finite s m e h) =
      packComponents .binary64 s (BitVec.ofNat _ k) (BitVec.ofNat _ m) := by
  have hlog : m.log2 + 1 = Format.binary64.mantissaBits := by
    rw [log2_eq hlow, excess_eq_zero hhigh]
    rfl
  have hexponent : (e + Format.binary64.exponentBias + (52 : Nat)).toNat = k := by
    change (e + 1023 + 52).toNat = k
    omega
  rw [UnpackedFloat.pack]
  simp only [hexponent]
  rw [if_neg (by omega), if_pos hlog]

/-- Packing loses nothing. -/
theorem Denotes.unpack_pack (h : Denotes u x) : unpack .binary64 (pack .binary64 u) = u := by
  cases h with
  | zero s => cases s <;> rfl
  | @finite s m e h hlow hhigh hleast hgreatest =>
      obtain ⟨k, hk⟩ : ∃ k : Nat, e + 1023 + 52 = k := ⟨(e + 1023 + 52).toNat, by omega⟩
      -- The patterns of zeros and of infinities are those of the exponents zero and 2047.
      have hzero : BitVec.ofNat 11 k ≠ 0#11 := by
        rw [Ne, ← BitVec.toNat_inj]
        simp only [BitVec.toNat_ofNat]
        omega
      have hones : BitVec.ofNat 11 k ≠ -1#11 := by
        rw [Ne, ← BitVec.toNat_inj]
        simp only [BitVec.toNat_ofNat, BitVec.toNat_neg]
        omega
      rw [pack_finite s h hlow hhigh hk (by omega), UnpackedFloat.unpack]
      simp only [unpackMantissa_packComponents, unpackExponent_packComponents,
        unpackSign_packComponents, ofBitVec_toBitVec]
      rw [if_neg hones, if_neg hzero]
      congr 1
      · exact toNat_implicit hlow hhigh
      · change ((BitVec.ofNat 11 k).toNat : Int) - (1023 + 52) = e
        rw [BitVec.toNat_ofNat, Nat.mod_eq_of_lt (by omega)]
        omega

/-! ## Comparisons -/

/-- Of two normal numbers the one with the smaller exponent is smaller. -/
theorem value_lt {e' : Int} (hm : m < 2 ^ 53) (hn : 2 ^ 52 ≤ n) (he : e < e') :
    (m * 2 ^ e : ℚ) < n * 2 ^ e' := by
  have hm : (m : ℚ) < 2 ^ 53 := by exact_mod_cast hm
  have hn : (2 ^ 52 : ℚ) ≤ n := by exact_mod_cast hn
  calc (m * 2 ^ e : ℚ) < 2 ^ 53 * 2 ^ e := by gcongr
    _ = 2 ^ 52 * 2 ^ (e + 1) := by rw [zpow_add₀ two_ne_zero, zpow_one]; ring
    _ ≤ 2 ^ 52 * 2 ^ e' := by gcongr; exacts [one_le_two, he]
    _ ≤ n * 2 ^ e' := by gcongr

/-- Exponents decide before mantissas do. -/
theorem compare_finite {m₁ m₂ : Nat} {e₁ e₂ : Int} (hlow₁ : 2 ^ 52 ≤ m₁) (hhigh₁ : m₁ < 2 ^ 53)
    (hlow₂ : 2 ^ 52 ≤ m₂) (hhigh₂ : m₂ < 2 ^ 53) :
    (compare e₁ e₂).then (compare m₁ m₂) = compare (m₁ * 2 ^ e₁ : ℚ) (m₂ * 2 ^ e₂) := by
  rcases lt_trichotomy e₁ e₂ with hlt | rfl | hgt
  · rw [compare_lt_iff_lt.2 hlt, compare_lt_iff_lt.2 (value_lt hhigh₁ hlow₂ hlt)]
    rfl
  · rw [compare_eq_iff_eq.2 rfl]
    have hpos : (0 : ℚ) < 2 ^ e₁ := zpow_pos two_pos e₁
    have hmono : StrictMono fun m : Nat => (m * 2 ^ e₁ : ℚ) := fun _ _ h =>
      mul_lt_mul_of_pos_right (Nat.cast_lt.2 h) hpos
    rw [← cmp_eq_compare, ← cmp_eq_compare]
    exact (hmono.cmp_map_eq m₁ m₂).symm
  · rw [compare_gt_iff_gt.2 hgt, compare_gt_iff_gt.2 (value_lt hhigh₂ hlow₁ hgt)]
    rfl

/-- Negation turns comparisons around. -/
theorem compare_neg_neg (x y : ℚ) : compare (-x) (-y) = (compare x y).swap := by
  have hanti : StrictAnti fun z : ℚ => -z := fun _ _ h => neg_lt_neg h
  rw [← cmp_eq_compare, ← cmp_eq_compare, cmp_swap]
  exact hanti.cmp_map_eq x y

/-- A positive double. -/
theorem apply_positive (m : Nat) (e : Int) : (Sign.positive.apply m * 2 ^ e : ℚ) = m * 2 ^ e := by
  rw [Sign.apply, Int.cast_natCast]

/-- A negative double. -/
theorem apply_negative (m : Nat) (e : Int) :
    (Sign.negative.apply m * 2 ^ e : ℚ) = -(m * 2 ^ e) := by
  rw [Sign.apply, Int.cast_neg, Int.cast_natCast, neg_mul]

/-- A mantissa that is not zero makes a positive number. -/
theorem value_pos (h : 0 < m) (e : Int) : (0 : ℚ) < m * 2 ^ e :=
  mul_pos (Nat.cast_pos.2 h) (zpow_pos two_pos e)

/-- Doubles compare as their values do. -/
theorem Denotes.compare_eq (hu : Denotes u x) (hv : Denotes v y) :
    u.compare v = some (compare x y) := by
  cases hu with
  | zero s =>
      cases hv with
      | zero t => rw [compare_eq_iff_eq.2 rfl]; cases s <;> cases t <;> rfl
      | @finite t n e hn =>
          have hpos := value_pos hn e
          cases t with
          | negative =>
              rw [apply_negative, compare_gt_iff_gt.2 (neg_lt_zero.2 hpos)]
              rfl
          | positive =>
              rw [apply_positive, compare_lt_iff_lt.2 hpos]
              rfl
  | @finite s m d hm hmlow hmhigh =>
      have hmpos := value_pos hm d
      cases hv with
      | zero t =>
          cases s with
          | negative =>
              rw [apply_negative, compare_lt_iff_lt.2 (neg_lt_zero.2 hmpos)]
              rfl
          | positive =>
              rw [apply_positive, compare_gt_iff_gt.2 hmpos]
              rfl
      | @finite t n e hn hnlow hnhigh =>
          have hnpos := value_pos hn e
          cases s with
          | negative =>
              cases t with
              | negative =>
                  rw [apply_negative, apply_negative, compare_neg_neg,
                    ← compare_finite hmlow hmhigh hnlow hnhigh]
                  rfl
              | positive =>
                  rw [apply_negative, apply_positive,
                    compare_lt_iff_lt.2 ((neg_lt_zero.2 hmpos).trans hnpos)]
                  rfl
          | positive =>
              cases t with
              | negative =>
                  rw [apply_negative, apply_positive,
                    compare_gt_iff_gt.2 ((neg_lt_zero.2 hnpos).trans hmpos)]
                  rfl
              | positive =>
                  rw [apply_positive, apply_positive, ← compare_finite hmlow hmhigh hnlow hnhigh]
                  rfl

/-! ## Conversion -/

/-- The value of a float that is a zero or a normal number. -/
def Holds (f : Float) (x : ℚ) : Prop :=
  Denotes f.toModel.unpack x

variable {f g : Float}

/-- Packing keeps the number. -/
theorem holds_pack (h : Denotes u x) : Holds (.ofModel (.pack u)) x := by
  have hunpack : (Float.Model.pack u).unpack = u := h.unpack_pack
  rw [Holds, hunpack]
  exact h

/-- Doubles are less just if their numbers are. -/
theorem Holds.lt_iff (hf : Holds f x) (hg : Holds g y) : f < g ↔ x < y := by
  have hlt : f < g ↔ f.toModel.unpack.lt g.toModel.unpack = true := decide_eq_true_iff
  rw [hlt, UnpackedFloat.lt, hf.compare_eq hg, beq_iff_eq, Option.some.injEq, compare_lt_iff_lt]

/-- Doubles are no greater just if their numbers are. -/
theorem Holds.le_iff (hf : Holds f x) (hg : Holds g y) : f ≤ g ↔ x ≤ y := by
  have hle : f ≤ g ↔ f.toModel.unpack.le g.toModel.unpack = true := decide_eq_true_iff
  rw [hle, UnpackedFloat.le, hf.compare_eq hg, Option.any_some, Ordering.isLE_iff_ne_gt, ← Ne,
    compare_le_iff_le]

/-- Doubles are equal just if their numbers are. -/
theorem Holds.beq_iff (hf : Holds f x) (hg : Holds g y) : (f == g) = true ↔ x = y := by
  have hbeq : (f == g) = f.toModel.unpack.beq g.toModel.unpack := rfl
  rw [hbeq, UnpackedFloat.beq, hf.compare_eq hg, beq_iff_eq, Option.some.injEq, compare_eq_iff_eq]

/-- The negation of a double holds the negation of its number. -/
theorem Holds.neg (h : Holds f x) : Holds f.neg (-x) :=
  holds_pack (Denotes.neg h)

/-- Zero is a double. -/
theorem holds_zero : Holds 0.0 0 := by
  have hunpack : (0.0 : Float).toModel.unpack = .zero .positive := by rfl
  rw [Holds, hunpack]
  exact .zero .positive

/-- A double is no zero just if its number is none. -/
theorem Holds.bne_zero (h : Holds f x) : (f != 0.0) = decide (x ≠ 0) := by
  have hbeq : (f == 0.0) = decide (x = 0) := by
    rw [Bool.eq_iff_iff, h.beq_iff holds_zero, decide_eq_true_iff]
  rw [bne, hbeq, decide_not]

/-- Integers of at most 53 digits become normal numbers by a shift. -/
theorem Denotes.ofNat (h : n < 2 ^ 53) : Denotes (UnpackedFloat.ofNat .binary64 n) n := by
  rcases Nat.eq_zero_or_pos n with rfl | hn
  · rw [Nat.cast_zero]
    exact .zero .positive
  have hlog : n.log2 < 53 := (Nat.log2_lt hn.ne').2 h
  obtain ⟨k, hk⟩ : ∃ k, n.log2 + k = 52 := ⟨52 - n.log2, by omega⟩
  have hlow : 2 ^ 52 ≤ n * 2 ^ k := by
    rw [← hk, pow_add]
    exact Nat.mul_le_mul_right _ (Nat.log2_self_le hn.ne')
  have hhigh : n * 2 ^ k < 2 ^ 53 := by
    rw [show 53 = n.log2 + 1 + k by omega, pow_add]
    exact Nat.mul_lt_mul_of_pos_right Nat.lt_log2_self (Nat.two_pow_pos k)
  have hshift : UnpackedFloat.ofNat .binary64 n =
      roundWithAccuracy .binary64 .positive (n * 2 ^ k) (-k) .exact := by
    have hpos : compare (n : Int) 0 = .gt := compare_gt_iff_gt.2 (by omega)
    have htarget : Format.binary64.targetExponent (totalExponent n 0) = -k := by
      change max ((n.log2 : Int) + 1 + 0 - 53) (-1074) = _
      omega
    rw [UnpackedFloat.ofNat, UnpackedFloat.ofInt, UnpackedFloat.normalize, hpos]
    simp only [UnpackedFloat.round, Int.toNat_natCast, htarget, decreaseExponent]
    rw [show (0 - -(k : Int)).toNat = k by omega, Nat.shiftLeft_eq, zero_sub]
  have hvalue : (n : ℚ) = Sign.positive.apply (nearest (n * 2 ^ k)) * 2 ^ (-k : Int) := by
    rw [nearest_of_lt hhigh, apply_positive, Nat.cast_mul, Nat.cast_pow, zpow_neg, zpow_natCast]
    field_simp
    norm_num
  rw [hshift, hvalue]
  refine .round .positive hlow ?_ ?_
  · rw [excess_eq_zero hhigh]
    omega
  · rw [leading_of_lt hhigh, excess_eq_zero hhigh]
    omega

/-- The product of a normal number and one is rounded, but has no digit to lose. -/
theorem Denotes.mul_one (h : Denotes u x) :
    Denotes (UnpackedFloat.mul .binary64 u (.finite .positive (2 ^ 52) (-52) (Nat.two_pow_pos 52)))
      x := by
  cases h with
  | zero s => exact .zero (s * .positive)
  | @finite s m e h hlow hhigh hleast hgreatest =>
      have hsign : s * Sign.positive = s := by cases s <;> rfl
      have hbig : 2 ^ 52 ≤ m * 2 ^ 52 := by omega
      have hexcess : excess (m * 2 ^ 52) = 52 := by rw [excess_scale hlow, excess_eq_zero hhigh]
      have hleading : leading (m * 2 ^ 52) = m := by rw [leading_scale hlow, leading_of_lt hhigh]
      have hvalue : (s.apply m * 2 ^ e : ℚ) =
          s.apply (nearest (m * 2 ^ 52)) * 2 ^ (e + -52) := by
        rw [nearest, hexcess, hleading, Nat.cast_mul, apply_mul, zpow_add₀ two_ne_zero]
        push_cast
        field_simp
        norm_num
      rw [UnpackedFloat.mul, hsign, hvalue]
      refine .round s hbig ?_ ?_
      · rw [hexcess]
        omega
      · rw [hexcess, hleading, excess_eq_zero hhigh]
        omega

/-- Below `2 ^ 53` the conversion multiplies the number by one. -/
theorem holds_ofNat_of_lt (h : n < 2 ^ 53) : Holds (Float.ofNat n) n := by
  have hone : (Float.exactlyRepresentablePowersOfTen[0]).toModel.unpack =
      .finite .positive (2 ^ 52) (-52) (Nat.two_pow_pos 52) := by rfl
  have hfloat : Float.ofNat n = .ofModel (.pack (UnpackedFloat.mul .binary64
      (Float.Model.pack (UnpackedFloat.ofNat .binary64 n.toUInt64.toNat)).unpack
      (.finite .positive (2 ^ 52) (-52) (Nat.two_pow_pos 52)))) := by
    rw [← hone]
    exact dif_pos ⟨h, by decide⟩
  have hword : n.toUInt64.toNat = n := Nat.mod_eq_of_lt (by omega)
  have hunpack : (Float.Model.pack (UnpackedFloat.ofNat .binary64 n)).unpack =
      UnpackedFloat.ofNat .binary64 n := (Denotes.ofNat h).unpack_pack
  rw [hfloat, hword, hunpack]
  exact holds_pack (Denotes.ofNat h).mul_one

/-- From `2 ^ 53` on the conversion rounds the number after lengthening it by 53 zeros. -/
theorem holds_ofNat_of_le (hlow : 2 ^ 53 ≤ n) (h : n < 2 ^ 64) :
    Holds (Float.ofNat n) (nearest n) := by
  have hlarge : 2 ^ 52 ≤ n := by omega
  have hlong : 2 ^ 52 ≤ n * 2 ^ 53 := by omega
  have hfloat : Float.ofNat n = .ofModel (.pack
      (roundWithAccuracy .binary64 .positive (n * 2 ^ 53) (-53) .exact)) := by
    have hslow : Float.ofNat n = .ofModel (Float.Model.ofScientific n 0) :=
      dif_neg fun h => absurd h.1 (by omega)
    have hbits : (2 : Int) ^ Format.binary64.exponentBits = 2048 := rfl
    rw [hslow, Float.Model.ofScientific, UnpackedFloat.ofScientific, dif_neg (by omega),
      if_neg (by decide), if_neg (by omega), if_pos le_rfl, UnpackedFloat.mul]
    change Float.ofModel (.pack (roundWithAccuracy _ _ (n <<< 53 * 1) (-53) _)) = _
    rw [mul_one, Nat.shiftLeft_eq]
    rfl
  have hvalue : (nearest n : ℚ) =
      Sign.positive.apply (nearest (n * 2 ^ 53)) * 2 ^ (-53 : Int) := by
    rw [nearest_scale hlarge, apply_positive, Nat.cast_mul]
    push_cast
    field_simp
    norm_num
  have hlog : n.log2 < 64 := (Nat.log2_lt (by omega)).2 h
  have hexcess : excess (n * 2 ^ 53) = n.log2 - 52 + 53 := by rw [excess_scale hlarge, excess]
  have hcarry := excess_leading_le hlong
  rw [hfloat, hvalue]
  exact holds_pack (.round .positive hlong (by omega) (by omega))

/-- A word is converted to the nearest double. -/
theorem holds_ofNat (h : n < 2 ^ 64) : Holds (Float.ofNat n) (nearest n) := by
  by_cases hsmall : n < 2 ^ 53
  · rw [nearest_of_lt hsmall]
    exact holds_ofNat_of_lt hsmall
  · exact holds_ofNat_of_le (Nat.le_of_not_lt hsmall) h

/-- An integer of 64 bits becomes the double nearest to it. -/
theorem holds_ofInt {a : Int} (h : a.natAbs < 2 ^ 64) : Holds (Float.ofInt a) (nearestInt a) := by
  cases a with
  | ofNat n => exact holds_ofNat h
  | negSucc n =>
      rw [nearestInt, Int.cast_neg]
      exact (holds_ofNat (by omega)).neg

end Numeric
end FusionCompiler
