import FusionCompiler.Proofs.Kernel.Counters
import FusionCompiler.Proofs.Lower.VectorAccesses

/-!
# Addresses at run time

The address of an element in a tensor's own storage is the mixed-radix number of
its leaf indices, the innermost leaf first; in global memory it is the sum of the
root indices times their strides.  The arithmetic that a kernel does has these
values as long as they are 64-bit integers, since no intermediate result is larger.

Main results:

- Theorem `LoopPlan.foldlM_storageStep`: an address in storage is the number of its
  leaf indices.
- Theorem `LoopPlan.evaluate_storageSize`: storage has one cell for each tuple of
  leaf indices.
- Theorem `LoopPlan.foldlM_addressStep`: an address in global memory is the sum of
  the offsets along all dimensions.
- Theorem `LoopPlan.carried_counted`: indices that are carried back count with the
  loops, or are zero.
-/

namespace FusionCompiler

open Fusion

/-- A number whose absolute value is at most a 64-bit integer is a 64-bit integer. -/
theorem Fits64.of_abs_le {m n : Int} (hn : Fits64 n) (h : |m| ≤ n) : Fits64 m := by
  obtain ⟨hlow, hhigh⟩ := abs_le.1 h
  refine ⟨?_, Int.le_trans hhigh hn.2⟩
  have hmax := hn.2
  unfold int64Range at hmax ⊢
  dsimp only at hmax ⊢
  omega

namespace LoopPlan

open Scalar

variable {p : LoopPlan} {v t : ValueId} {e x : AxisId → Int} {env : Scalar.Env}
  {frames : List LoopFrame} {leaves m : AxisIndices} {a : AxisId} {as : List AxisId}

/-- A scalar has been found, and it has the value at run time. -/
def Computes (found : Except LowerError Scalar) (env : Scalar.Env) (n : Int) : Prop :=
  ∃ s, found = .ok s ∧ s.evaluate env = some (.int n)

instance (found : Except LowerError Scalar) (env : Scalar.Env) (n : Int) :
    Decidable (Computes found env n) :=
  match found with
  | .ok s => decidable_of_iff (s.evaluate env = some (.int n)) (by simp [Computes])
  | .error _ => .isFalse (by simp [Computes])

theorem Computes.unique {found : Except LowerError Scalar} {n n' : Int}
    (h : Computes found env n) (h' : Computes found env n') : n = n' := by
  obtain ⟨s, hs, hn⟩ := h
  obtain ⟨s', hs', hn'⟩ := h'
  cases hs.symm.trans hs'
  cases hn.symm.trans hn'
  rfl

theorem require_of_get? {s : Scalar} (h : m.get? a = some s) : require v m a = .ok s := by
  simp [require, h]

/-! ## Storage -/

/-- One more leaf of an address in storage, and the stride of the next one. -/
def storageStep (p : LoopPlan) (v : ValueId) (m : AxisIndices) (q : Scalar × Scalar) (a : AxisId) :
    Except LowerError (Scalar × Scalar) := do
  let i ← require v m a
  return ((i.mul q.2).add q.1, q.2.mul (p.concreteExtent a))

theorem allocationIndex_eq {q : Scalar × Scalar}
    (h : (p.allocatedLeaves v).reverse.foldlM (p.storageStep v m) (.zero, .one) = .ok q) :
    p.allocationIndex v m = .ok q.1 := by
  unfold storageStep at h
  unfold allocationIndex
  dsimp only
  rw [h]
  rfl

/-- An address in storage is the number of its leaf indices. -/
theorem foldlM_storageStep {index stride : Scalar} {n k : Int}
    (hvalued : ∀ a ∈ as, Valued env m x a) (hinside : ∀ a ∈ as, Inside e x a)
    (hsized : ∀ a ∈ as, (p.concreteExtent a).evaluate env = some (.int (e a)))
    (hn : index.evaluate env = some (.int n)) (hk : stride.evaluate env = some (.int k))
    (h₀ : 0 ≤ n) (hlt : n < k) (hfits : Fits64 (k * volume e as)) :
    ∃ q, as.foldlM (p.storageStep v m) (index, stride) = .ok q ∧
      q.1.evaluate env = some (.int (n + k * radix e x as)) := by
  induction as generalizing index stride n k with
  | nil => exact ⟨(index, stride), rfl, by simpa [radix] using hn⟩
  | cons a as ih =>
      obtain ⟨s, hs, hval⟩ := hvalued a List.mem_cons_self
      obtain ⟨hlow, hhigh⟩ := hinside a List.mem_cons_self
      have hrest : 0 < volume e as := volume_pos fun b hb => by
        obtain ⟨hb₀, hblt⟩ := hinside b (List.mem_cons_of_mem a hb)
        omega
      rw [volume_cons, ← Int.mul_assoc] at hfits
      have hnext : 0 < k * e a := Int.mul_pos (by omega) (by omega)
      have hstrideFits : Fits64 (k * e a) :=
        hfits.of_le (Int.le_of_lt hnext) (le_mul_of_one_le_right (Int.le_of_lt hnext) hrest)
      have hprod : 0 ≤ x a * k := Int.mul_nonneg hlow (by omega)
      -- the new digit leaves room for the digits inside it
      have hroom : x a * k + k ≤ k * e a := by
        have hle := Int.mul_le_mul_of_nonneg_left (show x a + 1 ≤ e a from hhigh)
          (show 0 ≤ k by omega)
        rwa [Int.mul_add, Int.mul_one, Int.mul_comm k (x a)] at hle
      have hmul := evaluate_mkBinary_of_fits (exactInt?_mul _ _) hval hk
        (hstrideFits.of_le hprod (by omega))
      have hadd := evaluate_mkBinary_of_fits (exactInt?_add _ _) hmul hn
        (hstrideFits.of_le (by omega) (by omega))
      have hstride := evaluate_mkBinary_of_fits (exactInt?_mul _ _) hk
        (hsized a List.mem_cons_self) hstrideFits
      obtain ⟨q, hq, hvalue⟩ := ih (fun b hb => hvalued b (List.mem_cons_of_mem a hb))
        (fun b hb => hinside b (List.mem_cons_of_mem a hb))
        (fun b hb => hsized b (List.mem_cons_of_mem a hb)) hadd hstride (by omega) (by omega) hfits
      refine ⟨q, ?_, ?_⟩
      · rw [List.foldlM_cons, storageStep, require_of_get? hs]
        exact hq
      · rw [hvalue, radix, Int.mul_add, ← Int.mul_assoc, Int.mul_comm k (x a)]
        congr 2
        omega

/-- Storage has one cell for each tuple of leaf indices. -/
theorem evaluate_storageSize {size : Scalar} {k : Int} (hpos : ∀ a ∈ as, 0 < e a)
    (hsized : ∀ a ∈ as, (p.concreteExtent a).evaluate env = some (.int (e a)))
    (hk : size.evaluate env = some (.int k)) (h₀ : 0 < k) (hfits : Fits64 (k * volume e as)) :
    (as.foldl (fun size a => size.mul (p.concreteExtent a)) size).evaluate env =
      some (.int (k * volume e as)) := by
  induction as generalizing size k with
  | nil => simpa [volume] using hk
  | cons a as ih =>
      have hrest := volume_pos fun b hb => hpos b (List.mem_cons_of_mem a hb)
      have hnext := Int.mul_pos h₀ (hpos a List.mem_cons_self)
      rw [volume_cons, ← Int.mul_assoc] at hfits ⊢
      rw [List.foldl_cons]
      apply ih (fun b hb => hpos b (List.mem_cons_of_mem a hb))
        (fun b hb => hsized b (List.mem_cons_of_mem a hb)) _ hnext hfits
      apply evaluate_mkBinary_of_fits (exactInt?_mul _ _) hk (hsized a List.mem_cons_self)
      exact hfits.of_le (Int.le_of_lt hnext) (le_mul_of_one_le_right (Int.le_of_lt hnext) hrest)

/-! ## Global memory -/

/-- An address in global memory is the sum of the offsets along all dimensions. -/
theorem foldlM_addressStep {dims : List (AxisId × Nat)} {w : Nat → Int} {address : Scalar}
    {n : Int} (hconcrete : ∀ q ∈ dims, (p.fusion.axis q.1).isBroadcast = false)
    (hvalued : ∀ q ∈ dims, Valued env m x q.1)
    (hstride : ∀ q ∈ dims, env.stride t q.2 = some (w q.2))
    (hn : address.evaluate env = some (.int n))
    (hfits : Fits64 (|n| + (dims.map fun q => |x q.1 * w q.2|).sum)) :
    Computes (dims.foldlM (p.addressStep t m) address) env
      (n + (dims.map fun q => x q.1 * w q.2).sum) := by
  induction dims generalizing address n with
  | nil => exact ⟨address, rfl, by simpa using hn⟩
  | cons q dims ih =>
      obtain ⟨s, hs, hval⟩ := hvalued q List.mem_cons_self
      have hstep : p.addressStep t m address q = .ok (address.add (s.mul (.stride t q.2))) := by
        unfold addressStep
        dsimp only
        rw [if_neg (by simp [hconcrete q List.mem_cons_self]), require_of_get? hs]
        rfl
      have hrest : 0 ≤ (dims.map fun q => |x q.1 * w q.2|).sum := by
        apply List.sum_nonneg
        intro y hy
        obtain ⟨d, -, rfl⟩ := List.mem_map.1 hy
        exact abs_nonneg _
      rw [List.map_cons, List.sum_cons, ← Int.add_assoc] at hfits ⊢
      have hsum := abs_add_le n (x q.1 * w q.2)
      have hmul := evaluate_mkBinary_of_fits (b := .stride t q.2) (exactInt?_mul _ _) hval
        (by simp [Scalar.evaluate, hstride q List.mem_cons_self])
        (hfits.of_abs_le (m := x q.1 * w q.2) (by have := abs_nonneg n; omega))
      have hadd := evaluate_mkBinary_of_fits (exactInt?_add _ _) hn hmul
        (hfits.of_abs_le (by omega))
      rw [List.foldlM_cons, hstep]
      apply ih (fun d hd => hconcrete d (List.mem_cons_of_mem q hd))
        (fun d hd => hvalued d (List.mem_cons_of_mem q hd))
        (fun d hd => hstride d (List.mem_cons_of_mem q hd)) hadd
      apply hfits.of_abs_le
      rw [abs_of_nonneg (by have := abs_nonneg (n + x q.1 * w q.2); omega)]
      omega

/-! ## Indices that count -/

/-- Loops that enclose all leaves give each its index, which counts if theirs do. -/
theorem exists_leafIndices (hcounter : ∀ fr ∈ frames, fr.index.IsCounter)
    (h : ∀ a ∈ p.fusion.leaf v, ∃ s, p.loopIndex? frames a = some s) :
    ∃ leaves, p.leafIndices v frames = .ok leaves ∧
      (∀ a ∈ p.fusion.leaf v, leaves.get? a = p.loopIndex? frames a) ∧
      ∀ a s, leaves.get? a = some s → Counted s := by
  have hleaf : ∀ a ∈ p.fusion.leaf v, ∀ s, p.loopIndex? frames a = some s →
      p.leafIndex v frames a = .ok s := by
    intro a ha s hs
    rw [leafIndex, hs]
  obtain ⟨leaves, hleaves⟩ : ∃ leaves, p.leafIndices v frames = .ok leaves := by
    refine Results.foldlM_of_all _ fun a ha m => ?_
    obtain ⟨s, hs⟩ := h a ha
    exact ⟨m.set a s, by rw [hleaf a ha s hs]; rfl⟩
  refine ⟨leaves, hleaves, fun a ha => ?_, ?_⟩
  · obtain ⟨s, hget, hs⟩ := leafIndices_get? hleaves a ha
    obtain ⟨s', hs'⟩ := h a ha
    cases hs.symm.trans (hleaf a ha s' hs')
    rw [hget, hs']
  · refine Results.foldlM_keeps (P := fun m : AxisIndices => ∀ a s, m.get? a = some s → Counted s)
      (fun b _ m m' hm hstep => ?_) (by simp) hleaves
    obtain ⟨i, hi, hstep⟩ := Results.bind_eq_ok.1 hstep
    cases hstep
    intro a s hs
    rw [AxisIndices.get?_set] at hs
    split at hs
    case isFalse => exact hm a s hs
    case isTrue =>
        cases hs
        rcases leafIndex_cases hi with rfl | ⟨fr, hfr, -, rfl⟩
        · exact .inl rfl
        · exact (hcounter fr hfr).counted

/-- Indices that are carried back count with the loops, or are zero. -/
theorem carried_counted (h : ∀ a s, leaves.get? a = some s → Counted s) :
    ∀ a s, (p.carried v leaves).get? a = some s → Counted s := by
  unfold carried
  refine List.foldrRecOn
    (motive := fun m : AxisIndices => ∀ a s, m.get? a = some s → Counted s) _ _ h
    fun m hm t _ => ?_
  unfold backwardStep
  split
  · split
    case h_1 so si ho hi =>
        intro a s hs
        rw [AxisIndices.get?_set] at hs
        split at hs
        · cases hs
          exact ((hm _ _ ho).mul _).add (hm _ _ hi)
        · exact hm a s hs
    case h_2 => exact hm
  · split
    case h_1 i hi =>
        have hcounted := hm _ _ hi
        intro a s hs
        rw [AxisIndices.get?_set] at hs
        split at hs
        · cases hs
          exact hcounted.rem _
        · rw [AxisIndices.get?_set] at hs
          split at hs
          · cases hs
            exact hcounted.div _
          · exact hm a s hs
    case h_2 => exact hm

end LoopPlan
end FusionCompiler
