import Mathlib.Algebra.BigOperators.Group.List.Lemmas
import Mathlib.Algebra.BigOperators.Ring.List
import Mathlib.Algebra.Order.Ring.Int
import Mathlib.Data.List.Forall2
import FusionCompiler.Host.Tensor
import FusionCompiler.Proofs.Words

/-!
# Row-major host tensors

A dimension of a host tensor is contiguous if its stride is what the dimensions
inside it span together.  A dimension of size one is passed over in both roles: its
stride is free, and the next dimension inside takes its place.  A tensor without
elements is contiguous whatever its strides are.

The index of a dimension of size one is zero, so a free stride never counts, and an
empty tensor has no indices at all.  If every dimension is contiguous, the elements
therefore lie in storage in row-major order.

All of this is worked out in 64-bit words.  A build with overflow checks, as tests
are run in, stops where a tensor has more elements than a word counts, so that no
such tensor is found contiguous.  A build without them takes some for empty, and
then nothing is known of their strides.

Main results:

- Theorem `innerSpan_eq_prod`: the dimensions inside a contiguous dimension span as
  many places as they have elements.
- Theorem `HostTensor.atRowMajor_of_count`: a contiguous tensor whose elements can be
  counted is stored in row-major order, without overflow checks.
- Theorem `HostTensor.contiguous_atRowMajor`: in a build with overflow checks every
  contiguous tensor is, and in one without them every one that can be counted.
-/

namespace FusionCompiler

variable {sizes index index' : List Nat} {strides : List Int}

/-! ## Places in row-major order -/

/-- A shape without empty dimensions has elements. -/
theorem prod_pos (hpos : ∀ n ∈ sizes, 0 < n) : 0 < sizes.prod :=
  Nat.pos_of_ne_zero fun h => Nat.lt_irrefl 0 (hpos 0 (List.prod_eq_zero_iff.1 h))

/-- The number of indices of a shape that come before an index in row-major order. -/
def rowMajorIndex : List Nat → List Nat → Nat
  | i :: index, _ :: sizes => i * sizes.prod + rowMajorIndex index sizes
  | _, _ => 0

/-- There are fewer indices before an index than there are indices. -/
theorem rowMajorIndex_lt (h : List.Forall₂ (· < ·) index sizes) :
    rowMajorIndex index sizes < sizes.prod := by
  induction h with
  | nil => exact Nat.one_pos
  | @cons i n index sizes hi _ ih =>
      have hstep : (i + 1) * sizes.prod ≤ n * sizes.prod := Nat.mul_le_mul_right _ hi
      rw [Nat.add_mul, Nat.one_mul] at hstep
      rw [rowMajorIndex, List.prod_cons]
      omega

/-- All indices but one come before the last one. -/
theorem rowMajorIndex_last (hpos : ∀ n ∈ sizes, 0 < n) :
    rowMajorIndex (sizes.map (· - 1)) sizes + 1 = sizes.prod := by
  induction sizes with
  | nil => rfl
  | cons n sizes ih =>
      obtain ⟨hn, hpos⟩ := List.forall_mem_cons.1 hpos
      have hsplit : (n - 1 + 1) * sizes.prod = n * sizes.prod := by rw [Nat.sub_add_cancel hn]
      rw [Nat.add_mul, Nat.one_mul] at hsplit
      rw [List.map_cons, rowMajorIndex, List.prod_cons, Nat.add_assoc, ih hpos, hsplit]

/-- A shape with an index has no empty dimension. -/
theorem forall_pos_of_index (h : List.Forall₂ (· < ·) index sizes) : ∀ n ∈ sizes, 0 < n := by
  induction h with
  | nil => exact fun n hn => nomatch hn
  | cons hi _ ih => exact List.forall_mem_cons.2 ⟨Nat.zero_lt_of_lt hi, ih⟩

/-! ## Offsets as integers -/

/-- The sum of index times stride. -/
def stridedOffset (index : List Nat) (strides : List Int) : Int :=
  (List.zipWith (fun (i : Nat) s => (i : Int) * s) index strides).sum

theorem stridedOffset_cons (i : Nat) (s : Int) (index : List Nat) (strides : List Int) :
    stridedOffset (i :: index) (s :: strides) = i * s + stridedOffset index strides := by
  rw [stridedOffset, List.zipWith_cons_cons, List.sum_cons, stridedOffset]

/-- Without negative strides a larger index lies further behind. -/
theorem stridedOffset_mono (hstrides : ∀ s ∈ strides, 0 ≤ s)
    (h : List.Forall₂ (· ≤ ·) index index') :
    stridedOffset index strides ≤ stridedOffset index' strides := by
  induction h generalizing strides with
  | nil => rfl
  | @cons i j index index' hij _ ih =>
      cases strides with
      | nil => rfl
      | cons s strides =>
          obtain ⟨hs, hstrides⟩ := List.forall_mem_cons.1 hstrides
          rw [stridedOffset_cons, stridedOffset_cons]
          have hfirst : (i : Int) * s ≤ j * s :=
            Int.mul_le_mul_of_nonneg_right (Int.ofNat_le.2 hij) hs
          exact Int.add_le_add hfirst (ih hstrides)

/-! ## Contiguous dimensions -/

/-- The stride of each dimension with more than one element is the number of elements inside it. -/
def Folds : List Nat → List Int → Prop
  | n :: sizes, s :: strides => (1 < n → s = sizes.prod) ∧ Folds sizes strides
  | _, _ => True

/-- Over contiguous dimensions an index lies at its place in row-major order. -/
theorem stridedOffset_eq_rowMajorIndex (hlength : sizes.length = strides.length)
    (h : Folds sizes strides) (hin : List.Forall₂ (· < ·) index sizes) :
    stridedOffset index strides = rowMajorIndex index sizes := by
  induction hin generalizing strides with
  | nil => rfl
  | @cons i n index sizes hi hin ih =>
      cases strides with
      | nil => cases hlength
      | cons s strides =>
          rw [stridedOffset_cons, rowMajorIndex, ih (Nat.succ.inj hlength) h.2, Nat.cast_add,
            Nat.cast_mul]
          by_cases hwide : 1 < n
          · rw [h.1 hwide]
          · obtain rfl : i = 0 := by omega
            simp

/-- The number of elements inside a dimension with more than one element is a signed word, if a word
counts all elements. -/
theorem fits64_prod_inside {n : Nat} (hn : 1 < n) (h : (n :: sizes).prod < wordModulus) :
    Fits64 sizes.prod := by
  have hdouble : 2 * sizes.prod ≤ n * sizes.prod := Nat.mul_le_mul_right _ hn
  rw [List.prod_cons] at h
  unfold Fits64 int64Range
  unfold wordModulus at h
  dsimp only
  omega

/-- Contiguous dimensions span as many places as they have elements, if a word counts them. -/
theorem innerSpan_eq_prod (hlength : sizes.length = strides.length) (hpos : ∀ n ∈ sizes, 0 < n)
    (hfits : Fits64 sizes.prod) (h : Folds sizes strides) :
    Id.run (HostTensor.innerSpan sizes strides) = sizes.prod := by
  induction sizes generalizing strides with
  | nil => rfl
  | cons n sizes ih =>
      cases strides with
      | nil => cases hlength
      | cons s strides =>
          obtain ⟨hn, hinside⟩ := List.forall_mem_cons.1 hpos
          rw [HostTensor.innerSpan]
          by_cases hwide : 1 < n
          · have hle : n ≤ n * sizes.prod := Nat.le_mul_of_pos_right n (prod_pos hinside)
            rw [List.prod_cons] at hfits ⊢
            have hn64 : Fits64 n := hfits.of_le (Int.natCast_nonneg n) (Int.ofNat_le.2 hle)
            rw [if_pos hwide, h.1 hwide, run_signed, wrapped64_of_fits hn64, ← Nat.cast_mul,
              Nat.mul_comm, wrapped64_of_fits hfits]
          · obtain rfl : n = 1 := by omega
            rw [List.prod_cons, Nat.one_mul] at hfits ⊢
            rw [if_neg hwide]
            exact ih (Nat.succ.inj hlength) hinside hfits h.2

/-- Dimensions that the program finds contiguous are, if a word counts the elements. -/
theorem folds_of_forall (hlength : sizes.length = strides.length) (hpos : ∀ n ∈ sizes, 0 < n)
    (hcount : sizes.prod < wordModulus)
    (h : ∀ dim < sizes.length, 1 < sizes.getD dim 0 → strides.getD dim 0 =
      Id.run (HostTensor.innerSpan (sizes.drop (dim + 1)) (strides.drop (dim + 1)))) :
    Folds sizes strides := by
  induction sizes generalizing strides with
  | nil => trivial
  | cons n sizes ih =>
      cases strides with
      | nil => trivial
      | cons s strides =>
          obtain ⟨hn, hposs⟩ := List.forall_mem_cons.1 hpos
          have hinside : sizes.prod < wordModulus := by
            rw [List.prod_cons] at hcount
            exact Nat.lt_of_le_of_lt (Nat.le_mul_of_pos_left _ hn) hcount
          have hfolds : Folds sizes strides :=
            ih (Nat.succ.inj hlength) hposs hinside fun dim hdim hwide =>
              h (dim + 1) (Nat.succ_lt_succ hdim) hwide
          refine ⟨fun hwide => ?_, hfolds⟩
          have hspan := innerSpan_eq_prod (Nat.succ.inj hlength) hposs
            (fits64_prod_inside hwide hcount) hfolds
          rw [← hspan]
          exact h 0 (Nat.succ_pos _) hwide

/-! ## Both builds -/

namespace Agrees

/-- Dot products of words agree. -/
theorem wordDot (terms : List (Int × Int)) :
    Agrees (FusionCompiler.wordDot terms) (FusionCompiler.wordDot terms) :=
  foldlM (fun sum (i, s) => (signed (i * s)).bind fun product => signed (sum + product)) terms 0

/-- The place of an element is the same in both builds. -/
theorem placeOf (index : List Nat) (strides : List Int) :
    Agrees (FusionCompiler.placeOf index strides) (FusionCompiler.placeOf index strides) :=
  (wordDot _).bind fun _ => Agrees.pure _

/-- A layout reaches equally far in both builds. -/
theorem spanOf (sizes : List Nat) (strides : List Int) :
    Agrees (FusionCompiler.spanOf sizes strides) (FusionCompiler.spanOf sizes strides) := by
  unfold FusionCompiler.spanOf
  refine ite (Agrees.pure 0) ?_
  exact (mapM (fun _ => signed _) sizes).bind fun _ => (wordDot _).bind fun _ => unsigned _

/-- Both builds accept the same tensors. -/
theorem stridedIn (t : DataType) (sizes : List Nat) (strides : List Int) (storage : Array Float) :
    Agrees (HostTensor.stridedIn t sizes strides storage)
      (HostTensor.stridedIn t sizes strides storage) := by
  unfold HostTensor.stridedIn
  refine ite (Agrees.pure _) (ite (Agrees.pure _) ?_)
  exact (spanOf sizes strides).bind fun _ => ite (Agrees.pure _) (Agrees.pure _)

/-- The next dimension inside spans as much in both builds. -/
theorem innerSpan (sizes : List Nat) (strides : List Int) :
    Agrees (HostTensor.innerSpan sizes strides) (HostTensor.innerSpan sizes strides) := by
  induction sizes generalizing strides with
  | nil => exact Agrees.pure 1
  | cons n sizes ih =>
      cases strides with
      | nil => exact Agrees.pure 1
      | cons s strides => exact ite (signed _) (ih strides)

/-- Both builds find the same dimensions contiguous. -/
theorem isContiguousIn (x : HostTensor) (dim : Nat) :
    Agrees (x.isContiguousIn dim) (x.isContiguousIn dim) := by
  unfold HostTensor.isContiguousIn
  refine ite (Agrees.pure _) ((wordProduct _).bind fun _ => ite (Agrees.pure _) ?_)
  exact (innerSpan _ _).bind fun _ => Agrees.pure _

end Agrees

/-! ## Dot products of words -/

/-- Without overflow checks a dot product is the remainder of the exact one. -/
theorem run_wordDot_modEq {steps : List Int}
    (h : List.Forall₂ (fun j (i : Nat) => j ≡ i [ZMOD wordModulus]) steps index)
    (strides : List Int) :
    Id.run (wordDot (steps.zip strides)) ≡ stridedOffset index strides [ZMOD wordModulus] := by
  -- the sum so far is anything with the right remainder
  have hfold : ∀ sum : Int, Id.run ((steps.zip strides).foldlM dotStep sum) ≡
      sum + stridedOffset index strides [ZMOD wordModulus] := by
    induction h generalizing strides with
    | nil =>
        intro sum
        rw [stridedOffset, List.zipWith_nil_left, List.sum_nil, Int.add_zero]
        rfl
    | @cons j i steps index hji _ ih =>
        intro sum
        cases strides with
        | nil =>
            rw [stridedOffset, List.zipWith_nil_right, List.sum_nil, Int.add_zero]
            rfl
        | cons s strides =>
            rw [List.zip_cons_cons, List.foldlM_cons, stridedOffset_cons, ← Int.add_assoc]
            refine (ih strides _).trans (Int.ModEq.add_right _ ?_)
            exact (wrapped64_modEq _).trans
              (Int.ModEq.add_left sum ((wrapped64_modEq _).trans (hji.mul_right s)))
  exact (hfold 0).trans (by rw [Int.zero_add])

/-- Indices as signed words have the remainders of the indices. -/
theorem forall₂_wrapped64 (index : List Nat) :
    List.Forall₂ (fun j (i : Nat) => j ≡ i [ZMOD wordModulus])
      (index.map fun (i : Nat) => wrapped64 i) index := by
  rw [List.forall₂_map_left_iff]
  exact List.forall₂_same.2 fun i _ => wrapped64_modEq i

/-- An element whose offset is a word is found at its offset. -/
theorem run_placeOf {k : Nat} (hoffset : stridedOffset index strides = k) (hk : k < wordModulus) :
    Id.run (placeOf index strides) = k :=
  wordOf_eq (hoffset ▸ run_wordDot_modEq (forall₂_wrapped64 index) strides) hk

/-- A shape with elements is not passed over. -/
theorem not_contains_zero (hpos : ∀ n ∈ sizes, 0 < n) : ¬ sizes.contains 0 = true := by
  rw [List.contains_iff_mem]
  exact fun h => Nat.lt_irrefl 0 (hpos 0 h)

/-- A row-major layout reaches as far as it has elements, if a word counts them. -/
theorem run_spanOf (hlength : sizes.length = strides.length) (hpos : ∀ n ∈ sizes, 0 < n)
    (hcount : sizes.prod < wordModulus) (h : Folds sizes strides) :
    Id.run (spanOf sizes strides) = sizes.prod := by
  have hin : List.Forall₂ (· < ·) (sizes.map (· - 1)) sizes :=
    List.forall₂_map_left_iff.2 (List.forall₂_same.2 fun n hn => Nat.sub_one_lt_of_lt (hpos n hn))
  have hlast : stridedOffset (sizes.map (· - 1)) strides = (sizes.prod - 1 : Nat) := by
    rw [stridedOffset_eq_rowMajorIndex hlength h hin, ← rowMajorIndex_last hpos, Nat.add_sub_cancel]
  have hsteps : List.Forall₂ (fun j (i : Nat) => j ≡ i [ZMOD wordModulus])
      (sizes.map fun (n : Nat) => wrapped64 (wrapped64 n - 1)) (sizes.map (· - 1)) := by
    rw [List.forall₂_map_left_iff, List.forall₂_map_right_iff]
    refine List.forall₂_same.2 fun n hn => (wrapped64_modEq _).trans ?_
    rw [Nat.cast_pred (hpos n hn)]
    exact (wrapped64_modEq n).sub_right 1
  have hmapM : sizes.mapM (fun (n : Nat) => (Overflow.signed (wrapped64 n - 1) : Id Int)) =
      sizes.map fun (n : Nat) => wrapped64 (wrapped64 n - 1) :=
    List.mapM_pure
  have hword := wordOf_eq (hlast ▸ run_wordDot_modEq hsteps strides)
    (Nat.lt_of_le_of_lt (Nat.sub_le _ _) hcount)
  have hspan : Id.run (spanOf sizes strides) = (wordOf (Id.run (wordDot
      ((sizes.map fun (n : Nat) => wrapped64 (wrapped64 n - 1)).zip strides))) + 1) %
        wordModulus := by
    rw [spanOf, if_neg (not_contains_zero hpos), hmapM]
    rfl
  rw [hspan, hword, Nat.sub_add_cancel (prod_pos hpos), Nat.mod_eq_of_lt hcount]

/-! ## Dot products with overflow checks -/

/-- With overflow checks a product that fits is added exactly, if the sum fits. -/
theorem dotStep_of_fits {sum i s : Int} (hproduct : Fits64 (i * s)) (hsum : Fits64 (sum + i * s)) :
    dotStep sum (i, s) = some (sum + i * s) := by
  have hchecked : Overflow.signed (i * s) = some (i * s) := checked64_of_fits hproduct
  rw [dotStep, hchecked]
  exact checked64_of_fits hsum

/-- Without negative strides no offset is negative. -/
theorem stridedOffset_nonneg (hstrides : ∀ s ∈ strides, 0 ≤ s) (index : List Nat) :
    0 ≤ stridedOffset index strides := by
  induction index generalizing strides with
  | nil => exact Int.le_of_eq (List.sum_nil).symm
  | cons i index ih =>
      cases strides with
      | nil => exact Int.le_of_eq (List.sum_nil).symm
      | cons s strides =>
          obtain ⟨hs, hstrides⟩ := List.forall_mem_cons.1 hstrides
          rw [stridedOffset_cons]
          exact Int.add_nonneg (Int.mul_nonneg (Int.natCast_nonneg i) hs) (ih hstrides)

/-- With overflow checks an offset that fits is exact; no partial sum is larger. -/
theorem wordDot_of_fits (hstrides : ∀ s ∈ strides, 0 ≤ s)
    (hfits : Fits64 (stridedOffset index strides)) :
    wordDot ((index.map fun (i : Nat) => (i : Int)).zip strides) =
      some (stridedOffset index strides) := by
  have hfold : ∀ sum : Int, 0 ≤ sum → Fits64 (sum + stridedOffset index strides) →
      ((index.map fun (i : Nat) => (i : Int)).zip strides).foldlM dotStep sum =
        some (sum + stridedOffset index strides) := by
    clear hfits
    induction index generalizing strides with
    | nil =>
        intro sum _ _
        rw [stridedOffset, List.zipWith_nil_left, List.sum_nil, Int.add_zero]
        rfl
    | cons i index ih =>
        intro sum hsum hfits
        cases strides with
        | nil =>
            rw [stridedOffset, List.zipWith_nil_right, List.sum_nil, Int.add_zero]
            rfl
        | cons s strides =>
            obtain ⟨hs, hinside⟩ := List.forall_mem_cons.1 hstrides
            have hterm : 0 ≤ (i : Int) * s := Int.mul_nonneg (Int.natCast_nonneg i) hs
            have hrest := stridedOffset_nonneg hinside index
            rw [stridedOffset_cons, ← Int.add_assoc] at hfits ⊢
            have hterm64 : Fits64 ((i : Int) * s) := hfits.of_le hterm (by omega)
            have hsum64 : Fits64 (sum + (i : Int) * s) := hfits.of_le (by omega) (by omega)
            rw [List.map_cons, List.zip_cons_cons, List.foldlM_cons, dotStep_of_fits hterm64 hsum64]
            exact ih hinside _ (by omega) hfits
  have hzero := hfold 0 (Int.le_refl 0)
  rw [Int.zero_add] at hzero
  exact hzero hfits

/-- With overflow checks a dot product is exact and fits. -/
theorem eq_of_wordDot {d : Int}
    (h : wordDot ((index.map fun (i : Nat) => (i : Int)).zip strides) = some d) :
    d = stridedOffset index strides ∧ Fits64 d := by
  have hfold : ∀ sum : Int, Fits64 sum →
      ((index.map fun (i : Nat) => (i : Int)).zip strides).foldlM dotStep sum = some d →
        d = sum + stridedOffset index strides ∧ Fits64 d := by
    clear h
    induction index generalizing strides with
    | nil =>
        intro sum hsum h
        rw [stridedOffset, List.zipWith_nil_left, List.sum_nil, Int.add_zero]
        cases h
        exact ⟨rfl, hsum⟩
    | cons i index ih =>
        intro sum hsum h
        cases strides with
        | nil =>
            rw [stridedOffset, List.zipWith_nil_right, List.sum_nil, Int.add_zero]
            cases h
            exact ⟨rfl, hsum⟩
        | cons s strides =>
            rw [List.map_cons, List.zip_cons_cons, List.foldlM_cons] at h
            obtain ⟨next, hnext, h⟩ := Option.bind_eq_some_iff.1 h
            obtain ⟨term, hterm, hnext⟩ := Option.bind_eq_some_iff.1 hnext
            obtain rfl := eq_of_checked64 hterm
            obtain rfl := eq_of_checked64 hnext
            rw [stridedOffset_cons, ← Int.add_assoc]
            exact ih _ (fits64_of_checked64 hnext) h
  have hzero := hfold 0 (by decide) h
  rwa [Int.zero_add] at hzero

/-- A dot product adds nothing for indices of zero. -/
theorem foldlM_of_zero {terms : List (Int × Int)} {sum : Int} (hsum : Fits64 sum)
    (h : ∀ term ∈ terms, term.1 = 0) :
    terms.foldlM dotStep sum = some sum := by
  induction terms with
  | nil => rfl
  | cons term terms ih =>
      obtain ⟨i, s⟩ := term
      obtain ⟨hzero, hrest⟩ := List.forall_mem_cons.1 h
      obtain rfl : i = 0 := hzero
      have hproduct : Fits64 (0 * s) := by
        rw [Int.zero_mul]
        decide
      rw [List.foldlM_cons, dotStep_of_fits hproduct (by rwa [Int.zero_mul, Int.add_zero]),
        Int.zero_mul, Int.add_zero]
      exact ih hrest

/-- A size that is no signed word is at least half of what a word counts. -/
theorem wordModulus_le_two_mul {n : Nat} (h : ¬ Fits64 n) : wordModulus ≤ 2 * n := by
  unfold Fits64 int64Range at h
  dsimp only at h
  unfold wordModulus
  omega

/-- Every index of a shape with one element is zero. -/
theorem eq_zero_of_prod_eq_one (hone : sizes.prod = 1) (hin : List.Forall₂ (· < ·) index sizes) :
    ∀ i ∈ index, i = 0 := by
  induction hin with
  | nil => exact fun i hi => nomatch hi
  | cons hi _ ih =>
      rw [List.prod_cons] at hone
      obtain rfl := Nat.eq_one_of_mul_eq_one_right hone
      exact List.forall_mem_cons.2 ⟨Nat.lt_one_iff.1 hi, ih (Nat.eq_one_of_mul_eq_one_left hone)⟩

/-- Beside a size that is no signed word every other size is one, if a word counts the elements; the
index in it is then the whole offset. -/
theorem exists_wordDot_of_long (hcount : sizes.prod < wordModulus) (hfolds : Folds sizes strides)
    (hin : List.Forall₂ (· < ·) index sizes) (hlong : ∃ n ∈ sizes, ¬ Fits64 n) :
    ∃ d : Int, wordDot ((index.map fun (i : Nat) => wrapped64 i).zip strides) = some d := by
  induction hin generalizing strides with
  | nil => exact ⟨0, rfl⟩
  | @cons i n index sizes hi hin ih =>
      cases strides with
      | nil => exact ⟨0, rfl⟩
      | cons s strides =>
          rw [List.prod_cons] at hcount
          have hinside : 0 < sizes.prod := prod_pos (forall_pos_of_index hin)
          by_cases hn : Fits64 n
          · obtain ⟨n', hn', hlong⟩ : ∃ n' ∈ sizes, ¬ Fits64 n' := by
              obtain ⟨n', hn', hlong⟩ := hlong
              exact ⟨n', List.mem_of_ne_of_mem (fun h => hlong (h ▸ hn)) hn', hlong⟩
            have hle : n' ≤ sizes.prod := Nat.le_of_dvd hinside (List.dvd_prod hn')
            have hhalf := wordModulus_le_two_mul hlong
            have hone : n < 2 := by
              by_contra hwide
              have := Nat.mul_le_mul (Nat.le_of_not_lt hwide) hle
              omega
            obtain rfl : i = 0 := by omega
            have hfirst : 1 * sizes.prod ≤ n * sizes.prod := Nat.mul_le_mul_right _ (by omega)
            obtain ⟨d, hd⟩ := ih (by omega) hfolds.2 ⟨n', hn', hlong⟩
            have hproduct : wrapped64 (0 : Nat) * s = 0 := Int.zero_mul s
            have hzero : Fits64 0 := by decide
            refine ⟨d, ?_⟩
            rw [wordDot, List.map_cons, List.zip_cons_cons, List.foldlM_cons,
              dotStep_of_fits (by rwa [hproduct]) (by rwa [hproduct, Int.zero_add]), hproduct]
            exact hd
          · have hhalf := wordModulus_le_two_mul hn
            have hone : sizes.prod = 1 := by
              by_contra hwide
              have := Nat.mul_le_mul (Nat.le_refl n) (show 2 ≤ sizes.prod by omega)
              omega
            have hstride : s = 1 := by
              rw [hfolds.1 (by unfold wordModulus at hhalf; omega), hone, Nat.cast_one]
            have hterm : Fits64 (wrapped64 i) := fits64_wrapped64 i
            refine ⟨wrapped64 i, ?_⟩
            rw [wordDot, List.map_cons, List.zip_cons_cons, List.foldlM_cons, hstride,
              dotStep_of_fits (by rwa [Int.mul_one]) (by rwa [Int.mul_one, Int.zero_add]),
              Int.mul_one, Int.zero_add]
            refine foldlM_of_zero hterm fun term h => ?_
            obtain ⟨j, hj, hzero⟩ := List.mem_map.1 (List.of_mem_zip h).1
            rw [← hzero, eq_zero_of_prod_eq_one hone hin j hj]
            rfl

/-- The steps to the last index of a shape, if every size is a signed word. -/
theorem mapM_lastIndex (hpos : ∀ n ∈ sizes, 0 < n) (hsmall : ∀ n ∈ sizes, Fits64 n) :
    sizes.mapM (fun (n : Nat) => (Overflow.signed (wrapped64 n - 1) : Option Int)) =
      some ((sizes.map (· - 1)).map fun (i : Nat) => (i : Int)) := by
  induction sizes with
  | nil => rfl
  | cons n sizes ih =>
      obtain ⟨hn, hpos⟩ := List.forall_mem_cons.1 hpos
      obtain ⟨hn64, hsmall⟩ := List.forall_mem_cons.1 hsmall
      have hstep : Overflow.signed (wrapped64 n - 1) = some ((n - 1 : Nat) : Int) := by
        have hle : ((n - 1 : Nat) : Int) ≤ n := Int.ofNat_le.2 (Nat.sub_le n 1)
        rw [wrapped64_of_fits hn64, ← Nat.cast_pred hn]
        exact checked64_of_fits (hn64.of_le (Int.natCast_nonneg _) hle)
      rw [List.mapM_cons, hstep, ih hpos hsmall]
      rfl

/-- The last element of a layout that does not stop the program has an exact offset, if every size
is a signed word. -/
theorem last_fits (hpos : ∀ n ∈ sizes, 0 < n) (hsmall : ∀ n ∈ sizes, Fits64 n) {k : Nat}
    (h : spanOf sizes strides = some k) : Fits64 (stridedOffset (sizes.map (· - 1)) strides) := by
  rw [spanOf, if_neg (not_contains_zero hpos), mapM_lastIndex hpos hsmall] at h
  obtain ⟨steps, hsteps, h⟩ := Option.bind_eq_some_iff.1 h
  obtain rfl := Option.some.inj hsteps
  obtain ⟨d, hd, -⟩ := Option.bind_eq_some_iff.1 h
  obtain ⟨rfl, hfits⟩ := eq_of_wordDot hd
  exact hfits

/-- Indices of a shape are signed words if its sizes are. -/
theorem fits64_of_index (hin : List.Forall₂ (· < ·) index sizes) (hsmall : ∀ n ∈ sizes, Fits64 n) :
    ∀ i ∈ index, Fits64 i := by
  induction hin with
  | nil => exact fun i hi => nomatch hi
  | cons hi _ ih =>
      obtain ⟨hn, hsmall⟩ := List.forall_mem_cons.1 hsmall
      refine List.forall_mem_cons.2 ⟨?_, ih hsmall⟩
      exact hn.of_le (Int.natCast_nonneg _) (Int.ofNat_le.2 (Nat.le_of_lt hi))

/-- With overflow checks every element of a contiguous tensor has a place. -/
theorem exists_placeOf (hstrides : ∀ s ∈ strides, 0 ≤ s) (hcount : sizes.prod < wordModulus)
    (hfolds : Folds sizes strides) (hspan : ∃ k : Nat, spanOf sizes strides = some k)
    (hin : List.Forall₂ (· < ·) index sizes) : ∃ k, placeOf index strides = some k := by
  suffices ∃ d : Int, wordDot ((index.map fun (i : Nat) => wrapped64 i).zip strides) = some d by
    obtain ⟨d, hd⟩ := this
    refine ⟨wordOf d, ?_⟩
    rw [placeOf, hd]
    rfl
  by_cases hsmall : ∀ n ∈ sizes, Fits64 n
  · obtain ⟨k, hspan⟩ := hspan
    have hlast := last_fits (forall_pos_of_index hin) hsmall hspan
    have hle : stridedOffset index strides ≤ stridedOffset (sizes.map (· - 1)) strides :=
      stridedOffset_mono hstrides
        (List.forall₂_map_right_iff.2 (hin.imp fun _ _ hi => Nat.le_sub_one_of_lt hi))
    have hfits := hlast.of_le (stridedOffset_nonneg hstrides index) hle
    have hexact : (index.map fun (i : Nat) => wrapped64 i) = index.map fun (i : Nat) => (i : Int) :=
      List.map_congr_left fun i hi => wrapped64_of_fits (fits64_of_index hin hsmall i hi)
    rw [hexact]
    exact ⟨_, wordDot_of_fits hstrides hfits⟩
  · simp only [not_forall] at hsmall
    obtain ⟨n, hn, hlong⟩ := hsmall
    exact exists_wordDot_of_long hcount hfolds hin ⟨n, hn, hlong⟩

namespace HostTensor

variable {m : Type → Type} [Monad m] [LawfulMonad m] [Overflow m]
variable {t : DataType} {storage : Array Float} {x : HostTensor}

/-- The element at an index lies in storage where the index comes in row-major order. -/
structure AtRowMajor (m : Type → Type) [Monad m] [Overflow m] (x : HostTensor)
    (index : List Nat) : Prop where
  /-- The exact sum of index times stride is the place of the index. -/
  offset : stridedOffset index x.strides = rowMajorIndex index x.sizes
  /-- What the program works out is that sum. -/
  place : placeOf index x.strides = (pure (rowMajorIndex index x.sizes) : m Nat)
  /-- The place is one of the storage. -/
  inside : rowMajorIndex index x.sizes < x.storage.size
  /-- The element is the one in that place. -/
  element : ∃ e, x.getIn index = (pure (some e) : m (Option Float)) ∧
    x.storage[rowMajorIndex index x.sizes]? = some e

/-- No index inside the sizes is refused. -/
theorem not_outside (h : List.Forall₂ (· < ·) index sizes) :
    ¬ (index.length ≠ sizes.length ∨
      (List.zipWith (fun i n => decide (i < n)) index sizes).contains false) := by
  rw [not_or, not_not]
  refine ⟨h.length_eq, ?_⟩
  induction h with
  | nil => exact Bool.false_ne_true
  | cons hi _ ih => simpa [hi] using ih

/-- An element is found where the program places it. -/
theorem AtRowMajor.of_place (hin : List.Forall₂ (· < ·) index x.sizes)
    (hoffset : stridedOffset index x.strides = rowMajorIndex index x.sizes)
    (hplace : placeOf index x.strides = (pure (rowMajorIndex index x.sizes) : m Nat))
    (hinside : rowMajorIndex index x.sizes < x.storage.size) : AtRowMajor m x index := by
  refine ⟨hoffset, hplace, hinside, _, ?_, Array.getElem?_eq_getElem hinside⟩
  rw [getIn, if_neg (not_outside hin), hplace, pure_bind, Array.getElem?_eq_getElem hinside]

/-- What the construction of a tensor with explicit strides checks, without overflow checks. -/
theorem of_strided_eq_ok (hx : strided t sizes strides storage = .ok x) :
    x = ⟨t, sizes, strides, storage.map t.round⟩ ∧ sizes.length = strides.length ∧
      (∀ s ∈ strides, 0 ≤ s) ∧ Id.run (spanOf sizes strides) ≤ storage.size := by
  unfold strided stridedIn at hx
  split at hx
  · cases hx
  · next hlength =>
      split at hx
      · cases hx
      · next hnegative =>
          dsimp only [bind] at hx
          split at hx
          · cases hx
          · next hshort =>
              cases hx
              refine ⟨rfl, not_not.1 hlength, fun s hs => ?_, Nat.le_of_not_lt hshort⟩
              exact Int.not_lt.1 fun h => hnegative (List.any_eq_true.2 ⟨s, hs, decide_eq_true h⟩)

/-- Contiguous dimensions fold into each other, if a word counts the elements. -/
theorem folds_of_isContiguousAt (hlength : x.sizes.length = x.strides.length)
    (hpos : ∀ n ∈ x.sizes, 0 < n) (hcount : x.sizes.prod < wordModulus)
    (h : ∀ dim < x.ndims, x.isContiguousAt dim = true) : Folds x.sizes x.strides := by
  refine folds_of_forall hlength hpos hcount fun dim hdim hwide => ?_
  have hflag := h dim hdim
  have hsome : Id.run (wordProduct x.sizes) ≠ 0 := by
    rw [run_wordProduct, Nat.mod_eq_of_lt hcount]
    exact Nat.ne_of_gt (prod_pos hpos)
  rw [isContiguousAt, isContiguousIn, if_neg (Nat.not_le.2 hwide)] at hflag
  dsimp only [bind, Id.run] at hflag
  split at hflag
  · next hempty => exact absurd hempty hsome
  · exact of_decide_eq_true hflag

/-- Without overflow checks a contiguous tensor is stored in row-major order, if a word counts its
elements. -/
theorem atRowMajor_of_count (hx : strided t sizes strides storage = .ok x)
    (hcontiguous : ∀ dim < x.ndims, x.isContiguousAt dim = true)
    (hcount : x.sizes.prod < wordModulus) (hin : List.Forall₂ (· < ·) index x.sizes) :
    AtRowMajor Id x index := by
  obtain ⟨rfl, hlength, -, hspan⟩ := of_strided_eq_ok hx
  have hpos := forall_pos_of_index hin
  have hfolds := folds_of_isContiguousAt hlength hpos hcount hcontiguous
  have hoffset := stridedOffset_eq_rowMajorIndex hlength hfolds hin
  have hlt := rowMajorIndex_lt hin
  have hplace := run_placeOf hoffset (Nat.lt_trans hlt hcount)
  refine AtRowMajor.of_place hin hoffset hplace ?_
  rw [run_spanOf hlength hpos hcount hfolds] at hspan
  rw [Array.size_map]
  exact Nat.lt_of_lt_of_le hlt hspan

/-- A build with overflow checks stops at a contiguous dimension with more than one element, if no
word counts the elements of the tensor. -/
theorem count_of_isContiguousIn (hin : List.Forall₂ (· < ·) index x.sizes)
    (h : ∀ dim < x.ndims, x.isContiguousIn dim = some true) : x.sizes.prod < wordModulus := by
  by_cases hwide : ∃ dim < x.ndims, 1 < x.sizes.getD dim 0
  · obtain ⟨dim, hdim, hwide⟩ := hwide
    have hflag := h dim hdim
    rw [isContiguousIn, if_neg (Nat.not_le.2 hwide)] at hflag
    obtain ⟨k, hk, -⟩ := Option.bind_eq_some_iff.1 hflag
    obtain ⟨rfl, hlt⟩ := eq_prod_of_wordProduct hk
    exact hlt
  · have hone : ∀ n ∈ x.sizes, n = 1 := by
      intro n hn
      obtain ⟨dim, hdim, rfl⟩ := List.getElem_of_mem hn
      have hle : x.sizes[dim] ≤ 1 := by
        rw [List.getElem_eq_getD 0]
        exact Nat.le_of_not_lt fun hlt => hwide ⟨dim, hdim, hlt⟩
      exact Nat.le_antisymm hle (forall_pos_of_index hin _ hn)
    rw [List.prod_eq_one hone]
    decide

/-- What the construction of a tensor with explicit strides checks, with overflow checks. -/
theorem of_stridedIn_eq_some (hx : stridedIn t sizes strides storage = some (.ok x)) :
    x = ⟨t, sizes, strides, storage.map t.round⟩ ∧ sizes.length = strides.length ∧
      (∀ s ∈ strides, 0 ≤ s) ∧ ∃ k, spanOf sizes strides = some k := by
  obtain ⟨hx', hlength, hstrides, -⟩ :=
    of_strided_eq_ok (Agrees.stridedIn t sizes strides storage _ hx)
  refine ⟨hx', hlength, hstrides, ?_⟩
  have hnegative : ¬ (strides.any fun s => decide (s < 0)) = true := by
    intro h
    obtain ⟨s, hs, hneg⟩ := List.any_eq_true.1 h
    exact absurd (of_decide_eq_true hneg) (Int.not_lt.2 (hstrides s hs))
  rw [stridedIn, if_neg (not_not.2 hlength), if_neg hnegative] at hx
  obtain ⟨k, hk, -⟩ := Option.bind_eq_some_iff.1 hx
  exact ⟨k, hk⟩

/-- Without overflow checks a tensor with more elements than a word counts passes for an empty one.
Here every index leads to the same place. -/
theorem strided_uncounted :
    ∃ x, strided .double [4294967296, 4294967296] [0, 0] #[0.0] = .ok x ∧
      (∀ dim < x.ndims, x.isContiguousAt dim = true) ∧
      List.Forall₂ (· < ·) [1, 0] x.sizes ∧
      stridedOffset [1, 0] x.strides ≠ rowMajorIndex [1, 0] x.sizes := by
  have hx : strided .double [4294967296, 4294967296] [0, 0] #[0.0] = .ok
      ⟨.double, [4294967296, 4294967296], [0, 0], Array.map DataType.double.round #[0.0]⟩ := by
    rfl
  exact ⟨_, hx, by decide, by decide, by decide⟩

end HostTensor

end FusionCompiler
