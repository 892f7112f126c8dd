import Mathlib.Algebra.BigOperators.Group.List.Basic
import Mathlib.Data.Int.ModEq
import FusionCompiler.Operator

/-!
# Machine words

Integers of a program live in 64-bit words.  Where a step of arithmetic is checked,
its result is exact or there is none.  Where it is not, the word keeps the remainder
of the exact result, which is the result itself if it fits.

Main results:

- Theorem `wrapped64_of_fits`: a word keeps what it can hold.
- Theorem `BinaryOp.roundedUp_of_fits`: a quotient is rounded up exactly if the sum
  behind it fits.
- Theorems `run_wordProduct` and `eq_prod_of_wordProduct`: a product of words is the
  remainder of the exact product, and in a build with overflow checks the product
  itself.
- Definition `Agrees`: the two builds agree wherever the one with checks does not stop.
-/

namespace FusionCompiler

/-! ## Signed words -/

/-- The number is a signed 64-bit integer. -/
def Fits64 (n : Int) : Prop :=
  int64Range.least ≤ n ∧ n ≤ int64Range.greatest

instance (n : Int) : Decidable (Fits64 n) :=
  inferInstanceAs (Decidable (_ ∧ _))

/-- A checked result that fits is returned. -/
theorem checked64_of_fits {n : Int} (h : Fits64 n) : checked64 n = some n :=
  if_pos h

/-- A checked result is the exact one. -/
theorem eq_of_checked64 {n m : Int} (h : checked64 n = some m) : m = n := by
  unfold checked64 at h
  split at h
  · exact (Option.some.inj h).symm
  · cases h

/-- A checked result fits. -/
theorem fits64_of_checked64 {n m : Int} (h : checked64 n = some m) : Fits64 n := by
  unfold checked64 at h
  split at h
  case isTrue hfits => exact hfits
  case isFalse => cases h

/-- A number between zero and a 64-bit integer is a 64-bit integer. -/
theorem Fits64.of_le {m n : Int} (hn : Fits64 n) (h₀ : 0 ≤ m) (h : m ≤ n) : Fits64 m := by
  refine ⟨Int.le_trans ?_ h₀, Int.le_trans h hn.2⟩
  decide

/-- A word keeps an integer that it holds. -/
theorem wrapped64_of_fits {n : Int} (h : Fits64 n) : wrapped64 n = n := by
  unfold Fits64 int64Range at h
  dsimp only at h
  exact Int.bmod_eq_of_le_mul_two (by unfold wordModulus; omega) (by unfold wordModulus; omega)

/-- A checked step and an unchecked one have the same result, if the checked one has any. -/
theorem wrapped64_of_checked64 {n m : Int} (h : checked64 n = some m) : wrapped64 n = m := by
  rw [wrapped64_of_fits (fits64_of_checked64 h), eq_of_checked64 h]

/-- What a word keeps is a word. -/
theorem fits64_wrapped64 (n : Int) : Fits64 (wrapped64 n) := by
  have hpos : 0 < wordModulus := by decide
  have hlow := Int.le_bmod hpos (x := n)
  have hhigh := Int.bmod_lt hpos (x := n)
  unfold wrapped64 Fits64 int64Range wordModulus at *
  dsimp only
  omega

/-- A word keeps the remainder of an integer. -/
theorem wrapped64_modEq (n : Int) : wrapped64 n ≡ n [ZMOD wordModulus] :=
  Int.bmod_emod

/-- A word keeps the same of integers with the same remainder. -/
theorem wrapped64_congr {m n : Int} (h : m ≡ n [ZMOD wordModulus]) : wrapped64 m = wrapped64 n := by
  rw [wrapped64, wrapped64, ← Int.emod_bmod m, h.eq, Int.emod_bmod]

/-- A step of an unchecked build keeps the remainder. -/
theorem run_signed (n : Int) : Id.run (Overflow.signed n) = wrapped64 n :=
  rfl

/-! ## Quotients rounded up -/

/-- Over one there is nothing to round. -/
@[simp]
theorem BinaryOp.roundedUp_one (m : Int) : roundedUp m 1 = m :=
  if_pos rfl

/-- A quotient is rounded up exactly if the sum behind it is a 64-bit integer. -/
theorem BinaryOp.roundedUp_of_fits {m n : Int} (h : Fits64 (m + n - 1)) :
    roundedUp m n = (m + n - 1) / n := by
  unfold roundedUp
  split
  case isTrue hone => rw [hone, Int.add_sub_cancel, Int.ediv_one]
  case isFalse => rw [wrapped64_of_fits h]

/-! ## Unsigned words -/

/-- The unsigned word of an integer is the number below the modulus with the same remainder. -/
theorem wordOf_eq {n : Int} {k : Nat} (h : n ≡ k [ZMOD wordModulus]) (hk : k < wordModulus) :
    wordOf n = k := by
  have hrem : n % wordModulus = k := by
    rw [h.eq, Int.emod_eq_of_lt (Int.natCast_nonneg k) (Int.ofNat_lt.2 hk)]
  rw [wordOf, hrem, Int.toNat_natCast]

/-- A product of words is the remainder of the exact product. -/
theorem run_wordProduct (ns : List Nat) :
    Id.run (wordProduct ns) = ns.prod % wordModulus := by
  have hfold : ∀ (ns : List Nat) (k : Nat), k < wordModulus →
      Id.run (ns.foldlM (fun product n => Overflow.unsigned (product * n)) k) =
        k * ns.prod % wordModulus := by
    intro ns
    induction ns with
    | nil =>
        intro k hk
        rw [List.prod_nil, Nat.mul_one, Nat.mod_eq_of_lt hk]
        rfl
    | cons n ns ih =>
        intro k _
        rw [List.foldlM_cons, List.prod_cons, ← Nat.mul_assoc, ← Nat.mod_mul_mod]
        exact ih _ (Nat.mod_lt _ (by decide))
  exact (hfold ns 1 (by decide)).trans (by rw [Nat.one_mul])

/-- In a build with overflow checks a product of words is the exact product, which is a word. -/
theorem eq_prod_of_wordProduct {ns : List Nat} {k : Nat} (h : wordProduct ns = some k) :
    k = ns.prod ∧ k < wordModulus := by
  have hfold : ∀ (ns : List Nat) (j : Nat), j < wordModulus →
      ns.foldlM (fun product n => (Overflow.unsigned (product * n) : Option Nat)) j = some k →
        k = j * ns.prod ∧ k < wordModulus := by
    intro ns
    induction ns with
    | nil =>
        intro j hj h
        cases h
        exact ⟨by rw [List.prod_nil, Nat.mul_one], hj⟩
    | cons n ns ih =>
        intro j _ h
        rw [List.foldlM_cons] at h
        obtain ⟨i, hi, h⟩ := Option.bind_eq_some_iff.1 h
        obtain ⟨hlt, hi⟩ := Option.ite_none_right_eq_some.1 hi
        cases hi
        rw [List.prod_cons, ← Nat.mul_assoc]
        exact ih _ hlt h
  obtain ⟨hk, hlt⟩ := hfold ns 1 (by decide) h
  exact ⟨hk.trans (Nat.one_mul _), hlt⟩

/-! ## Builds with and without overflow checks -/

variable {α β : Type}

/-- A result that a build with overflow checks comes to is the result of the one without them. -/
def Agrees (checked : Option α) (unchecked : Id α) : Prop :=
  ∀ a, checked = some a → Id.run unchecked = a

namespace Agrees

/-- What takes no arithmetic is the same in both builds. -/
theorem pure (a : α) : Agrees (Pure.pure a) (Pure.pure a) := by
  intro b h
  cases h
  rfl

/-- Two steps one after the other agree if each does. -/
theorem bind {checked : Option α} {unchecked : Id α} {f : α → Option β} {g : α → Id β}
    (h : Agrees checked unchecked) (hf : ∀ a, Agrees (f a) (g a)) :
    Agrees (checked >>= f) (unchecked >>= g) := by
  intro b hb
  obtain ⟨a, ha, hb⟩ := Option.bind_eq_some_iff.1 hb
  obtain rfl := h a ha
  exact hf _ b hb

/-- A choice agrees if both sides do. -/
theorem ite {c : Prop} [Decidable c] {checked checked' : Option α} {unchecked unchecked' : Id α}
    (h : Agrees checked unchecked) (h' : Agrees checked' unchecked') :
    Agrees (if c then checked else checked') (if c then unchecked else unchecked') := by
  split
  · exact h
  · exact h'

/-- A signed step that is checked keeps the whole result. -/
theorem signed (n : Int) : Agrees (Overflow.signed n) (Overflow.signed n) :=
  fun _ => wrapped64_of_checked64

/-- An unsigned step that is checked keeps the whole result. -/
theorem unsigned (n : Nat) : Agrees (Overflow.unsigned n) (Overflow.unsigned n) := by
  intro k h
  obtain ⟨hlt, hk⟩ := Option.ite_none_right_eq_some.1 h
  cases hk
  exact Nat.mod_eq_of_lt hlt

/-- A loop agrees if each round does. -/
theorem foldlM {f : β → α → Option β} {g : β → α → Id β} (h : ∀ b a, Agrees (f b a) (g b a))
    (as : List α) (b : β) : Agrees (as.foldlM f b) (as.foldlM g b) := by
  induction as generalizing b with
  | nil => exact Agrees.pure b
  | cons a as ih =>
      rw [List.foldlM_cons, List.foldlM_cons]
      exact (h b a).bind ih

/-- What is worked out member by member agrees if each member does. -/
theorem mapM {f : α → Option β} {g : α → Id β} (h : ∀ a, Agrees (f a) (g a)) (as : List α) :
    Agrees (as.mapM f) (as.mapM g) := by
  induction as with
  | nil => exact Agrees.pure []
  | cons a as ih =>
      rw [List.mapM_cons, List.mapM_cons]
      exact (h a).bind fun b => ih.bind fun bs => Agrees.pure (b :: bs)

/-- Products of words agree. -/
theorem wordProduct (ns : List Nat) :
    Agrees (FusionCompiler.wordProduct ns) (FusionCompiler.wordProduct ns) :=
  foldlM (fun product n => unsigned (product * n)) ns 1

end Agrees

end FusionCompiler
