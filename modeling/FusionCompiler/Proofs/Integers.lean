import FusionCompiler.Host.Machine

/-!
# Reductions over the integers

Sums, products, maxima and minima of integers do not depend on the order in which
their operands are combined.  An initial value that an operator combines with
itself to itself again may enter more than once.

Main results:

- Theorem `BinaryOp.foldl_absorbing`: a fold that starts from a value into which the
  initial value has entered takes in another fold from the initial value.
-/

namespace FusionCompiler

/-- The operator of a reduction over integers; other operators keep their first operand. -/
def BinaryOp.onInts : BinaryOp → Int → Int → Int
  | .add, x, y => x + y
  | .mul, x, y => x * y
  | .max, x, y => Max.max x y
  | .min, x, y => Min.min x y
  | _, x, _ => x

namespace BinaryOp

variable {op : BinaryOp}

theorem commutative_onInts (h : op ∈ [.add, .mul, .max, .min]) : Std.Commutative op.onInts := by
  simp only [List.mem_cons, List.not_mem_nil, or_false] at h
  rcases h with rfl | rfl | rfl | rfl
  · exact ⟨Int.add_comm⟩
  · exact ⟨Int.mul_comm⟩
  · exact ⟨Int.max_comm⟩
  · exact ⟨Int.min_comm⟩

theorem associative_onInts (h : op ∈ [.add, .mul, .max, .min]) : Std.Associative op.onInts := by
  simp only [List.mem_cons, List.not_mem_nil, or_false] at h
  rcases h with rfl | rfl | rfl | rfl
  · exact ⟨Int.add_assoc⟩
  · exact ⟨Int.mul_assoc⟩
  · exact ⟨Int.max_assoc⟩
  · exact ⟨Int.min_assoc⟩

/-- A value into which the initial value has entered takes in a fold from the initial value as if
it were continued, and the initial value has entered the result. -/
theorem foldl_absorbing (h : op ∈ [.add, .mul, .max, .min]) {init a : Int}
    (ha : op.onInts a init = a) (xs : List Int) :
    op.onInts a (xs.foldl op.onInts init) = xs.foldl op.onInts a ∧
      op.onInts (xs.foldl op.onInts a) init = xs.foldl op.onInts a := by
  have hcomm := commutative_onInts h
  have hassoc := associative_onInts h
  have hfold : ∀ c d, op.onInts c (xs.foldl op.onInts d) = xs.foldl op.onInts (op.onInts c d) :=
    fun _ _ => List.foldl_assoc.symm
  refine ⟨?_, ?_⟩
  · rw [hfold, ha]
  · rw [hcomm.comm, hfold, hcomm.comm, ha]

end BinaryOp

namespace Arithmetic

/-- The arithmetic carries reductions out exactly over the integers. -/
structure Exact (A : Arithmetic Int) : Prop where
  round : ∀ t x, A.round t x = x
  binary : ∀ op ∈ [BinaryOp.add, .mul, .max, .min], ∀ x y integral,
    A.binary op x y integral = op.onInts x y

/-- Exact integers.  Of the operators, only those of reductions are carried out. -/
def integers : Arithmetic Int where
  zero := 0
  ofConstant := Constant.toInt
  round _ x := x
  isTrue := (· != 0)
  unary _ x := x
  binary op x y _ := op.onInts x y
  sample x := ⟨x, 0, 1⟩
  combine a _ := a

theorem exact_integers : Exact integers :=
  ⟨fun _ _ => rfl, fun _ _ _ _ _ => rfl⟩

end Arithmetic
end FusionCompiler
