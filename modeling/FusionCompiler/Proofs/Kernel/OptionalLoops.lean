import FusionCompiler.Proofs.Kernel.Runs

/-!
# Loops that may be empty

In a run every loop runs its body at least once.  A loop whose extent is known
only at launch may have no iteration at all; such a loop is a loop under the
condition that its extent is positive.  `Kernel.Stmt.optionalAll` puts chosen
loops under this condition, so that the runs of the result are the runs in which
the chosen loops may be passed over, each time anew.

Main results:

- Theorem `Kernel.Stmt.ops_optionalAll`: the operations stay the same.
- Theorem `Kernel.Stmt.optionalAll_never`: without a choice nothing changes.
-/

namespace FusionCompiler
namespace Kernel

/-- Whether a loop may have no iteration: the launch does not imply it, and its extent is no
literal. -/
def LoopHeader.mayBeEmpty (h : LoopHeader) : Bool :=
  !h.isLaunch && !h.extent.isLiteral

namespace Stmt

/-! ## Barriers that every run passes -/

mutual

/-- Whether the threads of a block meet whenever the statement runs; what happens under a condition
does not count. -/
def synchronizes : Stmt → Bool
  | .loop _ body => synchronizesAll body
  | .branch _ _ _ => false
  | .allocate _ => false
  | .barrier _ => true
  | .op o => o.synchronizes

/-- Whether the threads of a block meet whenever the statements run. -/
def synchronizesAll : List Stmt → Bool
  | [] => false
  | x :: rest => synchronizes x || synchronizesAll rest

end

theorem synchronizesAll_append (xs ys : List Stmt) :
    synchronizesAll (xs ++ ys) = (synchronizesAll xs || synchronizesAll ys) := by
  induction xs with
  | nil => rfl
  | cons x xs ih => simp only [List.cons_append, synchronizesAll, ih, Bool.or_assoc]

@[simp]
theorem synchronizesAll_singleton (x : Stmt) : synchronizesAll [x] = synchronizes x := by
  simp [synchronizesAll]

/-! ## Optional loops -/

mutual

/-- The statement with the chosen loops under the condition that their extent is positive. -/
def optional (may : LoopHeader → List Stmt → Bool) : Stmt → Stmt
  | .loop h body =>
    let l := .loop h (optionalAll may body)
    if may h body then .branch (.binary .lt .zero h.extent) [l] [] else l
  | .branch c yes no => .branch c (optionalAll may yes) (optionalAll may no)
  | .allocate a => .allocate a
  | .barrier afterRead => .barrier afterRead
  | .op o => .op o

/-- The statements with the chosen loops under the condition that their extent is positive. -/
def optionalAll (may : LoopHeader → List Stmt → Bool) : List Stmt → List Stmt
  | [] => []
  | x :: rest => optional may x :: optionalAll may rest

end

variable {may : LoopHeader → List Stmt → Bool}

theorem optionalAll_append (xs ys : List Stmt) :
    optionalAll may (xs ++ ys) = optionalAll may xs ++ optionalAll may ys := by
  induction xs with
  | nil => rfl
  | cons x xs ih => simp only [List.cons_append, optionalAll, ih]

/-- An optional loop is passed over or runs. -/
theorem runs_optional_loop {h : LoopHeader} {body : List Stmt} {t : List Event}
    (hrun : Runs (optional may (.loop h body)) t) :
    (may h body = true ∧ t = []) ∨ Runs (.loop h (optionalAll may body)) t := by
  rw [optional] at hrun
  split at hrun
  case isTrue hmay =>
      cases hrun with
      | yes hyes => exact .inr (runsAll_singleton.1 hyes)
      | no hno => exact .inl ⟨hmay, runsAll_nil.1 hno⟩
  case isFalse => exact .inr hrun

mutual

theorem ops_optional : ∀ x : Stmt, ops [optional may x] = ops [x]
  | .loop h body => by
      rw [optional]
      split
      · simp [ops_optionalAll body]
      · simp [ops_optionalAll body]
  | .branch _ yes no => by simp [optional, ops_optionalAll yes, ops_optionalAll no]
  | .allocate _ => rfl
  | .barrier _ => rfl
  | .op _ => rfl

/-- Optional loops have the operations that they had. -/
theorem ops_optionalAll : ∀ xs : List Stmt, ops (optionalAll may xs) = ops xs
  | [] => rfl
  | x :: xs => by
      rw [optionalAll, ops_cons, ops_optional x, ops_optionalAll xs, ← ops_cons]

end

mutual

theorem optional_never : ∀ x : Stmt, optional (fun _ _ => false) x = x
  | .loop _ body => by simp [optional, optionalAll_never body]
  | .branch _ yes no => by simp [optional, optionalAll_never yes, optionalAll_never no]
  | .allocate _ => rfl
  | .barrier _ => rfl
  | .op _ => rfl

/-- Without a choice nothing becomes optional. -/
theorem optionalAll_never : ∀ xs : List Stmt, optionalAll (fun _ _ => false) xs = xs
  | [] => rfl
  | x :: xs => by rw [optionalAll, optional_never x, optionalAll_never xs]

end

end Stmt
end Kernel
end FusionCompiler
