import Mathlib.Tactic.Common
import FusionCompiler.Lower.Barrier

/-!
# Runs of statements

A run of statements is the list of what happens: operations are carried out, and
the threads of a block meet at barriers.  A loop of the launch runs its body once
in each thread, every other loop at least once, and a conditional takes one of
its two sides.

Two operations conflict when one of them writes a shared buffer that the other
one reads.  A run is synchronized when a barrier lies between any two operations
that conflict.  Whether this holds of two runs, one behind the other, depends on
the operations behind the last barrier of the first run and on those before the
first barrier of the second one.

Main results:

- Theorem `Kernel.Stmt.runsAll_append`: a run of joined statements is a run of
  the first ones and a run of the second ones.
- Theorem `Kernel.Stmt.runsAll_onceAll`: all statements have a run.
- Theorem `Kernel.synchronized_append`: joined runs are synchronized if both are
  and no operation conflicts across the seam.
- Theorem `Kernel.Synchronized.barrier_mem`: between operations that conflict, a
  synchronized run has a barrier.
-/

namespace FusionCompiler
namespace Kernel

/-- What happens in a run. -/
inductive Event where
  /-- An operation is carried out. -/
  | op (o : Op)
  /-- The threads of a block meet. -/
  | barrier

/-- What happens when an operation is carried out; cooperating threads meet behind their own
accesses. -/
def Op.events (o : Op) : List Event :=
  if o.synchronizes then [.op o, .barrier] else [.op o]

mutual

/-- The runs of a statement. -/
inductive Stmt.Runs : Stmt → List Event → Prop where
  /-- A loop runs its body at least once, and exactly once if it is implied by the launch or its
  extent is the literal one. -/
  | loop {h : LoopHeader} {body : List Stmt} {rounds : List (List Event)} (hsome : rounds ≠ [])
      (honce : h.isLaunch = true ∨ h.extent = .int 1 → rounds.length = 1)
      (hrounds : ∀ r ∈ rounds, Stmt.RunsAll body r) : Stmt.Runs (.loop h body) rounds.flatten
  | yes {c : Scalar} {yes no : List Stmt} {t : List Event} (h : Stmt.RunsAll yes t) :
      Stmt.Runs (.branch c yes no) t
  | no {c : Scalar} {yes no : List Stmt} {t : List Event} (h : Stmt.RunsAll no t) :
      Stmt.Runs (.branch c yes no) t
  | allocate (a : Allocation) : Stmt.Runs (.allocate a) []
  | barrier (afterRead : Bool) : Stmt.Runs (.barrier afterRead) [.barrier]
  | op (o : Op) : Stmt.Runs (.op o) o.events

/-- The runs of statements, one behind the other. -/
inductive Stmt.RunsAll : List Stmt → List Event → Prop where
  | nil : Stmt.RunsAll [] []
  | cons {x : Stmt} {rest : List Stmt} {t t' : List Event} (hx : Stmt.Runs x t)
      (hrest : Stmt.RunsAll rest t') : Stmt.RunsAll (x :: rest) (t ++ t')

end

namespace Stmt

variable {x : Stmt} {xs ys : List Stmt} {t : List Event}

/-- No statement runs through nothing. -/
theorem runsAll_nil : RunsAll [] t ↔ t = [] := by
  constructor
  · intro h
    cases h
    rfl
  · rintro rfl
    exact .nil

/-- A run of one statement. -/
theorem runsAll_singleton : RunsAll [x] t ↔ Runs x t := by
  constructor
  · intro h
    cases h with
    | cons hx hrest =>
        rw [runsAll_nil.1 hrest, List.append_nil]
        exact hx
  · intro h
    simpa using RunsAll.cons h .nil

/-- A run of joined statements is a run of the first ones and a run of the second ones. -/
theorem runsAll_append :
    RunsAll (xs ++ ys) t ↔ ∃ t₁ t₂, t = t₁ ++ t₂ ∧ RunsAll xs t₁ ∧ RunsAll ys t₂ := by
  induction xs generalizing t with
  | nil =>
      simp only [List.nil_append, runsAll_nil]
      constructor
      · intro h
        exact ⟨[], t, rfl, rfl, h⟩
      · rintro ⟨_, t₂, rfl, rfl, h⟩
        exact h
  | cons x xs ih =>
      constructor
      · intro h
        cases h with
        | cons hx hrest =>
            obtain ⟨t₁, t₂, rfl, h₁, h₂⟩ := ih.1 hrest
            exact ⟨_, t₂, (List.append_assoc _ _ _).symm, .cons hx h₁, h₂⟩
      · rintro ⟨_, t₂, rfl, h₁, h₂⟩
        cases h₁ with
        | cons hx hrest =>
            rw [List.append_assoc]
            exact .cons hx (ih.2 ⟨_, t₂, rfl, hrest, h₂⟩)

/-- Flattening goes through both parts. -/
theorem flattenAll_append (xs ys : List Stmt) :
    flattenAll (xs ++ ys) = flattenAll xs ++ flattenAll ys := by
  induction xs with
  | nil => rfl
  | cons x xs ih => simp only [List.cons_append, flattenAll, ih, List.append_assoc]

/-- The operations in sequence. -/
theorem ops_append (xs ys : List Stmt) : ops (xs ++ ys) = ops xs ++ ops ys := by
  unfold ops
  rw [flattenAll_append, List.filterMap_append]

/-- The operations of the first statement and of the others. -/
theorem ops_cons (x : Stmt) (xs : List Stmt) : ops (x :: xs) = ops [x] ++ ops xs :=
  ops_append [x] xs

/-- No statement has no operation. -/
@[simp]
theorem ops_nil : ops [] = [] :=
  rfl

/-- An operation is one. -/
@[simp]
theorem ops_op (o : Op) : ops [.op o] = [o] :=
  rfl

/-- A barrier is no operation. -/
@[simp]
theorem ops_barrier (afterRead : Bool) : ops [.barrier afterRead] = [] :=
  rfl

/-- A loop has the operations of its body. -/
@[simp]
theorem ops_loop (h : LoopHeader) (body : List Stmt) : ops [.loop h body] = ops body := by
  simp [ops, flattenAll, flatten, List.filterMap_cons, op?]

/-- A conditional has the operations of its sides. -/
@[simp]
theorem ops_branch (c : Scalar) (yes no : List Stmt) :
    ops [.branch c yes no] = ops yes ++ ops no := by
  simp [ops, flattenAll, flatten, List.filterMap_cons, op?]

/-- The events of an operation are those of this one. -/
theorem mem_events {o o' : Op} (h : Event.op o ∈ o'.events) : o = o' := by
  unfold Op.events at h
  split at h
  · simpa using h
  · simpa using h

mutual

/-- A run of a statement carries out its own operations only. -/
theorem Runs.mem_ops {o : Op} : ∀ {x : Stmt} {t : List Event}, Runs x t → .op o ∈ t → o ∈ ops [x]
  | .loop h body, _, .loop _ _ hrounds, ho => by
      obtain ⟨r, hr, ho⟩ := List.mem_flatten.1 ho
      rw [ops_loop]
      exact RunsAll.mem_ops (hrounds r hr) ho
  | .branch _ _ _, _, .yes h, ho => by
      rw [ops_branch]
      exact List.mem_append_left _ (RunsAll.mem_ops h ho)
  | .branch _ _ _, _, .no h, ho => by
      rw [ops_branch]
      exact List.mem_append_right _ (RunsAll.mem_ops h ho)
  | .allocate _, _, .allocate _, ho => by simp at ho
  | .barrier _, _, .barrier _, ho => by simp at ho
  | .op o', _, .op _, ho => by simp [mem_events ho]

/-- A run of statements carries out their own operations only. -/
theorem RunsAll.mem_ops {o : Op} :
    ∀ {xs : List Stmt} {t : List Event}, RunsAll xs t → .op o ∈ t → o ∈ ops xs
  | [], _, .nil, ho => by simp at ho
  | _ :: _, _, .cons hx hrest, ho => by
      rw [ops_cons]
      rcases List.mem_append.1 ho with ho | ho
      · exact List.mem_append_left _ (Runs.mem_ops hx ho)
      · exact List.mem_append_right _ (RunsAll.mem_ops hrest ho)

end

end Stmt

/-! ## A run of every statement -/

namespace Stmt

mutual

/-- What happens if every loop runs its body once and every condition holds. -/
def once : Stmt → List Event
  | .loop _ body => onceAll body
  | .branch _ yes _ => onceAll yes
  | .allocate _ => []
  | .barrier _ => [.barrier]
  | .op o => o.events

/-- What happens if every loop in the statements runs once and every condition holds. -/
def onceAll : List Stmt → List Event
  | [] => []
  | x :: rest => once x ++ onceAll rest

end

mutual

/-- Every statement has a run in which each loop is run once. -/
theorem runs_once : ∀ x : Stmt, Runs x x.once
  | .loop h body => by
      have hrun : Runs (.loop h body) [onceAll body].flatten :=
        .loop (by simp) (fun _ => rfl) (by simpa using runsAll_onceAll body)
      simpa [once] using hrun
  | .branch _ yes _ => by
      rw [once]
      exact .yes (runsAll_onceAll yes)
  | .allocate a => by
      rw [once]
      exact .allocate a
  | .barrier afterRead => by
      rw [once]
      exact .barrier afterRead
  | .op o => by
      rw [once]
      exact .op o

/-- Statements have a run in which every loop runs once. -/
theorem runsAll_onceAll : ∀ xs : List Stmt, RunsAll xs (onceAll xs)
  | [] => by
      rw [onceAll]
      exact .nil
  | x :: rest => by
      rw [onceAll]
      exact .cons (runs_once x) (runsAll_onceAll rest)

end

end Stmt

/-! ## Barriers between conflicting operations -/

/-- The operation is carried out before the first barrier of a run. -/
def Starts : List Event → Op → Prop
  | [], _ => False
  | .barrier :: _, _ => False
  | .op o' :: t, o => o' = o ∨ Starts t o

/-- The operation is carried out behind the last barrier of a run. -/
def Ends : List Event → Op → Prop
  | [], _ => False
  | .barrier :: t, o => Ends t o
  | .op o' :: t, o => Ends t o ∨ (o' = o ∧ .barrier ∉ t)

/-- One of two operations writes a shared buffer that the other one reads. -/
def Conflict (storage : ValueId → Option ValueId) (o o' : Op) : Prop :=
  ∃ b, (b ∈ (Accesses.ofOp storage o).writes ∧ b ∈ (Accesses.ofOp storage o').reads) ∨
    (b ∈ (Accesses.ofOp storage o).reads ∧ b ∈ (Accesses.ofOp storage o').writes)

/-- No operation conflicts with one that follows it before the next barrier. -/
def Synchronized (storage : ValueId → Option ValueId) : List Event → Prop
  | [] => True
  | .barrier :: t => Synchronized storage t
  | .op o :: t => (∀ o', Starts t o' → ¬ Conflict storage o o') ∧ Synchronized storage t

section Traces

variable {storage : ValueId → Option ValueId} {t t' : List Event} {o : Op}

/-- What may come first in a sequence: what comes first in its first part, or what does in the
second part if the first one has no barrier. -/
theorem starts_append : Starts (t ++ t') o ↔ Starts t o ∨ (.barrier ∉ t ∧ Starts t' o) := by
  induction t with
  | nil => simp [Starts]
  | cons x t ih =>
      cases x with
      | op o' => simp [Starts, ih, or_assoc]
      | barrier => simp [Starts]

/-- What may come last in a sequence: what comes last in its second part, or what does in the first
part if the second one has no barrier. -/
theorem ends_append : Ends (t ++ t') o ↔ Ends t' o ∨ (.barrier ∉ t' ∧ Ends t o) := by
  induction t with
  | nil => simp [Ends]
  | cons x t ih =>
      cases x with
      | op o' =>
          simp only [List.cons_append, Ends, ih, List.mem_append, not_or]
          tauto
      | barrier =>
          simp only [List.cons_append, Ends, ih]

/-- What comes first occurs. -/
theorem Starts.mem (h : Starts t o) : .op o ∈ t := by
  induction t with
  | nil => exact h.elim
  | cons x t ih =>
      cases x with
      | op o' =>
          rcases h with rfl | h
          · exact List.mem_cons_self
          · exact List.mem_cons_of_mem _ (ih h)
      | barrier => exact h.elim

/-- What comes last occurs. -/
theorem Ends.mem (h : Ends t o) : .op o ∈ t := by
  induction t with
  | nil => exact h.elim
  | cons x t ih =>
      cases x with
      | op o' =>
          rcases h with h | ⟨rfl, -⟩
          · exact List.mem_cons_of_mem _ (ih h)
          · exact List.mem_cons_self
      | barrier => exact List.mem_cons_of_mem _ (ih h)

/-- Joined runs are synchronized if both are and no operation conflicts across the seam. -/
theorem synchronized_append : Synchronized storage (t ++ t') ↔
    Synchronized storage t ∧ Synchronized storage t' ∧
      ∀ o o', Ends t o → Starts t' o' → ¬ Conflict storage o o' := by
  induction t with
  | nil => simp [Synchronized, Ends]
  | cons x t ih =>
      cases x with
      | op o' =>
          simp only [List.cons_append, Synchronized, ih, starts_append, Ends]
          constructor
          · rintro ⟨hstarts, hsync, hsync', hseam⟩
            refine ⟨⟨fun u hu => hstarts u (.inl hu), hsync⟩, hsync', fun u w hu hw => ?_⟩
            rcases hu with hu | ⟨rfl, hnone⟩
            · exact hseam u w hu hw
            · exact hstarts w (.inr ⟨hnone, hw⟩)
          · rintro ⟨⟨hstarts, hsync⟩, hsync', hseam⟩
            refine ⟨fun u hu => ?_, hsync, hsync', fun u w hu hw => hseam u w (.inl hu) hw⟩
            rcases hu with hu | ⟨hnone, hu⟩
            · exact hstarts u hu
            · exact hseam o' u (.inr ⟨rfl, hnone⟩) hu
      | barrier => simpa [Synchronized, Ends] using ih

/-- Between operations that conflict, a synchronized run has a barrier. -/
theorem Synchronized.barrier_mem {before between after : List Event} {o' : Op}
    (h : Synchronized storage (before ++ .op o :: between ++ .op o' :: after))
    (hconflict : Conflict storage o o') : .barrier ∈ between := by
  rw [List.append_assoc, synchronized_append] at h
  obtain ⟨hstarts, -⟩ := h.2.1
  by_contra hnone
  exact hstarts o' (starts_append.2 (.inr ⟨hnone, .inl rfl⟩)) hconflict

end Traces

end Kernel
end FusionCompiler
