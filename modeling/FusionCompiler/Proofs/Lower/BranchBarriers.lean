import Mathlib.Data.List.Pairwise
import FusionCompiler.Proofs.Lower.Barriers

/-!
# Barriers under conditions

From outside a conditional counts as one access, but each of its sides is passed
over as well, by itself and from a fresh state.  So a side gets a barrier of its
own when it needs one: between a store into a shared buffer and a load from it,
for instance.  Threads that do not take this side never meet the others there.

Main results:

- Theorem `Kernel.barrierFree_branches_iff`: the sides of all conditionals stay
  without barriers exactly if nothing is inserted into any of them.
- Theorem `Kernel.branches_bracketed`: nothing is inserted into sides whose
  operations do not conflict, and something is inserted into some side if a run of
  a side is not synchronized.
- Theorem `Kernel.guardedStage_diverges`: a side that stores into a shared buffer
  and loads from it gets a barrier.
-/

namespace FusionCompiler
namespace Kernel

variable {storage : ValueId → Option ValueId}

/-! ## Statements without barriers -/

namespace Stmt

/-- There is no barrier in the statements, at any depth. -/
def BarrierFree (body : List Stmt) : Prop :=
  ∀ afterRead, .barrier afterRead ∉ flattenAll body

/-- The two sides of a conditional. -/
def sides : Stmt → List (List Stmt)
  | .branch _ yes no => [yes, no]
  | _ => []

/-- The sides of all conditionals, at any depth. -/
def branches (body : List Stmt) : List (List Stmt) :=
  (flattenAll body).flatMap sides

variable {xs ys b : List Stmt} {x : Stmt}

/-- A program without barriers is made of parts without barriers. -/
theorem barrierFree_append : BarrierFree (xs ++ ys) ↔ BarrierFree xs ∧ BarrierFree ys := by
  simp only [BarrierFree, flattenAll_append, List.mem_append, not_or, forall_and]

/-- The first statement and the others. -/
theorem barrierFree_cons : BarrierFree (x :: xs) ↔ BarrierFree [x] ∧ BarrierFree xs := by
  rw [← List.singleton_append, barrierFree_append]

/-- No statement is no barrier. -/
@[simp]
theorem barrierFree_nil : BarrierFree [] := by
  simp [BarrierFree, flattenAll]

/-- An operation is no barrier. -/
@[simp]
theorem barrierFree_op (o : Op) : BarrierFree [.op o] := by
  simp [BarrierFree, flattenAll, flatten]

/-- An allocation is no barrier. -/
@[simp]
theorem barrierFree_allocate (a : Allocation) : BarrierFree [.allocate a] := by
  simp [BarrierFree, flattenAll, flatten]

/-- A barrier is one. -/
@[simp]
theorem not_barrierFree_barrier (afterRead : Bool) : ¬ BarrierFree [.barrier afterRead] := by
  simp [BarrierFree, flattenAll, flatten]

/-- A loop has the barriers of its body. -/
@[simp]
theorem barrierFree_loop (h : LoopHeader) : BarrierFree [.loop h xs] ↔ BarrierFree xs := by
  simp [BarrierFree, flattenAll, flatten]

/-- A conditional has the barriers of its sides. -/
@[simp]
theorem barrierFree_branch (c : Scalar) :
    BarrierFree [.branch c xs ys] ↔ BarrierFree xs ∧ BarrierFree ys := by
  simp [BarrierFree, flattenAll, flatten, forall_and]

/-- The sides in a program are those in its parts. -/
theorem branches_append : branches (xs ++ ys) = branches xs ++ branches ys := by
  simp only [branches, flattenAll_append, List.flatMap_append]

/-- The sides in the first statement and in the others. -/
theorem branches_cons (x : Stmt) : branches (x :: xs) = branches [x] ++ branches xs := by
  rw [← branches_append, List.singleton_append]

/-- A loop has the sides of its body. -/
@[simp]
theorem branches_loop (h : LoopHeader) : branches [.loop h xs] = branches xs := by
  simp [branches, flattenAll, flatten, sides]

/-- A conditional has its own sides and those inside them. -/
@[simp]
theorem branches_branch (c : Scalar) :
    branches [.branch c xs ys] = xs :: ys :: (branches xs ++ branches ys) := by
  simp [branches, flattenAll, flatten, sides]

/-- A barrier has no sides. -/
@[simp]
theorem branches_barrier (afterRead : Bool) : branches [.barrier afterRead] = [] :=
  rfl

end Stmt

open Stmt

/-! ## What the pass does to the sides of conditionals -/

/-- Protecting an access adds no sides. -/
theorem branches_protect (s : BarrierState) (a : Accesses) : branches (s.protect a).1 = [] := by
  unfold BarrierState.protect
  split
  · rfl
  · rfl

mutual

/-- Whether sides end up without barriers does not depend on the state that the pass is in, as each
side is processed from a fresh state. -/
theorem barrierFree_branches_withBarriers : ∀ (x : Stmt) (s : BarrierState),
    (∀ b ∈ branches (x.withBarriers storage s).1, BarrierFree b) ↔
      ∀ b ∈ branches [x], BarrierFree (withBarriersAll storage b {}).1
  | .barrier _, _ => by simp [Stmt.withBarriers]
  | .allocate _, _ => by simp [Stmt.withBarriers, branches, flattenAll, flatten, sides]
  | .op _, s => by
      rw [Stmt.withBarriers]
      dsimp only
      rw [branches_append, branches_protect]
      simp [branches, flattenAll, flatten, sides]
  | .loop _ body, s => by
      have hbody := barrierFree_branches_withBarriersAll body s.enterLoop
      rw [Stmt.withBarriers]
      dsimp only
      split
      · simpa [branches_append] using hbody
      · simpa using hbody
  | .branch _ yes no, s => by
      have hyes := barrierFree_branches_withBarriersAll yes {}
      have hno := barrierFree_branches_withBarriersAll no {}
      rw [Stmt.withBarriers]
      dsimp only
      rw [branches_append, branches_protect]
      simp only [List.nil_append, branches_branch, List.forall_mem_cons, List.forall_mem_append,
        hyes, hno]

/-- The sides of the conditionals in statements stay without barriers exactly if nothing is
inserted into any of them. -/
theorem barrierFree_branches_withBarriersAll : ∀ (xs : List Stmt) (s : BarrierState),
    (∀ b ∈ branches (withBarriersAll storage xs s).1, BarrierFree b) ↔
      ∀ b ∈ branches xs, BarrierFree (withBarriersAll storage b {}).1
  | [], s => by simp [Stmt.withBarriersAll, branches, flattenAll]
  | x :: xs, s => by
      rw [Stmt.withBarriersAll]
      dsimp only
      rw [branches_append, branches_cons]
      simp only [List.forall_mem_append]
      rw [barrierFree_branches_withBarriers x s, barrierFree_branches_withBarriersAll xs]

end

/-- The sides of all conditionals stay without barriers exactly if nothing is inserted into any of
them. -/
theorem barrierFree_branches_iff {body : List Stmt} :
    (∀ b ∈ branches (insertBarriers storage body), BarrierFree b) ↔
      ∀ b ∈ branches body, BarrierFree (withBarriersAll storage b {}).1 :=
  barrierFree_branches_withBarriersAll body {}

/-- Protecting an access adds barriers only. -/
theorem protect_of_barrierFree {s : BarrierState} {a : Accesses}
    (h : BarrierFree (s.protect a).1) : (s.protect a).1 = [] := by
  unfold BarrierState.protect at h ⊢
  split at h
  · exact absurd h (not_barrierFree_barrier _)
  · rfl

mutual

/-- If a processed program has no barriers, nothing was added. -/
theorem withBarriers_of_barrierFree : ∀ (x : Stmt) (s : BarrierState),
    BarrierFree (x.withBarriers storage s).1 → (x.withBarriers storage s).1 = [x]
  | .barrier _, _, _ => rfl
  | .allocate _, _, _ => rfl
  | .op _, s, h => by
      rw [Stmt.withBarriers] at h ⊢
      dsimp only at h ⊢
      rw [protect_of_barrierFree (barrierFree_append.1 h).1, List.nil_append]
  | .loop header body, s, h => by
      rw [Stmt.withBarriers] at h ⊢
      dsimp only at h ⊢
      split at h
      case isTrue =>
          rw [barrierFree_loop, barrierFree_append] at h
          exact absurd h.2 (not_barrierFree_barrier true)
      case isFalse hcarried =>
          rw [if_neg hcarried]
          rw [barrierFree_loop] at h
          rw [withBarriersAll_of_barrierFree body s.enterLoop h]
  | .branch c yes no, s, h => by
      rw [Stmt.withBarriers] at h ⊢
      dsimp only at h ⊢
      obtain ⟨hbefore, hbranch⟩ := barrierFree_append.1 h
      obtain ⟨hyes, hno⟩ := (barrierFree_branch c).1 hbranch
      rw [protect_of_barrierFree hbefore, List.nil_append,
        withBarriersAll_of_barrierFree yes {} hyes, withBarriersAll_of_barrierFree no {} hno]

/-- Without a barrier in the result nothing has changed. -/
theorem withBarriersAll_of_barrierFree : ∀ (xs : List Stmt) (s : BarrierState),
    BarrierFree (withBarriersAll storage xs s).1 → (withBarriersAll storage xs s).1 = xs
  | [], _, _ => rfl
  | x :: xs, s, h => by
      rw [Stmt.withBarriersAll] at h ⊢
      dsimp only at h ⊢
      obtain ⟨hx, hxs⟩ := barrierFree_append.1 h
      rw [withBarriers_of_barrierFree x s hx, withBarriersAll_of_barrierFree xs _ hxs]
      rfl

end

/-! ## Operations that do not conflict -/

section Conflicts

open Accesses

variable {xs ys : List Stmt} {s : BarrierState} {a : Accesses}

/-- A program reads what its operations read. -/
theorem mem_reads_ofStmts {v : ValueId} :
    v ∈ (ofStmts storage xs).reads ↔ ∃ o ∈ ops xs, v ∈ (ofOp storage o).reads := by
  have hrun : ∀ (l : List Op) (a : Accesses),
      v ∈ (l.foldl (fun a o => a.union (ofOp storage o)) a).reads ↔
        v ∈ a.reads ∨ ∃ o ∈ l, v ∈ (ofOp storage o).reads := by
    intro l
    induction l with
    | nil => simp
    | cons o l ih =>
        intro a
        rw [List.foldl_cons, ih]
        simp only [Accesses.union, mem_joined, List.mem_cons, exists_eq_or_imp, or_assoc]
  exact (hrun _ _).trans (by simp)

/-- A program writes what its operations write. -/
theorem mem_writes_ofStmts {v : ValueId} :
    v ∈ (ofStmts storage xs).writes ↔ ∃ o ∈ ops xs, v ∈ (ofOp storage o).writes := by
  have hrun : ∀ (l : List Op) (a : Accesses),
      v ∈ (l.foldl (fun a o => a.union (ofOp storage o)) a).writes ↔
        v ∈ a.writes ∨ ∃ o ∈ l, v ∈ (ofOp storage o).writes := by
    intro l
    induction l with
    | nil => simp
    | cons o l ih =>
        intro a
        rw [List.foldl_cons, ih]
        simp only [Accesses.union, mem_joined, List.mem_cons, exists_eq_or_imp, or_assoc]
  exact (hrun _ _).trans (by simp)

/-- What all operations access, the program accesses. -/
theorem ofStmts_within (h : ∀ o ∈ ops xs, (ofOp storage o).Within a) :
    (ofStmts storage xs).Within a := by
  refine ⟨fun v hv => ?_, fun v hv => ?_⟩
  · obtain ⟨o, ho, hv⟩ := mem_reads_ofStmts.1 hv
    exact (h o ho).1 hv
  · obtain ⟨o, ho, hv⟩ := mem_writes_ofStmts.1 hv
    exact (h o ho).2 hv

/-- Statements whose operations do not conflict access different buffers, or only read them. -/
theorem apart_ofStmts (h : ∀ o ∈ ops xs, ∀ o' ∈ ops ys, ¬ Conflict storage o o') :
    (ofStmts storage xs).Apart (ofStmts storage ys) := by
  refine ⟨fun v hw hr => ?_, fun v hr hw => ?_⟩
  · obtain ⟨o, ho, hw⟩ := mem_writes_ofStmts.1 hw
    obtain ⟨o', ho', hr⟩ := mem_reads_ofStmts.1 hr
    exact h o ho o' ho' ⟨v, .inl ⟨hw, hr⟩⟩
  · obtain ⟨o, ho, hr⟩ := mem_reads_ofStmts.1 hr
    obtain ⟨o', ho', hw⟩ := mem_writes_ofStmts.1 hw
    exact h o ho o' ho' ⟨v, .inr ⟨hr, hw⟩⟩

/-- Less is accessed. -/
theorem Accesses.Apart.mono {b a' b' : Accesses} (h : a.Apart b) (ha : a'.Within a) (hb : b'.Within b) :
    a'.Apart b' :=
  ⟨fun v hw hr => h.1 v (ha.2 hw) (hb.1 hr), fun v hr hw => h.2 v (ha.1 hr) (hb.2 hw)⟩

/-- Accesses that conflict with nothing pending need no barrier. -/
theorem protect_of_apart (h : s.pending.Apart a) : s.protect a = ([], s) := by
  have hnone : s.needed? a = none := by
    unfold BarrierState.needed?
    rw [meets_eq_false.2 h.1, meets_eq_false.2 h.2]
    rfl
  simp only [BarrierState.protect, hnone]

/-- Conflicts have no direction. -/
theorem conflict_symm {o o' : Op} (h : Conflict storage o o') : Conflict storage o' o := by
  obtain ⟨v, ⟨hw, hr⟩ | ⟨hr, hw⟩⟩ := h
  · exact ⟨v, .inr ⟨hr, hw⟩⟩
  · exact ⟨v, .inl ⟨hw, hr⟩⟩

/-- All accesses of the state are among given ones. -/
structure Contained (s : BarrierState) (a : Accesses) : Prop where
  pending : s.pending.Within a
  first : s.first.Within a

/-- No access is within any. -/
theorem within_empty (a : Accesses) : ({} : Accesses).Within a :=
  ⟨List.nil_subset _, List.nil_subset _⟩

namespace Contained

/-- At the start nothing is pending. -/
theorem empty (a : Accesses) : Contained {} a :=
  ⟨within_empty a, within_empty a⟩

/-- A pending access more. -/
theorem access {b : Accesses} (h : Contained s a) (hb : b.Within a) : Contained (s.access b) a := by
  refine ⟨union_within h.pending hb, ?_⟩
  unfold BarrierState.access
  dsimp only
  split
  · exact h.first
  · exact union_within h.first hb

/-- A barrier leaves nothing pending. -/
theorem barrier (h : Contained s a) : Contained s.barrier a :=
  ⟨within_empty a, h.first⟩

/-- Entering a loop keeps what is pending. -/
theorem enterLoop (h : Contained s a) : Contained s.enterLoop a :=
  ⟨h.pending, within_empty a⟩

/-- Leaving a loop joins what is pending outside and inside. -/
theorem leaveLoop {inner : BarrierState} (h : Contained s a) (hinner : Contained inner a) :
    Contained (s.leaveLoop inner) a := by
  unfold BarrierState.leaveLoop
  split
  · refine ⟨hinner.pending, ?_⟩
    dsimp only
    split
    · exact h.first
    · exact union_within h.first hinner.first
  · exact h.access hinner.pending

/-- A state whose accesses do not conflict carries nothing into the next round. -/
theorem carries (h : Contained s a) (ha : a.Apart a) : s.carries = false := by
  have hapart := ha.mono h.pending h.first
  unfold BarrierState.carries
  rw [meets_eq_false.2 hapart.1, meets_eq_false.2 hapart.2]
  rfl

end Contained

mutual

/-- Where accesses do not conflict with each other, the pass adds no barriers. -/
theorem barrierFree_withBarriers_of_apart (ha : a.Apart a) : ∀ (x : Stmt) {s : BarrierState},
    Contained s a → (∀ o ∈ ops [x], (ofOp storage o).Within a) → BarrierFree [x] →
      (∀ b ∈ branches [x], BarrierFree (withBarriersAll storage b {}).1) →
        BarrierFree (x.withBarriers storage s).1 ∧ Contained (x.withBarriers storage s).2 a
  | .barrier w, _, _, _, hfree, _ => absurd hfree (not_barrierFree_barrier w)
  | .allocate m, _, hs, _, _, _ => ⟨barrierFree_allocate m, hs⟩
  | .op o, s, hs, hops, _, _ => by
      have ho := hops o (by simp)
      rw [Stmt.withBarriers]
      dsimp only
      rw [protect_of_apart (ha.mono hs.pending ho)]
      refine ⟨barrierFree_op o, ?_⟩
      dsimp only
      split
      · exact (hs.access ho).barrier
      · exact hs.access ho
  | .branch c yes no, s, hs, hops, _, hsides => by
      rw [ops_branch] at hops
      have hunit : ((ofStmts storage yes).union (ofStmts storage no)).Within a :=
        union_within (ofStmts_within fun o ho => hops o (List.mem_append_left _ ho))
          (ofStmts_within fun o ho => hops o (List.mem_append_right _ ho))
      rw [branches_branch] at hsides
      rw [Stmt.withBarriers]
      dsimp only
      rw [protect_of_apart (ha.mono hs.pending hunit)]
      refine ⟨(barrierFree_branch c).2 ⟨hsides yes (by simp), hsides no (by simp)⟩, ?_⟩
      exact hs.access hunit
  | .loop h body, s, hs, hops, hfree, hsides => by
      obtain ⟨hbody, hinner⟩ := barrierFree_withBarriersAll_of_apart ha body hs.enterLoop
        (by simpa using hops) ((barrierFree_loop h).1 hfree) (by simpa using hsides)
      rw [Stmt.withBarriers]
      dsimp only
      rw [hinner.carries ha, Bool.and_false]
      exact ⟨(barrierFree_loop h).2 hbody, hs.leaveLoop hinner⟩

/-- Nothing is inserted into statements whose accesses do not conflict, themselves included. -/
theorem barrierFree_withBarriersAll_of_apart (ha : a.Apart a) :
    ∀ (xs : List Stmt) {s : BarrierState}, Contained s a →
      (∀ o ∈ ops xs, (ofOp storage o).Within a) → BarrierFree xs →
      (∀ b ∈ branches xs, BarrierFree (withBarriersAll storage b {}).1) →
        BarrierFree (withBarriersAll storage xs s).1 ∧
          Contained (withBarriersAll storage xs s).2 a
  | [], _, hs, _, _, _ => ⟨barrierFree_nil, hs⟩
  | x :: xs, s, hs, hops, hfree, hsides => by
      rw [ops_cons] at hops
      rw [branches_cons] at hsides
      obtain ⟨hx, hxs⟩ := barrierFree_cons.1 hfree
      obtain ⟨hfirst, hs'⟩ := barrierFree_withBarriers_of_apart ha x hs
        (fun o ho => hops o (List.mem_append_left _ ho)) hx
        (fun b hb => hsides b (List.mem_append_left _ hb))
      obtain ⟨hrest, hs''⟩ := barrierFree_withBarriersAll_of_apart ha xs hs'
        (fun o ho => hops o (List.mem_append_right _ ho)) hxs
        (fun b hb => hsides b (List.mem_append_right _ hb))
      rw [Stmt.withBarriersAll]
      exact ⟨barrierFree_append.2 ⟨hfirst, hrest⟩, hs''⟩

end

/-- The headers in the first statement and in the others. -/
theorem headers_cons (x : Stmt) (xs : List Stmt) : headers (x :: xs) = headers [x] ++ headers xs := by
  unfold headers
  rw [← List.filterMap_append, ← flattenAll_append]
  rfl

/-- Nothing is inserted at a statement that is no loop and does not conflict with what is pending.
What is pending behind it was pending before or is one of its accesses. -/
theorem withBarriers_of_apart (hx : BarrierFree [x]) (hloops : headers [x] = [])
    (hs : s.pending.Apart (ofStmts storage [x]))
    (hsides : ∀ b ∈ branches [x], BarrierFree (withBarriersAll storage b {}).1) :
    BarrierFree (x.withBarriers storage s).1 ∧
      (x.withBarriers storage s).2.pending.Within (s.pending.union (ofStmts storage [x])) := by
  cases x with
  | barrier w => exact absurd hx (not_barrierFree_barrier w)
  | loop h body => simp [headers, flattenAll, flatten, header?] at hloops
  | allocate m => exact ⟨barrierFree_allocate m, within_union_left _ _⟩
  | op o =>
      have ho : (ofOp storage o).Within (ofStmts storage [.op o]) :=
        ofOp_within_ofStmts (by simp)
      rw [Stmt.withBarriers]
      dsimp only
      rw [protect_of_apart (hs.mono (.refl _) ho)]
      refine ⟨barrierFree_op o, ?_⟩
      dsimp only
      split
      · exact within_empty _
      · exact union_within (within_union_left _ _) (ho.trans (within_union_right _ _))
  | branch c yes no =>
      have hunit : ((ofStmts storage yes).union (ofStmts storage no)).Within
          (ofStmts storage [.branch c yes no]) :=
        union_within
          (ofStmts_within fun o ho => ofOp_within_ofStmts (by simp [ho]))
          (ofStmts_within fun o ho => ofOp_within_ofStmts (by simp [ho]))
      rw [Stmt.withBarriers]
      dsimp only
      rw [protect_of_apart (hs.mono (.refl _) hunit)]
      refine ⟨(barrierFree_branch c).2 ⟨hsides yes (by simp), hsides no (by simp)⟩, ?_⟩
      exact union_within (within_union_left _ _) (hunit.trans (within_union_right _ _))

/-- Nothing is inserted into statements without loops of which no two operations conflict. -/
theorem barrierFree_withBarriersAll_of_pairwise (hloops : headers xs = [])
    (hops : (ops xs).Pairwise fun o o' => ¬ Conflict storage o o')
    (hs : s.pending.Apart (ofStmts storage xs)) (hfree : BarrierFree xs)
    (hsides : ∀ b ∈ branches xs, BarrierFree (withBarriersAll storage b {}).1) :
    BarrierFree (withBarriersAll storage xs s).1 := by
  induction xs generalizing s with
  | nil => exact barrierFree_nil
  | cons x xs ih =>
      rw [headers_cons, List.append_eq_nil_iff] at hloops
      rw [ops_cons, List.pairwise_append] at hops
      rw [branches_cons, List.forall_mem_append] at hsides
      obtain ⟨hx, hxs⟩ := barrierFree_cons.1 hfree
      have hpart : ∀ ys, (∀ o ∈ ops ys, o ∈ ops (x :: xs)) →
          (ofStmts storage ys).Within (ofStmts storage (x :: xs)) := fun ys hmem =>
        ofStmts_within fun o ho => ofOp_within_ofStmts (hmem o ho)
      have hnow : (ofStmts storage [x]).Within (ofStmts storage (x :: xs)) :=
        hpart [x] fun o ho => by rw [ops_cons]; exact List.mem_append_left _ ho
      have hlater : (ofStmts storage xs).Within (ofStmts storage (x :: xs)) :=
        hpart xs fun o ho => by rw [ops_cons]; exact List.mem_append_right _ ho
      obtain ⟨hfirst, hpending⟩ :=
        withBarriers_of_apart hx hloops.1 (hs.mono (.refl _) hnow) hsides.1
      have hrest : (x.withBarriers storage s).2.pending.Apart (ofStmts storage xs) := by
        refine Apart.mono ?_ hpending (.refl _)
        have hbefore := hs.mono (.refl _) hlater
        have hcross : (ofStmts storage [x]).Apart (ofStmts storage xs) := apart_ofStmts hops.2.2
        refine ⟨fun v hv => ?_, fun v hv => ?_⟩
        · exact (mem_joined.1 hv).elim (hbefore.1 v) (hcross.1 v)
        · exact (mem_joined.1 hv).elim (hbefore.2 v) (hcross.2 v)
      rw [Stmt.withBarriersAll]
      exact barrierFree_append.2 ⟨hfirst, ih hloops.2 hops.2.1 hrest hxs hsides.2⟩

/-- No two operations of the statements conflict; if one conflicts with itself, there is no
loop. -/
structure ConflictFree (storage : ValueId → Option ValueId) (body : List Stmt) : Prop where
  apart : (ops body).Pairwise fun o o' => ¬ Conflict storage o o'
  once : ∀ o ∈ ops body, Conflict storage o o → headers body = []

/-- Nothing is inserted into statements without conflicts. -/
theorem ConflictFree.barrierFree (h : ConflictFree storage xs) (hfree : BarrierFree xs)
    (hsides : ∀ b ∈ branches xs, BarrierFree (withBarriersAll storage b {}).1) :
    BarrierFree (withBarriersAll storage xs {}).1 := by
  by_cases hloops : headers xs = []
  · exact barrierFree_withBarriersAll_of_pairwise hloops h.apart
      ⟨fun _ hv => (nomatch hv), fun _ hv => (nomatch hv)⟩ hfree hsides
  · have hall : ∀ o ∈ ops xs, ∀ o' ∈ ops xs, ¬ Conflict storage o o' := by
      have : Std.Symm fun o o' => ¬ Conflict storage o o' :=
        ⟨fun _ _ hnot h => hnot (conflict_symm h)⟩
      intro o ho o' ho'
      exact List.Pairwise.forall_of_forall (fun o ho hself => hloops (h.once o ho hself)) h.apart
        ho ho'
    exact (barrierFree_withBarriersAll_of_apart (apart_ofStmts hall) xs (.empty _)
      (fun o ho => ofOp_within_ofStmts ho) hfree hsides).1

mutual

/-- Sides without barriers and without conflicts get none. -/
theorem barrierFree_side_of_conflictFree : ∀ (x : Stmt), (∀ b ∈ branches [x], BarrierFree b) →
    (∀ b ∈ branches [x], ConflictFree storage b) →
      ∀ b ∈ branches [x], BarrierFree (withBarriersAll storage b {}).1
  | .loop _ body, hfree, hcalm, b, hb => by
      rw [branches_loop] at hfree hcalm hb
      exact barrierFree_sides_of_conflictFree body hfree hcalm b hb
  | .branch _ yes no, hfree, hcalm, b, hb => by
      rw [branches_branch] at hfree hcalm hb
      simp only [List.forall_mem_cons, List.forall_mem_append] at hfree hcalm
      have hyes := barrierFree_sides_of_conflictFree yes hfree.2.2.1 hcalm.2.2.1
      have hno := barrierFree_sides_of_conflictFree no hfree.2.2.2 hcalm.2.2.2
      rcases List.mem_cons.1 hb with rfl | hb
      · exact hcalm.1.barrierFree hfree.1 hyes
      · rcases List.mem_cons.1 hb with rfl | hb
        · exact hcalm.2.1.barrierFree hfree.2.1 hno
        · rcases List.mem_append.1 hb with hb | hb
          · exact hyes b hb
          · exact hno b hb
  | .allocate _, _, _, _, hb => by cases hb
  | .barrier _, _, _, _, hb => by cases hb
  | .op _, _, _, _, hb => by cases hb

/-- Nothing is inserted into sides without conflicts. -/
theorem barrierFree_sides_of_conflictFree : ∀ (xs : List Stmt),
    (∀ b ∈ branches xs, BarrierFree b) → (∀ b ∈ branches xs, ConflictFree storage b) →
      ∀ b ∈ branches xs, BarrierFree (withBarriersAll storage b {}).1
  | [], _, _, _, hb => by cases hb
  | x :: xs, hfree, hcalm, b, hb => by
      rw [branches_cons] at hfree hcalm hb
      rw [List.forall_mem_append] at hfree hcalm
      rcases List.mem_append.1 hb with hb | hb
      · exact barrierFree_side_of_conflictFree x hfree.1 hcalm.1 b hb
      · exact barrierFree_sides_of_conflictFree xs hfree.2 hcalm.2 b hb

end

end Conflicts

/-! ## Which sides get a barrier -/

/-- The sides of all conditionals stay without barriers if their operations do not conflict, and
only if all of their runs are synchronized as they are. -/
theorem branches_bracketed {body : List Stmt} (hbody : ∀ b ∈ branches body, BarrierFree b) :
    ((∀ b ∈ branches body, ConflictFree storage b) →
        ∀ b ∈ branches (insertBarriers storage body), BarrierFree b) ∧
      ((∀ b ∈ branches (insertBarriers storage body), BarrierFree b) →
        ∀ b ∈ branches body, ∀ t, Stmt.RunsAll b t → Synchronized storage t) := by
  refine ⟨fun hcalm => ?_, fun hfree b hb t hrun => ?_⟩
  · exact barrierFree_branches_iff.2 (barrierFree_sides_of_conflictFree body hbody hcalm)
  · have hside := barrierFree_branches_iff.1 hfree b hb
    rw [← withBarriersAll_of_barrierFree b {} hside] at hrun
    exact (step_withBarriersAll b Describes.empty hrun).synchronized

/-- The condition that only the first thread of a block meets. -/
def firstThread : Scalar :=
  .binary .lt (.launchIndex .threadX) .one

/-- The first thread stores into a shared buffer, and all threads load from it. -/
def guardedStore : List Stmt :=
  [.branch firstThread [.op stagedStore] [], .op stagedLoad]

/-- A guarded store of a staged value: no side has a conflict, and none gets a barrier. -/
theorem guardedStore_branches_barrierFree :
    (∀ b ∈ branches guardedStore, BarrierFree b) ∧
      (∀ b ∈ branches guardedStore, ConflictFree stagedStorage b) ∧
      (∀ b ∈ branches (insertBarriers stagedStorage guardedStore), BarrierFree b) ∧
      ∀ b ∈ branches guardedStore, ∀ t, Stmt.RunsAll b t → Synchronized stagedStorage t := by
  have hbranches : branches guardedStore = [[.op stagedStore], []] :=
    rfl
  have hbody : ∀ b ∈ branches guardedStore, BarrierFree b := by
    rw [hbranches]
    simp
  have hcalm : ∀ b ∈ branches guardedStore, ConflictFree stagedStorage b := by
    rw [hbranches]
    simp only [List.forall_mem_cons]
    exact ⟨⟨List.pairwise_singleton _ _, fun _ _ _ => rfl⟩,
      ⟨List.Pairwise.nil, fun _ _ _ => rfl⟩, fun _ hb => nomatch hb⟩
  have hstays := (branches_bracketed hbody).1 hcalm
  exact ⟨hbody, hcalm, hstays, (branches_bracketed hbody).2 hstays⟩

/-- The first thread stores into a shared buffer and loads from it. -/
def guardedStage : List Stmt :=
  [.branch firstThread [.op stagedStore, .op stagedLoad] []]

/-- The barrier between the store and the load is met by the first thread only. -/
theorem guardedStage_diverges :
    (∀ b ∈ branches guardedStage, BarrierFree b) ∧
      ∃ b ∈ branches (insertBarriers stagedStorage guardedStage), ¬ BarrierFree b := by
  refine ⟨?_, [.op stagedStore, .barrier false, .op stagedLoad], List.mem_cons_self, fun h => ?_⟩
  · have hbranches : branches guardedStage = [[.op stagedStore, .op stagedLoad], []] :=
      rfl
    rw [hbranches]
    simp only [List.forall_mem_cons]
    exact ⟨barrierFree_cons.2 ⟨barrierFree_op _, barrierFree_op _⟩, barrierFree_nil,
      fun _ hb => nomatch hb⟩
  · exact h false (by simp [flattenAll, flatten])

end Kernel
end FusionCompiler
