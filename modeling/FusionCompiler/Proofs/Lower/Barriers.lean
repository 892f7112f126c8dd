import FusionCompiler.Proofs.Kernel.Folding
import FusionCompiler.Proofs.Kernel.OptionalLoops

/-!
# Barriers protect shared memory

Barriers are inserted in one pass that keeps four sets of buffers for each scope:
what was read and what was written since the last barrier, and what was read and
what was written before the first barrier of the scope.  `Kernel.Describes` says
that these sets cover what a run of the scope has done so far.  One step of the
pass keeps this, and it leaves no conflict without a barrier: within a statement,
across statements, and from one round of a loop to the next.

The pass counts a barrier in a loop as one that every run meets, so what was pending
before the loop is forgotten behind it.  A loop whose extent turns out to be zero takes
the barriers in its body with it.  Passing over a loop is harmless as long as there is
no barrier in it: then the accesses before the loop stay pending.

Main results:

- Theorem `Kernel.ops_withBarriersAll`: inserting barriers changes no operation.
- Theorems `Kernel.Step.loop` and `Kernel.step_optional`: the state behind a
  statement describes every run of the statement with its barriers, also if loops
  without a barrier are passed over.
- Theorem `Kernel.barrier_between_conflicts`: between any two operations of a run
  that conflict, there is a barrier.
- Theorem `Kernel.barrier_between_despite_empty`: also in runs that pass over loops
  without a barrier.
- Theorem `Kernel.loadsBehindRounds_unprotected`: a loop that holds a barrier hides
  a conflict when it is passed over.
-/

namespace FusionCompiler
namespace Kernel

variable {storage : ValueId → Option ValueId}

/-! ## Sets of accesses -/

namespace Accesses

/-- Every access of the first is one of the second. -/
def Within (a b : Accesses) : Prop :=
  a.reads ⊆ b.reads ∧ a.writes ⊆ b.writes

/-- Nothing that the first writes is read by the second, or the other way round. -/
def Apart (a b : Accesses) : Prop :=
  (∀ v ∈ a.writes, v ∉ b.reads) ∧ ∀ v ∈ a.reads, v ∉ b.writes

variable {a b c : Accesses}

/-- Accesses are within themselves. -/
theorem Within.refl (a : Accesses) : a.Within a :=
  ⟨List.Subset.refl _, List.Subset.refl _⟩

/-- Accesses within others are within what these are within. -/
theorem Within.trans (h : a.Within b) (h' : b.Within c) : a.Within c :=
  ⟨List.Subset.trans h.1 h'.1, List.Subset.trans h.2 h'.2⟩

/-- A joined list has what one of both has. -/
theorem mem_joined {v : ValueId} {l l' : List ValueId} : v ∈ joined l l' ↔ v ∈ l ∨ v ∈ l' := by
  unfold joined
  rw [List.mem_append, List.mem_filter]
  by_cases hv : v ∈ l
  · simp [hv]
  · simp [hv]

/-- Each of two accesses is within both together. -/
theorem within_union_left (a b : Accesses) : a.Within (a.union b) :=
  ⟨fun _ h => mem_joined.2 (.inl h), fun _ h => mem_joined.2 (.inl h)⟩

/-- The second of two accesses is within both together. -/
theorem within_union_right (a b : Accesses) : b.Within (a.union b) :=
  ⟨fun _ h => mem_joined.2 (.inr h), fun _ h => mem_joined.2 (.inr h)⟩

/-- Both together are within what each of them is within. -/
theorem union_within (h : a.Within c) (h' : b.Within c) : (a.union b).Within c := by
  refine ⟨fun v hv => ?_, fun v hv => ?_⟩
  · rcases mem_joined.1 hv with hv | hv
    · exact h.1 hv
    · exact h'.1 hv
  · rcases mem_joined.1 hv with hv | hv
    · exact h.2 hv
    · exact h'.2 hv

/-- The accesses of statements cover those of each of their operations. -/
theorem ofOp_within_ofStmts {body : List Stmt} {o : Op} (ho : o ∈ Stmt.ops body) :
    (ofOp storage o).Within (ofStmts storage body) := by
  have hrun : ∀ (l : List Op) (a : Accesses),
      a.Within (l.foldl (fun a o => a.union (ofOp storage o)) a) ∧
        ∀ o ∈ l, (ofOp storage o).Within (l.foldl (fun a o => a.union (ofOp storage o)) a) := by
    intro l
    induction l with
    | nil => exact fun a => ⟨.refl a, by simp⟩
    | cons o l ih =>
        intro a
        obtain ⟨hstart, hall⟩ := ih (a.union (ofOp storage o))
        refine ⟨(within_union_left _ _).trans hstart, fun u hu => ?_⟩
        rcases List.mem_cons.1 hu with rfl | hu
        · exact (within_union_right _ _).trans hstart
        · exact hall u hu
  exact (hrun _ _).2 o ho

/-- Operations whose accesses are covered by sets that are apart do not conflict. -/
theorem Apart.not_conflict (h : a.Apart b) {o o' : Op} (ho : (ofOp storage o).Within a)
    (ho' : (ofOp storage o').Within b) : ¬ Conflict storage o o' := by
  rintro ⟨v, ⟨hw, hr⟩ | ⟨hr, hw⟩⟩
  · exact h.1 v (ho.2 hw) (ho'.1 hr)
  · exact h.2 v (ho.1 hr) (ho'.2 hw)

/-- Two lists do not meet just if they have nothing in common. -/
theorem meets_eq_false {l l' : List ValueId} : meets l l' = false ↔ ∀ v ∈ l, v ∉ l' := by
  simp [meets]

end Accesses

open Accesses

/-! ## What a state describes -/

/-- The state covers a run `t` of its scope, behind a run `u` of what comes before the scope. -/
structure Describes (storage : ValueId → Option ValueId) (s : BarrierState) (u t : List Event) :
    Prop where
  pending : ∀ o, Ends (u ++ t) o → (ofOp storage o).Within s.pending
  first : ∀ o, Starts t o → (ofOp storage o).Within s.first
  synced : s.synced = true → .barrier ∈ t
  unsynced : s.synced = false → s.first.Within s.pending

/-- What a step from one state to another does with a run `t'`: it has no conflicts inside and none
with what is pending, and the second state covers it as well. -/
structure Step (storage : ValueId → Option ValueId) (s s' : BarrierState) (u t t' : List Event) :
    Prop where
  synchronized : Synchronized storage t'
  apart : ∀ o o', Ends (u ++ t) o → Starts t' o' → ¬ Conflict storage o o'
  describes : Describes storage s' u (t ++ t')

variable {s s' s'' : BarrierState} {u t t' t'' : List Event} {a : Accesses}

/-- A scope that has not started. -/
theorem Describes.empty : Describes storage {} [] [] :=
  ⟨fun _ h => h.elim, fun _ h => h.elim, fun h => (by cases h), fun _ => .refl _⟩

/-- A loop body that has not started yet. -/
theorem Describes.enterLoop (h : Describes storage s u t) :
    Describes storage s.enterLoop (u ++ t) [] := by
  refine ⟨fun o ho => h.pending o ?_, fun _ h => h.elim, fun h => (by cases h), fun _ => ?_⟩
  · rwa [List.append_nil] at ho
  · exact ⟨List.nil_subset _, List.nil_subset _⟩

/-- A step that does nothing. -/
protected theorem Step.refl (h : Describes storage s u t) : Step storage s s u t [] :=
  ⟨trivial, fun _ _ _ h => h.elim, by rwa [List.append_nil]⟩

/-- Two steps in a row. -/
protected theorem Step.trans (h : Step storage s s' u t t')
    (h' : Step storage s' s'' u (t ++ t') t'') : Step storage s s'' u t (t' ++ t'') := by
  refine ⟨?_, fun o o' ho ho' => ?_, ?_⟩
  · refine synchronized_append.2 ⟨h.synchronized, h'.synchronized, fun o o' ho ho' => ?_⟩
    refine h'.apart o o' ?_ ho'
    rw [← List.append_assoc]
    exact ends_append.2 (.inl ho)
  · rcases starts_append.1 ho' with ho' | ⟨hnone, ho'⟩
    · exact h.apart o o' ho ho'
    · refine h'.apart o o' ?_ ho'
      rw [← List.append_assoc]
      exact ends_append.2 (.inr ⟨hnone, ho⟩)
  · rw [← List.append_assoc]
    exact h'.describes

/-- A barrier. -/
theorem Step.barrier (h : Describes storage s u t) : Step storage s s.barrier u t [.barrier] := by
  refine ⟨trivial, fun _ _ _ h => h.elim, ⟨fun o ho => ?_, fun o ho => ?_, fun _ => by simp, ?_⟩⟩
  · rw [← List.append_assoc] at ho
    rcases ends_append.1 ho with ho | ⟨hnone, -⟩
    · exact ho.elim
    · simp at hnone
  · rcases starts_append.1 ho with ho | ⟨-, ho⟩
    · exact h.first o ho
    · exact ho.elim
  · intro h
    cases h

/-- Accesses, by operations that they cover. -/
theorem Describes.access (h : Describes storage s u t)
    (hops : ∀ o, .op o ∈ t' → (ofOp storage o).Within a) :
    Describes storage (s.access a) u (t ++ t') := by
  refine ⟨fun o ho => ?_, fun o ho => ?_, fun hs => ?_, ?_⟩
  · rw [← List.append_assoc] at ho
    rcases ends_append.1 ho with ho | ⟨-, ho⟩
    · exact (hops o ho.mem).trans (within_union_right _ _)
    · exact (h.pending o ho).trans (within_union_left _ _)
  · cases hs : s.synced with
    | true =>
        -- what follows a barrier of the scope is not before its first one
        rcases starts_append.1 ho with ho | ⟨hnone, -⟩
        · simpa [BarrierState.access, hs] using h.first o ho
        · exact absurd (h.synced hs) hnone
    | false =>
        have hfirst : (s.access a).first = s.first.union a := by simp [BarrierState.access, hs]
        rw [hfirst]
        rcases starts_append.1 ho with ho | ⟨-, ho⟩
        · exact (h.first o ho).trans (within_union_left _ _)
        · exact (hops o ho.mem).trans (within_union_right _ _)
  · exact List.mem_append_left _ (h.synced hs)
  · intro hs
    have hfirst : (s.access a).first = s.first.union a := by
      simpa [BarrierState.access] using fun h => absurd (hs.symm.trans h) (by simp)
    rw [hfirst]
    exact union_within ((h.unsynced hs).trans (within_union_left _ _)) (within_union_right _ _)

/-- Accesses that are apart from what is pending. -/
theorem Step.access (h : Describes storage s u t) (hsync : Synchronized storage t')
    (hapart : s.pending.Apart a) (hops : ∀ o, .op o ∈ t' → (ofOp storage o).Within a) :
    Step storage s (s.access a) u t t' :=
  ⟨hsync, fun o o' ho ho' => hapart.not_conflict (h.pending o ho) (hops o' ho'.mem),
    h.access hops⟩

/-- If no barrier is needed, no access conflicts with one that is pending. -/
theorem apart_of_needed?_eq_none (h : s.needed? a = none) : s.pending.Apart a := by
  unfold BarrierState.needed? at h
  split at h
  · cases h
  · split at h
    · cases h
    · rename_i hwrites hreads
      exact ⟨meets_eq_false.1 (by simpa using hwrites), meets_eq_false.1 (by simpa using hreads)⟩

/-- The barrier before accesses, if they need one, keeps them apart from what is pending. -/
theorem Step.protect (h : Describes storage s u t) (hrun : Stmt.RunsAll (s.protect a).1 t') :
    Step storage s (s.protect a).2 u t t' ∧ (s.protect a).2.pending.Apart a := by
  unfold BarrierState.protect at hrun ⊢
  cases hneeded : s.needed? a with
  | none =>
      simp only [hneeded] at hrun ⊢
      rw [Stmt.runsAll_nil.1 hrun]
      exact ⟨.refl h, apart_of_needed?_eq_none hneeded⟩
  | some afterRead =>
      simp only [hneeded] at hrun ⊢
      cases Stmt.runsAll_singleton.1 hrun
      exact ⟨.barrier h, by simp [Apart, BarrierState.barrier]⟩

/-! ## Rounds of a loop -/

/-- What all rounds of a loop have in common: each of them leads from the state in which the body
starts to the same state at its end. -/
def Round (storage : ValueId → Option ValueId) (s inner : BarrierState) (u t : List Event)
    (r : List Event) : Prop :=
  Step storage s.enterLoop inner (u ++ t) [] r

variable {inner : BarrierState} {r : List Event} {rounds : List (List Event)}

/-- What is performed behind the last barrier of a round is pending at its end. -/
theorem Round.ends (h : Round storage s inner u t r) {o : Op} (ho : Ends r o) :
    (ofOp storage o).Within inner.pending :=
  h.describes.pending o (ends_append.2 (.inl ho))

/-- What is performed before the first barrier of a round is among its first accesses. -/
theorem Round.starts (h : Round storage s inner u t r) {o : Op} (ho : Starts r o) :
    (ofOp storage o).Within inner.first :=
  h.describes.first o ho

/-- Rounds whose ends are apart from their starts have no conflicts. -/
theorem rounds_synchronized (hapart : inner.pending.Apart inner.first)
    (hrounds : ∀ r ∈ rounds, Round storage s inner u t r) :
    Synchronized storage rounds.flatten ∧
      (∀ o, Ends rounds.flatten o → (ofOp storage o).Within inner.pending) ∧
      ∀ o, Starts rounds.flatten o → (ofOp storage o).Within inner.first := by
  induction rounds with
  | nil => exact ⟨trivial, fun _ h => h.elim, fun _ h => h.elim⟩
  | cons r rounds ih =>
      have hr := hrounds r List.mem_cons_self
      obtain ⟨hsync, hends, hstarts⟩ := ih fun r hr => hrounds r (List.mem_cons_of_mem _ hr)
      rw [List.flatten_cons]
      refine ⟨synchronized_append.2 ⟨hr.synchronized, hsync, fun o o' ho ho' => ?_⟩,
        fun o ho => ?_, fun o ho => ?_⟩
      · exact hapart.not_conflict (hr.ends ho) (hstarts o' ho')
      · rcases ends_append.1 ho with ho | ⟨-, ho⟩
        · exact hends o ho
        · exact hr.ends ho
      · rcases starts_append.1 ho with ho | ⟨-, ho⟩
        · exact hr.starts ho
        · exact hstarts o ho

/-- The rounds of a loop, from the state before it to the state behind it. -/
theorem Step.loop (h : Describes storage s u t) (hsome : rounds ≠ [])
    (hrounds : ∀ r ∈ rounds, Round storage s inner u t r)
    (honce : ¬ inner.pending.Apart inner.first → rounds.length = 1) :
    Step storage s (s.leaveLoop inner) u t rounds.flatten := by
  -- one round needs no care between rounds, and several rounds are apart
  obtain ⟨hsync, hends, hstarts⟩ : Synchronized storage rounds.flatten ∧
      (∀ o, Ends rounds.flatten o → (ofOp storage o).Within inner.pending) ∧
      ∀ o, Starts rounds.flatten o → (ofOp storage o).Within inner.first := by
    by_cases hapart : inner.pending.Apart inner.first
    · exact rounds_synchronized hapart hrounds
    · obtain ⟨r, rfl⟩ := List.length_eq_one_iff.1 (honce hapart)
      have hr := hrounds r List.mem_cons_self
      simp only [List.flatten_cons, List.flatten_nil, List.append_nil]
      exact ⟨hr.synchronized, fun _ ho => hr.ends ho, fun _ ho => hr.starts ho⟩
  obtain ⟨r₁, rest, rfl⟩ := List.exists_cons_of_ne_nil hsome
  have hfirst := hrounds r₁ List.mem_cons_self
  have hpending : ∀ o, Ends (u ++ (t ++ (r₁ :: rest).flatten)) o →
      (ofOp storage o).Within inner.pending := by
    intro o ho
    rw [← List.append_assoc] at ho
    rcases ends_append.1 ho with ho | ⟨hnone, ho⟩
    · exact hends o ho
    · refine hfirst.describes.pending o (ends_append.2 (.inr ⟨fun hmem => hnone ?_, ho⟩))
      simp only [List.flatten_cons, List.mem_append]
      exact .inl (by simpa using hmem)
  refine ⟨hsync, fun o o' ho ho' => ?_, ?_⟩
  · -- only the first round can start before a barrier of the loop
    rw [List.flatten_cons] at ho'
    rcases starts_append.1 ho' with ho' | ⟨hnone, ho'⟩
    · exact hfirst.apart o o' (by rwa [List.append_nil]) ho'
    · by_cases hapart : inner.pending.Apart inner.first
      · refine hapart.not_conflict (hfirst.describes.pending o (ends_append.2 (.inr ⟨?_, ho⟩)))
          (hstarts o' ?_)
        · simpa using hnone
        · rw [List.flatten_cons]
          exact starts_append.2 (.inr ⟨hnone, ho'⟩)
      · have hone := honce hapart
        have hrest : rest = [] := by simpa using hone
        rw [hrest] at ho'
        exact ho'.elim
  · unfold BarrierState.leaveLoop
    split
    case isTrue hsynced =>
        refine ⟨hpending, fun o ho => ?_, fun _ => ?_, fun h => by cases h⟩
        · rcases starts_append.1 ho with ho | ⟨hnone, ho⟩
          · split
            · exact h.first o ho
            · exact (h.first o ho).trans (within_union_left _ _)
          · split
            case isTrue hs => exact absurd (h.synced hs) hnone
            case isFalse => exact (hstarts o ho).trans (within_union_right _ _)
        · have hmem := hfirst.describes.synced hsynced
          simp only [List.flatten_cons, List.mem_append]
          exact .inr (.inl (by simpa using hmem))
    case isFalse hsynced =>
        have hsynced : inner.synced = false := by simpa using hsynced
        have hwithin := hfirst.describes.unsynced hsynced
        refine ⟨fun o ho => (hpending o ho).trans (within_union_right _ _), fun o ho => ?_,
          fun hs => List.mem_append_left _ (h.synced hs), fun hs => ?_⟩
        · rcases starts_append.1 ho with ho | ⟨hnone, ho⟩
          · have hstart := h.first o ho
            unfold BarrierState.access
            dsimp only
            split
            · exact hstart
            · exact hstart.trans (within_union_left _ _)
          · have hs : s.synced = false := by
              by_contra hs
              exact hnone (h.synced (by simpa using hs))
            have hstart := (hstarts o ho).trans hwithin
            unfold BarrierState.access
            dsimp only
            rw [if_neg (by simp [hs])]
            exact hstart.trans (within_union_right _ _)
        · have hs : s.synced = false := hs
          unfold BarrierState.access
          dsimp only
          rw [if_neg (by simp [hs])]
          exact union_within ((h.unsynced hs).trans (within_union_left _ _))
            (within_union_right _ _)

/-! ## Steps of the pass -/

/-- Inserting a barrier before accesses adds no operation. -/
theorem ops_protect (s : BarrierState) (a : Accesses) : Stmt.ops (s.protect a).1 = [] := by
  unfold BarrierState.protect
  split
  · rfl
  · rfl

/-- Barriers are not optional. -/
theorem optionalAll_protect {may : LoopHeader → List Stmt → Bool} (s : BarrierState)
    (a : Accesses) : Stmt.optionalAll may (s.protect a).1 = (s.protect a).1 := by
  unfold BarrierState.protect
  split
  · rfl
  · rfl

mutual

/-- Inserting barriers into a statement changes no operation. -/
theorem ops_withBarriers (storage : ValueId → Option ValueId) :
    ∀ (x : Stmt) (s : BarrierState), Stmt.ops (x.withBarriers storage s).1 = Stmt.ops [x]
  | .barrier _, _ => rfl
  | .allocate _, _ => rfl
  | .op o, s => by
      rw [Stmt.withBarriers]
      simp [Stmt.ops_append, ops_protect]
  | .branch c yes no, s => by
      rw [Stmt.withBarriers]
      simp [Stmt.ops_append, ops_protect, ops_withBarriersAll storage yes,
        ops_withBarriersAll storage no]
  | .loop h body, s => by
      rw [Stmt.withBarriers]
      dsimp only
      split
      · simp [Stmt.ops_append, ops_withBarriersAll storage body]
      · simp [ops_withBarriersAll storage body]

/-- Inserting barriers changes no operation. -/
theorem ops_withBarriersAll (storage : ValueId → Option ValueId) :
    ∀ (xs : List Stmt) (s : BarrierState),
      Stmt.ops (Stmt.withBarriersAll storage xs s).1 = Stmt.ops xs
  | [], _ => rfl
  | x :: xs, s => by
      rw [Stmt.withBarriersAll]
      dsimp only
      rw [Stmt.ops_append, ops_withBarriers storage x, ops_withBarriersAll storage xs,
        ← Stmt.ops_cons]

end

/-- An operation behind the barrier it may need. -/
theorem Step.op {o : Op} (h : Describes storage s u t)
    (hrun : Stmt.RunsAll (Stmt.withBarriers storage (.op o) s).1 t') :
    Step storage s (Stmt.withBarriers storage (.op o) s).2 u t t' := by
  rw [Stmt.withBarriers] at hrun ⊢
  obtain ⟨t₁, t₂, rfl, hbefore, hop⟩ := Stmt.runsAll_append.1 hrun
  obtain ⟨hprotect, hapart⟩ := Step.protect h hbefore
  cases Stmt.runsAll_singleton.1 hop
  refine hprotect.trans ?_
  have haccess : Step storage (s.protect (ofOp storage o)).2
      ((s.protect (ofOp storage o)).2.access (ofOp storage o)) u (t ++ t₁) [.op o] := by
    refine Step.access hprotect.describes ⟨fun _ h => h.elim, trivial⟩ hapart fun o' ho' => ?_
    cases List.mem_singleton.1 ho'
    exact .refl _
  unfold Op.events
  dsimp only
  split
  · exact haccess.trans (.barrier haccess.describes)
  · exact haccess

/-- If nothing is carried over, the end of one round does not conflict with the start of the next.
-/
theorem apart_of_carries_eq_false (h : inner.carries = false) :
    inner.pending.Apart inner.first := by
  unfold BarrierState.carries at h
  obtain ⟨hwrites, hreads⟩ := Bool.or_eq_false_iff.1 h
  exact ⟨meets_eq_false.1 hwrites, meets_eq_false.1 hreads⟩

/-- A loop without a second round is one over the launch or over a single iteration. -/
theorem once_of_repeats_eq_false {h : LoopHeader} (hrepeats : h.repeats = false) :
    h.isLaunch = true ∨ h.extent = .int 1 := by
  unfold LoopHeader.repeats at hrepeats
  rcases Bool.and_eq_false_iff.1 hrepeats with hlaunch | hone
  · exact .inl (by simpa using hlaunch)
  · exact .inr (Scalar.eq_of_isInt (by simpa using hone))

/-- A loop that is passed over, and that holds no barrier. -/
theorem Step.passOver (h : Describes storage s u t) (hquiet : inner.synced = false) :
    Step storage s (s.leaveLoop inner) u t [] := by
  have hleave : s.leaveLoop inner = s.access inner.pending := by
    rw [BarrierState.leaveLoop, if_neg (by simp [hquiet])]
  rw [hleave]
  exact ⟨trivial, fun _ _ _ h => h.elim, h.access (by simp)⟩

/-- The state knows whether a barrier was put before an access. -/
theorem synced_protect (s : BarrierState) (a : Accesses) :
    (s.protect a).2.synced = (s.synced || Stmt.synchronizesAll (s.protect a).1) := by
  unfold BarrierState.protect
  split
  · simp [BarrierState.barrier, Stmt.synchronizes]
  · simp [Stmt.synchronizesAll]

/-- The state knows whether a loop has a barrier. -/
theorem synced_leaveLoop (s inner : BarrierState) :
    (s.leaveLoop inner).synced = (s.synced || inner.synced) := by
  unfold BarrierState.leaveLoop
  split
  · simp [*]
  · simp_all [BarrierState.access]

mutual

/-- The state knows whether there is a barrier in what was processed. -/
theorem synced_withBarriers (storage : ValueId → Option ValueId) :
    ∀ (x : Stmt) (s : BarrierState), (x.withBarriers storage s).2.synced =
      (s.synced || Stmt.synchronizesAll (x.withBarriers storage s).1)
  | .barrier _, _ => by simp [Stmt.withBarriers, BarrierState.barrier, Stmt.synchronizes]
  | .allocate _, _ => by simp [Stmt.withBarriers, Stmt.synchronizes]
  | .op o, s => by
      rw [Stmt.withBarriers]
      dsimp only
      rw [Stmt.synchronizesAll_append, ← Bool.or_assoc, ← synced_protect,
        Stmt.synchronizesAll_singleton, Stmt.synchronizes]
      split
      · simp [BarrierState.barrier, *]
      · simp_all [BarrierState.access]
  | .branch _ _ _, s => by
      rw [Stmt.withBarriers]
      dsimp only
      rw [Stmt.synchronizesAll_append, ← Bool.or_assoc, ← synced_protect,
        Stmt.synchronizesAll_singleton, Stmt.synchronizes, Bool.or_false]
      rfl
  | .loop _ body, s => by
      have hbody := synced_withBarriersAll storage body s.enterLoop
      rw [show s.enterLoop.synced = false from rfl, Bool.false_or] at hbody
      rw [Stmt.withBarriers]
      dsimp only
      split
      · rw [synced_leaveLoop, Stmt.synchronizesAll_singleton, Stmt.synchronizes,
          Stmt.synchronizesAll_append]
        simp [BarrierState.barrier, Stmt.synchronizes]
      · rw [synced_leaveLoop, Stmt.synchronizesAll_singleton, Stmt.synchronizes, hbody]

/-- The pass knows whether there was a barrier. -/
theorem synced_withBarriersAll (storage : ValueId → Option ValueId) :
    ∀ (xs : List Stmt) (s : BarrierState), (Stmt.withBarriersAll storage xs s).2.synced =
      (s.synced || Stmt.synchronizesAll (Stmt.withBarriersAll storage xs s).1)
  | [], s => by simp [Stmt.withBarriersAll, Stmt.synchronizesAll]
  | x :: xs, s => by
      rw [Stmt.withBarriersAll]
      dsimp only
      rw [Stmt.synchronizesAll_append, ← Bool.or_assoc, ← synced_withBarriers storage x,
        synced_withBarriersAll storage xs]

end

mutual

/-- The state behind a statement describes every run of the statement with its barriers, even if
loops without a barrier are passed over. -/
theorem step_optional {may : LoopHeader → List Stmt → Bool}
    (hmay : ∀ h body, may h body = true → Stmt.synchronizesAll body = false) :
    ∀ (x : Stmt) {s : BarrierState} {u t t' : List Event}, Describes storage s u t →
      Stmt.RunsAll (Stmt.optionalAll may (x.withBarriers storage s).1) t' →
      Step storage s (x.withBarriers storage s).2 u t t'
  | .barrier _, _, _, _, _, h, hrun => by
      cases Stmt.runsAll_singleton.1 hrun
      exact .barrier h
  | .allocate _, _, _, _, _, h, hrun => by
      cases Stmt.runsAll_singleton.1 hrun
      exact .refl h
  | .op o, s, _, _, _, h, hrun => by
      refine Step.op h ?_
      rw [Stmt.withBarriers] at hrun ⊢
      rwa [Stmt.optionalAll_append, optionalAll_protect] at hrun
  | .branch c yes no, s, u, t, _, h, hrun => by
      rw [Stmt.withBarriers] at hrun ⊢
      dsimp only at hrun ⊢
      generalize haccesses : (ofStmts storage yes).union (ofStmts storage no) = a at hrun ⊢
      rw [Stmt.optionalAll_append, optionalAll_protect] at hrun
      obtain ⟨t₁, t₂, rfl, hbefore, hbranch⟩ := Stmt.runsAll_append.1 hrun
      obtain ⟨hprotect, hapart⟩ := Step.protect h hbefore
      refine hprotect.trans ?_
      -- a conditional is a unit: all of its accesses count, whichever side is taken
      cases Stmt.runsAll_singleton.1 hbranch with
      | yes hyes =>
          refine Step.access hprotect.describes
            (step_optionalAll hmay yes Describes.empty hyes).synchronized hapart fun o ho => ?_
          have hmem := hyes.mem_ops ho
          rw [Stmt.ops_optionalAll, ops_withBarriersAll] at hmem
          rw [← haccesses]
          exact (ofOp_within_ofStmts hmem).trans (within_union_left _ _)
      | no hno =>
          refine Step.access hprotect.describes
            (step_optionalAll hmay no Describes.empty hno).synchronized hapart fun o ho => ?_
          have hmem := hno.mem_ops ho
          rw [Stmt.ops_optionalAll, ops_withBarriersAll] at hmem
          rw [← haccesses]
          exact (ofOp_within_ofStmts hmem).trans (within_union_right _ _)
  | .loop header body, s, u, t, _, h, hrun => by
      have hbody : ∀ r, Stmt.RunsAll (Stmt.optionalAll may
          (Stmt.withBarriersAll storage body s.enterLoop).1) r →
          Round storage s (Stmt.withBarriersAll storage body s.enterLoop).2 u t r :=
        fun r hr => step_optionalAll hmay body h.enterLoop hr
      have hsynced : (Stmt.withBarriersAll storage body s.enterLoop).2.synced =
          Stmt.synchronizesAll (Stmt.withBarriersAll storage body s.enterLoop).1 :=
        synced_withBarriersAll storage body s.enterLoop
      rw [Stmt.withBarriers] at hrun ⊢
      dsimp only at hrun ⊢
      generalize Stmt.withBarriersAll storage body s.enterLoop = processed at hbody hsynced hrun ⊢
      obtain ⟨body', inner⟩ := processed
      dsimp only at hbody hsynced hrun ⊢
      split at hrun
      case isTrue hcarried =>
          rw [if_pos hcarried]
          rcases Stmt.runs_optional_loop (Stmt.runsAll_singleton.1 hrun) with ⟨hskip, -⟩ | hloop
          · have hquiet := hmay _ _ hskip
            rw [Stmt.synchronizesAll_append] at hquiet
            simp [Stmt.synchronizes] at hquiet
          · cases hloop with
            | loop hsome honce hrounds =>
                show Step storage s (s.leaveLoop inner.barrier) u t _
                refine Step.loop h hsome (fun r hr => ?_) fun hnot => ?_
                · have hround := hrounds r hr
                  rw [Stmt.optionalAll_append] at hround
                  obtain ⟨r₁, r₂, rfl, h₁, h₂⟩ := Stmt.runsAll_append.1 hround
                  cases Stmt.runsAll_singleton.1 h₂
                  have hround := hbody r₁ h₁
                  exact Step.trans hround (.barrier hround.describes)
                · exact absurd (by simp [Apart, BarrierState.barrier]) hnot
      case isFalse hcarried =>
          rw [if_neg hcarried]
          rcases Stmt.runs_optional_loop (Stmt.runsAll_singleton.1 hrun) with ⟨hskip, rfl⟩ | hloop
          · exact Step.passOver h (hsynced.trans (hmay _ _ hskip))
          · cases hloop with
            | loop hsome honce hrounds =>
                refine Step.loop h hsome (fun r hr => hbody r (hrounds r hr)) fun hnot => honce ?_
                have hcarries : inner.carries = true := by
                  by_contra hcarries
                  exact hnot (apart_of_carries_eq_false (by simpa using hcarries))
                exact once_of_repeats_eq_false (by simpa [hcarries] using hcarried)

/-- The state behind statements describes every run of the statements with their barriers, even if
loops without a barrier are passed over. -/
theorem step_optionalAll {may : LoopHeader → List Stmt → Bool}
    (hmay : ∀ h body, may h body = true → Stmt.synchronizesAll body = false) :
    ∀ (xs : List Stmt) {s : BarrierState} {u t t' : List Event}, Describes storage s u t →
      Stmt.RunsAll (Stmt.optionalAll may (Stmt.withBarriersAll storage xs s).1) t' →
      Step storage s (Stmt.withBarriersAll storage xs s).2 u t t'
  | [], _, _, _, _, h, hrun => by
      rw [Stmt.withBarriersAll] at hrun ⊢
      rw [Stmt.runsAll_nil.1 hrun]
      exact .refl h
  | x :: xs, _, _, _, _, h, hrun => by
      rw [Stmt.withBarriersAll] at hrun ⊢
      dsimp only at hrun ⊢
      rw [Stmt.optionalAll_append] at hrun
      obtain ⟨t₁, t₂, rfl, hfirst, hrest⟩ := Stmt.runsAll_append.1 hrun
      have hstep := step_optional hmay x h hfirst
      exact hstep.trans (step_optionalAll hmay xs hstep.describes hrest)

end

/-- The state behind statements describes every run of the statements with their barriers. -/
theorem step_withBarriersAll (xs : List Stmt) {s : BarrierState} {u t t' : List Event}
    (h : Describes storage s u t)
    (hrun : Stmt.RunsAll (Stmt.withBarriersAll storage xs s).1 t') :
    Step storage s (Stmt.withBarriersAll storage xs s).2 u t t' := by
  rw [← Stmt.optionalAll_never (Stmt.withBarriersAll storage xs s).1] at hrun
  exact step_optionalAll (fun _ _ h => by cases h) xs h hrun

/-! ## Barriers between conflicting operations -/

/-- Between any two operations of a run of which one writes a shared buffer that the other one
reads, there is a barrier. -/
theorem barrier_between_conflicts {body : List Stmt} {before between after : List Event} {o o' : Op}
    (hrun : Stmt.RunsAll (insertBarriers storage body)
      (before ++ .op o :: between ++ .op o' :: after))
    (hconflict : Conflict storage o o') : .barrier ∈ between := by
  have hstep := step_withBarriersAll body Describes.empty hrun
  exact hstep.synchronized.barrier_mem hconflict

/-- An element that each thread stores into a shared buffer. -/
def stagedStore : Op :=
  .unary .set ⟨⟨1⟩, .float, .launchIndex .threadX⟩
    (.element ⟨⟨0⟩, .float, .loop ⟨0⟩⟩)

/-- An element that each thread loads from a shared buffer. -/
def stagedLoad : Op :=
  .unary .set ⟨⟨2⟩, .float, .loop ⟨0⟩⟩
    (.element ⟨⟨1⟩, .float, .zero⟩)

/-- Rounds in which all threads store into a shared buffer and load from it again. -/
def stagedRounds : List Stmt :=
  [.loop ⟨⟨0⟩, .size ⟨0⟩ 0, .serial, ⟨0⟩⟩ [.op stagedStore, .op stagedLoad]]

/-- The tensor of handle one is shared. -/
def stagedStorage (v : ValueId) : Option ValueId :=
  if v = ⟨1⟩ then some v else none

/-- What happens in a round, with the barriers that are inserted. -/
def stagedEvents : List Event :=
  [.op stagedStore, .barrier, .op stagedLoad, .barrier]

/-- A load and the store of the next round have a barrier between them. -/
theorem stagedRounds_barrier_between :
    ∃ before between after : List Event,
      Stmt.RunsAll (insertBarriers stagedStorage stagedRounds)
        (before ++ .op stagedLoad :: between ++ .op stagedStore :: after) ∧
      Conflict stagedStorage stagedLoad stagedStore ∧ .barrier ∈ between := by
  have hround : Stmt.RunsAll [.op stagedStore, .barrier false, .op stagedLoad, .barrier true]
      stagedEvents :=
    .cons (.op stagedStore) (.cons (.barrier false) (.cons (.op stagedLoad)
      (.cons (.barrier true) .nil)))
  have hrounds : ∀ r ∈ [stagedEvents, stagedEvents],
      Stmt.RunsAll [.op stagedStore, .barrier false, .op stagedLoad, .barrier true] r := by
    simpa using hround
  have hrun : Stmt.RunsAll (insertBarriers stagedStorage stagedRounds)
      ([.op stagedStore, .barrier] ++ .op stagedLoad :: [.barrier] ++ .op stagedStore ::
        [.barrier, .op stagedLoad, .barrier]) := by
    refine Stmt.runsAll_singleton.2 (.loop (List.cons_ne_nil _ _) (fun h => ?_) hrounds)
    rcases h with h | h
    · cases h
    · cases h
  have hconflict : Conflict stagedStorage stagedLoad stagedStore :=
    ⟨⟨1⟩, .inr ⟨by decide, by decide⟩⟩
  exact ⟨_, _, _, hrun, hconflict, barrier_between_conflicts hrun hconflict⟩

/-! ## Loops that are passed over -/

/-- Between any two operations of a run that conflict there is a barrier, whichever loops without
a barrier in their bodies the run passes over. -/
theorem barrier_between_despite_empty {may : LoopHeader → List Stmt → Bool} {body : List Stmt}
    {before between after : List Event} {o o' : Op}
    (hmay : ∀ h inner, may h inner = true → Stmt.synchronizesAll inner = false)
    (hrun : Stmt.RunsAll (Stmt.optionalAll may (insertBarriers storage body))
      (before ++ .op o :: between ++ .op o' :: after))
    (hconflict : Conflict storage o o') : .barrier ∈ between := by
  have hstep := step_optionalAll hmay body Describes.empty hrun
  exact hstep.synchronized.barrier_mem hconflict

/-- The loops that may be empty and hold no barrier. -/
def passesOver (h : LoopHeader) (body : List Stmt) : Bool :=
  h.mayBeEmpty && !Stmt.synchronizesAll body

/-- An element that is stored into a tensor that is not shared. -/
def ownStore : Op :=
  .unary .set ⟨⟨3⟩, .float, .loop ⟨0⟩⟩ (.element ⟨⟨0⟩, .float, .loop ⟨0⟩⟩)

/-- A store into a shared buffer and a load from it, with rounds between them that share
nothing. -/
def loadBehindOwnRounds : List Stmt :=
  [.op stagedStore, .loop ⟨⟨0⟩, .size ⟨0⟩ 0, .serial, ⟨0⟩⟩ [.op ownStore], .op stagedLoad]

/-- A load behind a loop with its own barriers has one before it, also if the loop is passed over.
-/
theorem loadBehindOwnRounds_barrier_between :
    (∀ h inner, passesOver h inner = true → Stmt.synchronizesAll inner = false) ∧
      Stmt.RunsAll (Stmt.optionalAll passesOver (insertBarriers stagedStorage loadBehindOwnRounds))
        ([] ++ .op stagedStore :: [.barrier] ++ .op stagedLoad :: []) ∧
      Conflict stagedStorage stagedStore stagedLoad ∧ Event.barrier ∈ [Event.barrier] := by
  have hmay : ∀ h inner, passesOver h inner = true → Stmt.synchronizesAll inner = false := by
    intro h inner hpass
    simpa using (Bool.and_eq_true_iff.1 hpass).2
  have hrun : Stmt.RunsAll
      (Stmt.optionalAll passesOver (insertBarriers stagedStorage loadBehindOwnRounds))
      ([] ++ .op stagedStore :: [.barrier] ++ .op stagedLoad :: []) := by
    show Stmt.RunsAll _ ([.op stagedStore] ++ ([] ++ ([.barrier] ++ ([.op stagedLoad] ++ []))))
    exact .cons (.op stagedStore)
      (.cons (.no .nil) (.cons (.barrier false) (.cons (.op stagedLoad) .nil)))
  have hconflict : Conflict stagedStorage stagedStore stagedLoad :=
    ⟨⟨1⟩, .inl ⟨by decide, by decide⟩⟩
  exact ⟨hmay, hrun, hconflict, barrier_between_despite_empty hmay hrun hconflict⟩

/-- A store into a shared buffer, rounds of loads from it, and one more load. -/
def loadsBehindRounds : List Stmt :=
  [.op stagedStore, .loop ⟨⟨0⟩, .size ⟨0⟩ 0, .serial, ⟨0⟩⟩ [.op stagedLoad], .op stagedLoad]

/-- The only barrier stands in the loop, and a run without a round does not meet it. -/
theorem loadsBehindRounds_unprotected :
    ∃ between : List Event,
      Stmt.RunsAll (Stmt.optionalAll (fun h _ => h.mayBeEmpty)
          (insertBarriers stagedStorage loadsBehindRounds))
        ([] ++ .op stagedStore :: between ++ .op stagedLoad :: []) ∧
      Conflict stagedStorage stagedStore stagedLoad ∧ .barrier ∉ between :=
  ⟨[], .cons (.op stagedStore) (.cons (.no .nil) (.cons (.op stagedLoad) .nil)),
    ⟨⟨1⟩, .inl ⟨by decide, by decide⟩⟩, List.not_mem_nil⟩

end Kernel
end FusionCompiler
