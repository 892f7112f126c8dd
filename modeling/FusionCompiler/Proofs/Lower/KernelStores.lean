import FusionCompiler.Proofs.Lower.Arrangement
import FusionCompiler.Proofs.Lower.Stores

/-!
# Stores of a lowered kernel

The body of a kernel is what is emitted for the loop trees of its expressions.
Barriers and the reuse of shared memory are added later; they perform nothing and
open no loop.

Main results:

- Theorem `Kernel.performedAll_insertBarriers`: a kernel performs what was emitted.
- Theorem `Lowered.stores_inside`: every store of a kernel to global memory outside
  the fast paths of unswitched loops is inside its tensor.
-/

namespace FusionCompiler

open Kernel

/-! ## Barriers -/

namespace Kernel

variable (env : Scalar.Env) (storage : ValueId → Option ValueId)

theorem performedAll_protect (s : BarrierState) (a : Accesses) :
    Stmt.performedAll env (s.protect a).1 = [] := by
  unfold BarrierState.protect
  split <;> rfl

theorem headers_protect (s : BarrierState) (a : Accesses) :
    Stmt.headers (s.protect a).1 = [] := by
  unfold BarrierState.protect
  split <;> rfl

mutual

/-- Barriers put into a statement perform nothing and open no loop. -/
theorem performedAll_withBarriers : ∀ (x : Stmt) (s : BarrierState),
    Stmt.performedAll env (x.withBarriers storage s).1 = Stmt.performed env x ∧
      Stmt.headers (x.withBarriers storage s).1 = Stmt.headers [x]
  | .barrier _, _ => ⟨rfl, rfl⟩
  | .allocate _, _ => ⟨rfl, rfl⟩
  | .op o, s => by
      rw [Stmt.withBarriers]
      simp [Stmt.performedAll_append, Stmt.headers_append, performedAll_protect, headers_protect,
        Stmt.performedAll_singleton]
  | .branch c yes no, s => by
      obtain ⟨hyes, hyes'⟩ := performedAll_withBarriersAll yes {}
      obtain ⟨hno, hno'⟩ := performedAll_withBarriersAll no {}
      rw [Stmt.withBarriers]
      simp [Stmt.performedAll_append, Stmt.headers_append, performedAll_protect, headers_protect,
        Stmt.performedAll_singleton, Stmt.headers_branch, Stmt.performed, hyes, hyes', hno, hno']
  | .loop h body, s => by
      obtain ⟨hbody, hbody'⟩ := performedAll_withBarriersAll body s.enterLoop
      have hlast : Stmt.performedAll env [.barrier true] = [] ∧ Stmt.headers [.barrier true] = [] :=
        ⟨rfl, rfl⟩
      rw [Stmt.withBarriers]
      dsimp only
      split
      · simp [Stmt.performedAll_append, Stmt.headers_append, Stmt.performedAll_singleton,
          Stmt.headers_loop, Stmt.performed, hbody, hbody', hlast]
      · simp [Stmt.performedAll_singleton, Stmt.headers_loop, Stmt.performed, hbody, hbody']

/-- Barriers perform nothing and open no loop. -/
theorem performedAll_withBarriersAll : ∀ (xs : List Stmt) (s : BarrierState),
    Stmt.performedAll env (Stmt.withBarriersAll storage xs s).1 = Stmt.performedAll env xs ∧
      Stmt.headers (Stmt.withBarriersAll storage xs s).1 = Stmt.headers xs
  | [], _ => ⟨rfl, rfl⟩
  | x :: xs, s => by
      obtain ⟨hx, hx'⟩ := performedAll_withBarriers x s
      obtain ⟨hxs, hxs'⟩ := performedAll_withBarriersAll xs (x.withBarriers storage s).2
      rw [Stmt.withBarriersAll]
      dsimp only
      rw [Stmt.performedAll_append, Stmt.headers_append, hx, hx', hxs, hxs', ← Stmt.headers_append]
      exact ⟨rfl, rfl⟩

end

/-- What changes neither operations nor loops of any statement changes none of a body. -/
theorem performedAll_map {g : Stmt → Stmt}
    (hg : ∀ x, Stmt.performed env (g x) = Stmt.performed env x ∧
      Stmt.headers [g x] = Stmt.headers [x]) (body : List Stmt) :
    Stmt.performedAll env (body.map g) = Stmt.performedAll env body ∧
      Stmt.headers (body.map g) = Stmt.headers body := by
  induction body with
  | nil => exact ⟨rfl, rfl⟩
  | cons x body ih =>
      have hcons : ∀ (y : Stmt) ys, Stmt.headers (y :: ys) = Stmt.headers [y] ++ Stmt.headers ys :=
        fun y ys => Stmt.headers_append [y] ys
      refine ⟨?_, ?_⟩
      · rw [List.map_cons, Stmt.performedAll, Stmt.performedAll, (hg x).1, ih.1]
      · rw [List.map_cons, hcons (g x), hcons x, (hg x).2, ih.2]

/-- The body of a kernel performs what was emitted. -/
theorem performedAll_insertBarriers (layout : SharedLayout) (body : List Stmt) :
    Stmt.performedAll env (insertBarriers storage (layout.markReuse body)) =
        Stmt.performedAll env body ∧
      Stmt.headers (insertBarriers storage (layout.markReuse body)) = Stmt.headers body := by
  obtain ⟨hperformed, hheaders⟩ := performedAll_withBarriersAll env storage (layout.markReuse body) {}
  obtain ⟨hperformed', hheaders'⟩ :
      Stmt.performedAll env (layout.markReuse body) = Stmt.performedAll env body ∧
        Stmt.headers (layout.markReuse body) = Stmt.headers body := by
    refine performedAll_map env (fun x => ?_) body
    cases x <;> exact ⟨rfl, rfl⟩
  exact ⟨hperformed.trans hperformed', hheaders.trans hheaders'⟩

end Kernel

namespace Lowered

open Fusion Emitter

variable {calls : List Call} {f : Fusion} {l : Lowered} {ext : AxisId → Int}
  {width : ParallelType → Int}

/-- The body of a kernel is what is emitted for its loop trees, with the shared memory that is laid
out for it and the barriers around that. -/
theorem make_layout (h : make f = .ok l) :
    ∃ trees body, LoopTree.exprsAll trees ⊆ l.plan.fusion.tensorExprs ∧
      (ofPlan l.plan).emitBody trees = .ok body ∧
      l.kernel.body = insertBarriers (planSharedMemory l.plan.fusion.dtype body).storage
        ((planSharedMemory l.plan.fusion.dtype body).markReuse body) := by
  obtain ⟨plan, -, h⟩ := Results.bind_eq_ok.1 h
  obtain ⟨vectorized, -, h⟩ := Results.bind_eq_ok.1 h
  obtain ⟨trees, htrees, h⟩ := Results.bind_eq_ok.1 h
  obtain ⟨body, hbody, h⟩ := Results.bind_eq_ok.1 h
  obtain ⟨draft, -, h⟩ := Results.bind_eq_ok.1 h
  cases h
  exact ⟨trees, body, (LoopTree.exprsAll_perm htrees).subset, hbody, rfl⟩

/-- The body of a kernel is what is emitted for its loop trees, with barriers. -/
theorem make_body (h : make f = .ok l) :
    ∃ trees body storage layout, LoopTree.exprsAll trees ⊆ l.plan.fusion.tensorExprs ∧
      (ofPlan l.plan).emitBody trees = .ok body ∧
      l.kernel.body = insertBarriers storage (SharedLayout.markReuse layout body) := by
  obtain ⟨trees, body, htrees, hbody, hkernel⟩ := make_layout h
  exact ⟨trees, body, _, _, htrees, hbody, hkernel⟩

/-- No loop of the kernel is unswitched. -/
def Switchless (l : Lowered) : Prop :=
  ∀ g ∈ l.plan.groups.groups, g.parallel ≠ .unswitch

instance (l : Lowered) : Decidable l.Switchless :=
  inferInstanceAs (Decidable (∀ g ∈ l.plan.groups.groups, g.parallel ≠ .unswitch))

theorem Switchless.parallel_ne (h : l.Switchless) (a : AxisId) :
    l.plan.groups.parallel a ≠ .unswitch := by
  unfold LoopGroups.parallel
  cases hget : l.plan.groups.get? a with
  | none => simp
  | some g => simpa using h g (List.mem_of_find?_eq_some hget)

/-- At the indices of `env`, the kernel performs an operation in the fast path of an unswitched
loop. -/
def Unchecked (l : Lowered) (env : Scalar.Env) (o : Op) : Prop :=
  ∃ trees body storage layout, (ofPlan l.plan).emitBody trees = .ok body ∧
    l.kernel.body = insertBarriers storage (SharedLayout.markReuse layout body) ∧
    (ofPlan l.plan).InFastPath env o body

/-- Without unswitched loops a kernel has no fast paths. -/
theorem Switchless.not_unchecked (h : l.Switchless) {env : Scalar.Env} {o : Op} :
    ¬ l.Unchecked env o := by
  rintro ⟨_, _, _, _, -, -, hfast⟩
  exact not_inFastPath h.parallel_ne hfast

/-- Every store of a kernel to global memory outside the fast paths of unswitched loops is inside
its tensor, if no broadcast along launch types stores there. -/
theorem stores_inside (h : applyAll Schedule.replay calls {} = some f) (hl : make f = .ok l)
    (hconf : ∀ e ∈ l.plan.fusion.tensorExprs, ∀ v ∈ l.plan.fusion.loopTensor? e,
      (ofPlan l.plan).Confines ext width e v) {env : Scalar.Env}
    (hlaunched : l.plan.Launched env width)
    (hsized : ∀ e ∈ l.plan.fusion.tensorExprs, ∀ v ∈ l.plan.fusion.loopTensor? e,
      l.plan.fusion.Sized env (l.plan.fusion.axesOf v) ext)
    (hplaced : ∀ h ∈ Stmt.headers l.kernel.body, h.Placed env) :
    ∀ o ∈ Stmt.performedAll env l.kernel.body, ¬ l.Unchecked env o →
      l.plan.StoresInside ext env o := by
  obtain ⟨groups, hgroups, hplan, -⟩ := make_cases hl
  obtain ⟨trees, body, storage, layout, htrees, hbody, hkernel⟩ := make_body hl
  have hsecure : (ofPlan l.plan).Secure ext width l.plan.fusion.tensorExprs env :=
    ⟨⟨f, by rw [show (ofPlan l.plan).plan = l.plan from rfl, hplan]; exact hgroups⟩,
      (plan_sound h hl).1, rfl, hconf, hlaunched, hsized⟩
  have hshelters := emitTrees_shelters hsecure trees [] htrees
  obtain ⟨hperformed, hheaders⟩ := performedAll_insertBarriers env storage layout body
  rw [hkernel, hheaders] at hplaced
  rw [hkernel, hperformed]
  have hemitted := hbody
  obtain ⟨stmts, hrun, hbody⟩ := Results.bind_eq_ok.1 hbody
  obtain ⟨⟨stmts, s'⟩, hgives, hrun⟩ := Results.bind_eq_ok.1 hrun
  cases hrun
  cases hbody
  rw [Stmt.headers_append, List.forall_mem_append] at hplaced
  rw [Stmt.performedAll_append, performedAll_allocations, List.nil_append]
  intro o ho hchecked
  have hinside := (hshelters 0 stmts s' hgives).2 (fun fr hfr => by cases hfr) hplaced.2 o ho
  exact hinside.resolve_right fun hfast =>
    hchecked ⟨trees, _, storage, layout, hemitted, hkernel, .right _ hfast⟩

/-- Sums of five rows of four elements, two rows to a block and one thread for each column. -/
def blockedRowSums : List Call :=
  [.tensor [5, 4] [true, true] .float, .input ⟨0⟩, .reduce .add ⟨0⟩ [1], .output ⟨7⟩,
    .split ⟨7⟩ 0 (.const 2) true, .parallelize ⟨7⟩ 0 .blockX, .parallelize ⟨7⟩ 2 .threadX]

/-- The first row of the last block, as its first thread sees it. -/
def lastRow : Scalar.Env where
  launchIndex := fun t => if t = .blockX then some 2 else some 0
  loop := fun _ => some 0

/-- The extents of the rows, the columns, the blocks and the rows of a block. -/
def rowSumExtents (a : AxisId) : Int :=
  [5, 4, 5, 4, 3, 2].getD a.index 1

/-- The width of a launch of three blocks of four threads. -/
def rowSumWidth (t : ParallelType) : Int :=
  if t = .blockX then 3 else if t = .threadX then 4 else 1

theorem blockedRowSums_stores_inside :
    ∃ f l, applyAll Schedule.replay blockedRowSums {} = some f ∧ make f = .ok l ∧
      (∃ o ∈ Stmt.performedAll lastRow l.kernel.body, ∃ x ∈ o.outputs,
        l.plan.fusion.memoryOf x.tensor = .global) ∧
      ∀ o ∈ Stmt.performedAll lastRow l.kernel.body, l.plan.StoresInside rowSumExtents lastRow o := by
  have hrun : ((applyAll Schedule.replay blockedRowSums {}).any fun f =>
      (make f).toOption.any fun (l : Lowered) => decide (l.Switchless ∧
        (∀ e ∈ l.plan.fusion.tensorExprs, ∀ v ∈ l.plan.fusion.loopTensor? e,
          (ofPlan l.plan).Confines rowSumExtents rowSumWidth e v ∧
            l.plan.fusion.Sized lastRow (l.plan.fusion.axesOf v) rowSumExtents) ∧
        (∀ t ∈ ParallelType.all, ∀ extents ∈ l.plan.launchExtents.get? t, ∀ s ∈ extents,
          s.evaluate lastRow = some (.int (rowSumWidth t))) ∧
        (∀ h ∈ Stmt.headers l.kernel.body, h.Placed lastRow) ∧
        ∃ o ∈ Stmt.performedAll lastRow l.kernel.body, ∃ x ∈ o.outputs,
          l.plan.fusion.memoryOf x.tensor = .global)) = true := by
    decide +kernel
  obtain ⟨f, hf, hl⟩ := (Option.any_eq_true _ _).1 hrun
  obtain ⟨l, hl, hchecks⟩ := (Option.any_eq_true _ _).1 hl
  obtain ⟨hswitchless, hconf, hwidth, hplaced, hstores⟩ := of_decide_eq_true hchecks
  have hlaunched : l.plan.Launched lastRow rowSumWidth := by
    refine ⟨fun t _ => ?_, fun t s hs => ?_⟩
    · cases t
      case blockX => exact ⟨2, rfl, by decide, by decide⟩
      all_goals exact ⟨0, rfl, by decide, by decide⟩
    · have hmem : t ∈ ParallelType.all := by cases t <;> decide
      exact hwidth t hmem _ hs s List.mem_cons_self
  have hmake := Results.ok_of_toOption hl
  refine ⟨f, l, hf, hmake, hstores, ?_⟩
  exact fun o ho => stores_inside hf hmake (fun e he v hv => (hconf e he v hv).1) hlaunched
    (fun e he v hv => (hconf e he v hv).2) hplaced o ho hswitchless.not_unchecked

/-- Column sums over the threads of a block, spread back along these threads and stored two columns
at a time. -/
def spreadColumnSums : List Call :=
  [.tensor [4, 3] [true, true] .float, .input ⟨0⟩, .reduce .add ⟨0⟩ [0],
    .broadcast ⟨7⟩ [true, false], .output ⟨11⟩, .parallelize ⟨7⟩ 0 .threadX,
    .split ⟨11⟩ 1 (.const 2) true, .parallelize ⟨11⟩ 0 .threadX]

/-- The second of the last two columns, which is behind the last column. -/
def behindLastColumn : Scalar.Env where
  launchIndex := fun _ => some 0
  loop := fun l => if l.index ≤ 2 then some 0 else some 1

/-- The leaves of the result at the indices of its loops. -/
def columnIndices : AxisIndices :=
  ((AxisIndices.empty.set ⟨4⟩ .zero).set ⟨6⟩ (.loop ⟨3⟩)).set ⟨7⟩ (.loop ⟨4⟩)

theorem spreadColumnSums_not_inside :
    ∃ f l, applyAll Schedule.replay spreadColumnSums {} = some f ∧ make f = .ok l ∧
      (∀ h ∈ Stmt.headers l.kernel.body, h.Placed behindLastColumn) ∧
      ∃ o ∈ Stmt.performedAll behindLastColumn l.kernel.body, o.storesAt behindLastColumn = true ∧
        ∃ x ∈ o.outputs, l.plan.fusion.memoryOf x.tensor = .global ∧
          l.plan.globalIndex x.tensor (l.plan.backward x.tensor columnIndices) = .ok x.index ∧
          ∃ a ∈ l.plan.fusion.shape x.tensor,
            (l.plan.fusion.ownExtent a).evaluate behindLastColumn = some (.int 3) ∧
            LoopPlan.pointOf behindLastColumn (l.plan.backward x.tensor columnIndices) a = 3 := by
  have hrun : ((applyAll Schedule.replay spreadColumnSums {}).any fun f =>
      (make f).toOption.any fun (l : Lowered) => decide (
        (∀ h ∈ Stmt.headers l.kernel.body, h.Placed behindLastColumn) ∧
        ∃ o ∈ Stmt.performedAll behindLastColumn l.kernel.body, o.storesAt behindLastColumn = true ∧
          ∃ x ∈ o.outputs, l.plan.fusion.memoryOf x.tensor = .global ∧
            ((l.plan.globalIndex x.tensor (l.plan.backward x.tensor columnIndices)).toOption.any
              fun index => index == x.index && x.index.floatFree) = true ∧
            ∃ a ∈ l.plan.fusion.shape x.tensor,
              (l.plan.fusion.ownExtent a).evaluate behindLastColumn = some (.int 3) ∧
              LoopPlan.pointOf behindLastColumn (l.plan.backward x.tensor columnIndices) a = 3)) =
                true := by
    decide +kernel
  obtain ⟨f, hf, hl⟩ := (Option.any_eq_true _ _).1 hrun
  obtain ⟨l, hl, hchecks⟩ := (Option.any_eq_true _ _).1 hl
  obtain ⟨hplaced, o, ho, hstores, x, hx, hglobal, hindex, hbehind⟩ := of_decide_eq_true hchecks
  obtain ⟨index, hindex, hsame⟩ := (Option.any_eq_true _ _).1 hindex
  obtain ⟨hsame, hfree⟩ := Bool.and_eq_true_iff.1 hsame
  refine ⟨f, l, hf, Results.ok_of_toOption hl, hplaced, o, ho, hstores, x, hx, hglobal, ?_, hbehind⟩
  rw [Results.ok_of_toOption hindex, Scalar.eq_of_beq_floatFree (.inr hfree) hsame]

end Lowered
end FusionCompiler
