import FusionCompiler.Proofs.Integers
import FusionCompiler.Proofs.Kernel.Mirroring

/-!
# One thread after another

A kernel is executed in lockstep: each statement for all threads before the next
one starts.  If its operations are serial, its loops and allocations do not depend
on the thread, and its threads do not race, then the threads may as well run one
after the other, in any order.

While threads finish one by one, the others still see what they see in lockstep,
because no thread writes what another one accesses.  A buffer holds what finished
threads write in lockstep, and elsewhere what it held at the start.

Main results:

- Theorem `Kernel.Finished.step`: what one more thread leaves.
- Theorem `Kernel.Run.execAll_oneByOne`: running the threads one after the other
  succeeds and leaves the same buffers.
-/

namespace FusionCompiler
namespace Kernel

variable {α : Type} {A : Arithmetic α} {l : Launch} {m m' n n' : Machine α}
  {active : List Nat} {t : Nat}

/-! ## Threads in any order -/

/-- No thread but one writes a cell. -/
def Owns (accesses : List Access) (t : Nat) (c : Cell) : Prop :=
  ∀ a ∈ accesses, a.write = true → a.cell = c → a.thread = t

/-- Without races a thread accesses only cells that no other thread writes. -/
theorem RaceFree.allowed {accesses : List Access} (h : RaceFree accesses)
    (hreach : ∀ a ∈ accesses, l.Reaches a.thread a.cell.1) (t : Nat) :
    ∀ a ∈ accesses, a.Allowed t (Owns accesses t) := by
  intro b hb
  refine ⟨fun hbt a ha hw hcell => ?_, fun hne hw howns => hne (howns b hb hw rfl)⟩
  subst hbt
  have hreach_a := hreach a ha
  have hreach_b := hreach b hb
  rw [← hcell] at hreach_b
  cases hplace : a.cell.1 with
  | register s v =>
      rw [hplace] at hreach_a hreach_b
      exact hreach_a.symm.trans hreach_b
  | buffer i => exact h a ha b hb (by rw [hplace]; rfl) hcell hw
  | shared s v => exact h a ha b hb (by rw [hplace]; rfl) hcell hw

/-- Buffers with the same elements are the same. -/
theorem Machine.buffers_eq (hsize : m.buffers.size = n.buffers.size)
    (h : ∀ j i, m.get? (.buffer j, i) = n.get? (.buffer j, i)) : m.buffers = n.buffers := by
  refine Array.ext hsize fun j hm hn => Array.ext_getElem? fun i => ?_
  have := h j i
  simpa only [Machine.get?, Machine.storage?, Array.getElem?_eq_getElem hm,
    Array.getElem?_eq_getElem hn, Option.bind_some] using this

/-- Some threads have run alone on `m`, where lockstep leads to `m'`.  The other threads still see
what they see in lockstep, and buffers hold what the finished threads write. -/
structure Finished (A : Arithmetic α) (l : Launch) (accesses : List Access) (active : List Nat)
    (m m' : Machine α) (done : List Nat) (n : Machine α) : Prop where
  views : ∀ t ∈ active, t ∉ done → View A l t (Owns accesses t) m n
  size : n.buffers.size = m.buffers.size
  written : ∀ a ∈ accesses, a.write = true → a.thread ∈ done → ∀ j, a.cell.1 = .buffer j →
    n.get? a.cell = m'.get? a.cell
  kept : ∀ c : Cell, ∀ j, c.1 = .buffer j →
    (∀ a ∈ accesses, a.write = true → a.thread ∈ done → a.cell ≠ c) → n.get? c = m.get? c

namespace Finished

variable {accesses own : List Access} {done : List Nat}

theorem start : Finished A l accesses active m m' [] m :=
  ⟨fun _ _ _ => ⟨fun _ _ h => h, rfl, rfl, fun _ _ _ => .inl rfl⟩, rfl, by simp,
    fun _ _ _ _ => rfl⟩

/-- One more thread runs alone. -/
theorem step (h : Finished A l accesses active m m' done n) (hstart : m.loops = [])
    (hallowed : ∀ a ∈ accesses, a.Allowed t (Owns accesses t))
    (hview : View A l t (Owns accesses t) m' n') (hown : ∀ a ∈ own, a ∈ accesses)
    (hconfined : Confined A l True (fun _ => False) own [t] n n') :
    Finished A l accesses active m m' (t :: done) n' := by
  have hthread : ∀ a ∈ own, a.thread = t := fun a ha =>
    List.mem_singleton.1 (hconfined.threads a ha).1
  have howns : ∀ a ∈ own, a.write = true → Owns accesses t a.cell := fun a ha hw =>
    (hallowed a (hown a ha)).1 (hthread a ha)
  refine ⟨fun s hs hdone => ?_, hconfined.buffers.trans h.size, fun a ha hw hdone j hj => ?_,
    fun c j hj hnot => ?_⟩
  · -- the other threads see the same as before
    obtain ⟨hst, hdone⟩ := not_or.1 (mt List.mem_cons.2 hdone)
    have hother := h.views s hs hdone
    refine ⟨by simp [hstart], hconfined.registers.trans hother.registers,
      hconfined.shared.trans hother.shared, fun c hreach hP => ?_⟩
    obtain ⟨a, ha, hw, rfl⟩ | ⟨u, hu, v, hv⟩ | hsame | ⟨-, hshared, hnone, hzero⟩ :=
      hconfined.cells c
    · exact absurd ((hP a (hown a ha) hw rfl).symm.trans (hthread a ha)) hst
    · rw [hv, List.mem_singleton.1 hu] at hreach
      exact absurd hreach.symm hst
    · rw [hsame]
      exact hother.cells c hreach hP
    · obtain hsame | ⟨-, -, hgrown⟩ := hother.cells c hreach hP
      · exact .inr ⟨hshared, hsame ▸ hnone, hzero⟩
      · rw [hnone] at hgrown
        cases hgrown
  · by_cases hthread : a.thread = t
    · have hP := (hallowed a ha).1 hthread
      obtain hsame | ⟨⟨b, v, hv⟩, -⟩ := hview.cells a.cell (by rw [hj]; trivial) hP
      · exact hsame
      · rw [hj] at hv
        cases hv
    · have hold := h.written a ha hw ((List.mem_cons.1 hdone).resolve_left hthread) j hj
      rw [← hold]
      refine hconfined.get?_buffer hj fun b hb hwb hcell => hthread ?_
      exact howns b hb hwb a ha hw hcell.symm
  · rw [← h.kept c j hj fun a ha hw hdone => hnot a ha hw (List.mem_cons_of_mem _ hdone)]
    exact hconfined.get?_buffer hj fun a ha hw =>
      hnot a (hown a ha) hw (hthread a ha ▸ List.mem_cons_self)

end Finished

namespace Run

variable {body : List Stmt}

/-- More threads run one after the other. -/
theorem forM_finished (hbody : Sequential l active (Stmt.flattenAll body))
    (hnodup : active.Nodup) (hstart : m.loops = [])
    (hrun : Returns (execAll A l body active) m () m')
    (hallowed : ∀ t, ∀ a ∈ accessesAll A l body active m,
      a.Allowed t (Owns (accessesAll A l body active m) t))
    {rest done : List Nat} (hrest : (rest.reverse ++ done).Nodup) (hactive : ∀ t ∈ rest, t ∈ active)
    (h : Finished A l (accessesAll A l body active m) active m m' done n) :
    ∃ n', Returns (rest.forM fun t => execAll A l body [t]) n () n' ∧
      Finished A l (accessesAll A l body active m) active m m' (rest.reverse ++ done) n' := by
  induction rest generalizing done n with
  | nil => exact ⟨n, returns_forM_nil.2 rfl, h⟩
  | cons t rest ih =>
      rw [List.reverse_cons, List.append_assoc, List.singleton_append] at hrest ⊢
      have ht := hactive t List.mem_cons_self
      have hnot : t ∉ done := (List.nodup_cons.1 hrest.of_append_right).1
      obtain ⟨n₁, hone, hview, hown⟩ := execAll_mirrored body hbody hnodup (fun _ h => h) ht m m' n
        (h.views t ht hnot) hrun (hallowed t)
      have hconfined : Confined A l True _ _ [t] n n₁ :=
        execAll_confined body hbody.serial (fun _ _ _ => trivial) hone
      obtain ⟨n', hothers, hfinished⟩ := ih hrest
        (fun s hs => hactive s (List.mem_cons_of_mem t hs))
        (h.step hstart (hallowed t) hview hown hconfined)
      exact ⟨n', returns_forM_cons.2 ⟨n₁, hone, hothers⟩, hfinished⟩

/-- Threads that do not race may run one after the other, in any order.  If a sequential body that
starts outside all loops succeeds in lockstep, each thread succeeds alone on what the threads before
it leave, and in the end the buffers are the same. -/
theorem execAll_oneByOne {order : List Nat} (hbody : Sequential l active (Stmt.flattenAll body))
    (hnodup : active.Nodup) (hstart : m.loops = [])
    (hrun : Returns (execAll A l body active) m () m')
    (hrace : RaceFree (accessesAll A l body active m)) (horder : order.Perm active) :
    ∃ m'', Returns (order.forM fun t => execAll A l body [t]) m () m'' ∧
      m''.buffers = m'.buffers := by
  have hconfined : Confined A l True _ _ active m m' :=
    execAll_confined body hbody.serial (fun _ _ _ => trivial) hrun
  have hallowed := fun t => hrace.allowed (fun a ha => (hconfined.threads a ha).2) t
  have hrest : (order.reverse ++ []).Nodup := by
    simpa using horder.nodup_iff.2 hnodup
  obtain ⟨m'', halone, hfinished⟩ := forM_finished hbody hnodup hstart hrun hallowed hrest
    (fun t ht => horder.mem_iff.1 ht) .start
  refine ⟨m'', halone, Machine.buffers_eq (hfinished.size.trans hconfined.buffers.symm)
    fun j i => ?_⟩
  by_cases hwritten : ∃ a ∈ accessesAll A l body active m, a.write = true ∧ a.cell = (.buffer j, i)
  · obtain ⟨a, ha, hw, hcell⟩ := hwritten
    have hdone : a.thread ∈ order.reverse ++ [] := by
      simpa using horder.mem_iff.2 (hconfined.threads a ha).1
    rw [← hcell]
    exact hfinished.written a ha hw hdone j (by rw [hcell])
  · -- what nobody writes is what it was
    rw [hfinished.kept (.buffer j, i) j rfl fun a ha hw _ hcell => hwritten ⟨a, ha, hw, hcell⟩]
    exact (hconfined.get?_buffer rfl fun a ha hw hcell => hwritten ⟨a, ha, hw, hcell⟩).symm

/-! ### Two blocks of two threads -/

/-- The element of a thread in a buffer of a launch with two threads in each block. -/
def elementOf (v : ValueId) : Element :=
  ⟨v, .int64, .binary .add (.binary .mul (.launchIndex .blockX) (.int 2)) (.launchIndex .threadX)⟩

/-- Threads double their elements in registers and pass them through shared memory.  The first
thread of a block adds its element once more. -/
def doubling : List Stmt :=
  let doubled : Element := ⟨⟨2⟩, .int64, .zero⟩
  let passed : Element := ⟨⟨3⟩, .int64, .launchIndex .threadX⟩
  [.allocate ⟨⟨2⟩, .local, .int64, .int 1, none⟩,
    .allocate ⟨⟨3⟩, .shared, .int64, .int 2, none⟩,
    .op (.init doubled (.int 0)),
    .loop ⟨⟨0⟩, .int 2, .serial, ⟨0⟩⟩
      [.op (.reduce .add doubled (.element (elementOf ⟨0⟩)) (.int 0) .serial)],
    .op (.broadcast passed (.element doubled) .serial),
    .barrier false,
    .branch (.binary .lt (.launchIndex .threadX) (.int 1))
      [.op (.binary .add (elementOf ⟨1⟩) (.element passed) (.element (elementOf ⟨0⟩)))]
      [.op (.broadcast (elementOf ⟨1⟩) (.element passed) .serial)]]

def doublingLaunch : Launch :=
  .make doubling { sizes := [2, 1, 1, 2, 1, 1] }
    [.tensor ⟨⟨0⟩, 0, .int64, [4], [1]⟩, .tensor ⟨⟨1⟩, 1, .int64, [4], [1]⟩]

def doublingStart : Machine Int where
  buffers := #[#[1, 2, 3, 4], #[0, 0, 0, 0]]
  registers := #[[], [], [], []]
  shared := #[[], []]

theorem sequential_doubling :
    Sequential doublingLaunch [0, 1, 2, 3] (Stmt.flattenAll doubling) where
  serial := by
    intro o ho
    simp only [doubling, Stmt.flattenAll, Stmt.flatten, List.cons_append, List.nil_append,
      List.mem_cons, reduceCtorEq, Stmt.op.injEq, List.not_mem_nil, false_or, or_false] at ho
    obtain rfl | rfl | rfl | rfl | rfl := ho <;> rfl
  loops := by
    intro h body hloop _
    simp only [doubling, Stmt.flattenAll, Stmt.flatten, List.cons_append, List.nil_append,
      List.mem_cons, reduceCtorEq, Stmt.loop.injEq, List.not_mem_nil, false_or, or_false] at hloop
    obtain ⟨rfl, -⟩ := hloop
    exact fun _ _ _ _ _ => rfl
  allocations := by
    intro a ha
    simp only [doubling, Stmt.flattenAll, Stmt.flatten, List.cons_append, List.nil_append,
      List.mem_cons, reduceCtorEq, Stmt.allocate.injEq, List.not_mem_nil, or_false] at ha
    obtain rfl | rfl := ha <;> exact fun _ _ _ _ _ => rfl
  conditionals := by
    intro cond yes no hbranch a ha
    simp only [doubling, Stmt.flattenAll, Stmt.flatten, List.cons_append, List.nil_append,
      List.mem_cons, reduceCtorEq, Stmt.branch.injEq, List.not_mem_nil, false_or, or_false] at hbranch
    obtain ⟨-, rfl, rfl⟩ := hbranch
    simp [Stmt.flattenAll, Stmt.flatten] at ha

/-- The threads of the two blocks may run in an order that mixes the blocks. -/
theorem doubling_oneByOne :
    ∃ m', Returns (execAll .integers doublingLaunch doubling [0, 1, 2, 3]) doublingStart () m' ∧
      RaceFree (accessesAll .integers doublingLaunch doubling [0, 1, 2, 3] doublingStart) ∧
      ∃ m'', Returns ([2, 0, 3, 1].forM fun t => execAll .integers doublingLaunch doubling [t])
          doublingStart () m'' ∧
        m''.buffers = #[#[1, 2, 3, 4], #[3, 4, 9, 8]] := by
  have hrun : Returns (execAll .integers doublingLaunch doubling [0, 1, 2, 3]) doublingStart ()
      (after (execAll .integers doublingLaunch doubling [0, 1, 2, 3]) doublingStart) :=
    returns_after (by decide +kernel)
  have hrace :
      RaceFree (accessesAll .integers doublingLaunch doubling [0, 1, 2, 3] doublingStart) := by
    decide +kernel
  obtain ⟨m'', halone, hbuffers⟩ := execAll_oneByOne sequential_doubling (by decide) rfl hrun hrace
    (show [2, 0, 3, 1].Perm [0, 1, 2, 3] by decide)
  refine ⟨_, hrun, hrace, m'', halone, hbuffers.trans ?_⟩
  decide +kernel

end Run

end Kernel
end FusionCompiler
