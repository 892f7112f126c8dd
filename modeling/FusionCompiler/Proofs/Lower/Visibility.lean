import FusionCompiler.Proofs.Lower.Barriers
import FusionCompiler.Proofs.Lower.KernelStores
import FusionCompiler.Proofs.Lower.SharedLayout
import FusionCompiler.Proofs.Lower.SharedLoops
import FusionCompiler.Proofs.Lower.ValidThreads

/-!
# Visibility of intermediate results

Where a leaf of a tensor is bound to a launch type, the threads along the type
compute parts of the tensor.  A reader that is bound in the same way reads what its
own thread wrote, and any other reader needs a barrier before it reads.

Registers and shared memory are covered: the binding check demands a match along
every type that the memory does not reach, and barriers are inserted around shared
memory.  Global memory reaches all threads, so that the check demands nothing, but
no barrier is inserted for it.  What is left is inlining: a leaf inside the
compute-at position shares its loop with a leaf of every consumer.

Main results:

- Theorem `LoopGroups.exists_sharing_of_inlined`: an inlined leaf shares its loop
  with a leaf of the consumer.
- Theorem `Lowered.separated_of_shared`: between a write and a read of a tensor in
  shared memory there is a barrier.
- Theorem `Lowered.raceFree_iff`: intermediates are free of races, except for
  those in global memory, which have to be guarded along their leaves outside of the
  compute-at position.
-/

namespace FusionCompiler

/-! ## Inlined leaves -/

namespace LoopGroups

open DisjointSets Fusion

variable {f : Fusion} {m : LoopGroups} {s s' : DisjointSets AxisId} {v c : ValueId} {a b : AxisId}

/-- An edge is joined only if every inlined leaf has a leaf of the consumer as its counterpart. -/
theorem exists_counterpart_of_joinEdge (h : joinEdge f s v c = .ok s')
    (ha : a ∈ (f.leaf v).take (f.view v).computeAt) :
    ∃ b ∈ f.leaf c, (f.counterparts v c).get? a = some b := by
  unfold joinEdge at h
  obtain ⟨pairs, hpairs, h⟩ := Results.bind_eq_ok.1 h
  obtain rfl := eq_of_rootPairs? hpairs
  obtain ⟨-, hall⟩ := Results.foldlM_establishes (R := fun _ _ => True)
    (Q := fun (q : AxisId × Nat) _ => ∃ b ∈ f.leaf c, (f.counterparts v c).get? q.1 = some b)
    (fun _ => trivial) (fun _ _ _ _ _ => trivial) (fun _ _ _ hq _ => hq) (fun s s' q hs => by
      dsimp only at hs
      split at hs
      next target htarget =>
        obtain ⟨hget, hleaf⟩ := Option.filter_eq_some_iff.1 htarget
        exact ⟨trivial, target, by simpa using hleaf, hget⟩
      next => cases hs) h
  obtain ⟨i, hi⟩ := List.mem_iff_getElem?.1 ha
  exact hall (a, i) (List.mem_zipIdx_iff_getElem?.2 hi)

/-- Axes with one group name share their loop and its binding. -/
theorem sharing_of_together (hs : Ordered m.sets) (h : Together m.sets a b) :
    m.sameLoop a b = true ∧ m.parallel b = m.parallel a := by
  have hname : m.name a = m.name b := h.find_eq hs
  constructor
  · unfold sameLoop DisjointSets.same
    rw [Bool.or_eq_true]
    exact .inr (decide_eq_true hname)
  · unfold parallel get?
    rw [hname]

/-- An inlined leaf shares its loop, and the binding of the loop, with a leaf of the consumer. -/
theorem exists_sharing_of_inlined (h : build f = .ok m) (hedge : (v, c) ∈ inlinedEdges f)
    (ha : a ∈ (f.leaf v).take (f.view v).computeAt) :
    ∃ b ∈ f.leaf c, m.sameLoop a b = true ∧ m.parallel b = m.parallel a := by
  obtain ⟨hordered, -, hjoined⟩ := build_joined h
  obtain ⟨-, hall⟩ := Results.foldlM_establishes (R := fun _ _ => True)
    (Q := fun (x : ValueId × ValueId) _ => ∀ a ∈ (f.leaf x.1).take (f.view x.1).computeAt,
      ∃ b ∈ f.leaf x.2, (f.counterparts x.1 x.2).get? a = some b)
    (fun _ => trivial) (fun _ _ _ _ _ => trivial) (fun _ _ _ hx _ => hx)
    (fun _ _ _ hs => ⟨trivial, fun _ ha => exists_counterpart_of_joinEdge hs ha⟩) (build_cases h).1
  obtain ⟨b, hb, hget⟩ := hall _ hedge a ha
  refine ⟨b, hb, sharing_of_together hordered (hjoined _ hedge a ?_ b hget)⟩
  exact List.mem_flatMap.2 ⟨a, ha, List.mem_cons_self⟩

end LoopGroups

/-! ## Matched leaves -/

namespace LoopPlan

open Fusion

variable {p : LoopPlan} {v c : ValueId} {a : AxisId}

/-- The threads along a launch type each compute a part of a tensor that has the leaf. -/
def Divides (p : LoopPlan) (a : AxisId) : Prop :=
  (p.groups.parallel a).isLaunch = true ∧ (p.fusion.axis a).isReduction = false ∧
    (p.fusion.axis a).isBroadcast = false

/-- The consumer has a leaf with the binding of the producer's leaf that shares its loop or is its
counterpart. -/
def Matched (p : LoopPlan) (v c : ValueId) (a : AxisId) : Prop :=
  ∃ b ∈ p.fusion.leaf c, p.groups.parallel b = p.groups.parallel a ∧
    (p.groups.sameLoop a b = true ∨ (p.fusion.counterparts v c).get? a = some b)

/-- Of the memories of a kernel only the shared one reaches further than a thread, along thread
types. -/
theorem shared_of_reaches {memory : MemoryType} {t : ParallelType}
    (h : reaches memory (requiredMemory t) = true) (hmem : memory ≠ .global) :
    memory = .shared ∧ t.isThread = true := by
  unfold reaches requiredMemory at h
  have hrank := of_decide_eq_true h
  cases memory
  · split at hrank
    · exact absurd hrank (by decide)
    · exact absurd hrank (by decide)
  · split at hrank
    case isTrue hthread => exact ⟨rfl, hthread⟩
    case isFalse => exact absurd hrank (by decide)
  · exact absurd rfl hmem

instance (p : LoopPlan) (a : AxisId) : Decidable (p.Divides a) :=
  inferInstanceAs (Decidable (_ ∧ _ ∧ _))

instance (p : LoopPlan) (v c : ValueId) (a : AxisId) : Decidable (p.Matched v c a) :=
  inferInstanceAs (Decidable (∃ b ∈ p.fusion.leaf c, p.groups.parallel b = p.groups.parallel a ∧
    (p.groups.sameLoop a b = true ∨ (p.fusion.counterparts v c).get? a = some b)))

/-- The binding check demands a match along every type that the memory does not reach. -/
theorem matched_of_checkEdge (h : p.checkEdge v c = .ok ()) (ha : a ∈ p.fusion.leaf v)
    (hdiv : p.Divides a)
    (hmem : reaches (p.fusion.memoryOf v) (requiredMemory (p.groups.parallel a)) = false) :
    p.Matched v c a := by
  obtain ⟨hlaunch, hred, hbroadcast⟩ := hdiv
  unfold checkEdge at h
  obtain ⟨pairs, hpairs, h⟩ := Results.bind_eq_ok.1 h
  obtain rfl := eq_of_rootPairs? hpairs
  have hleaf := Results.of_forM h ha
  dsimp only at hleaf
  rw [hred, hbroadcast, hlaunch, hmem] at hleaf
  split at hleaf
  case isTrue hmatched =>
      simp only [Bool.false_or, Bool.not_true, List.any_eq_true, Bool.and_eq_true, beq_iff_eq,
        Bool.or_eq_true] at hmatched
      exact hmatched
  case isFalse => cases hleaf

/-- Every edge from a tensor outside of global memory has passed the binding check. -/
theorem checkEdge_of_checkParallelization (h : p.checkParallelization = .ok ()) {e : ExprId}
    (he : e ∈ p.fusion.tensorExprs) (hv : v ∈ p.fusion.tensorInputs e)
    (hmem : p.fusion.memoryOf v ≠ .global) (hc : c ∈ p.fusion.tensorOutputs e) :
    p.checkEdge v c = .ok () := by
  have hexpr := Results.of_forM h he
  have hproducer := Results.of_forM hexpr (List.mem_filter.2 ⟨hv, by simpa using hmem⟩)
  exact Results.of_forM hproducer hc

end LoopPlan

/-! ## Barriers around shared memory -/

namespace Kernel

/-- The operation writes an element of a tensor. -/
def Op.Writes (o : Op) (v : ValueId) : Prop :=
  ∃ x ∈ o.outputs, x.tensor = v

/-- The operation reads an element of a tensor. -/
def Op.Reads (o : Op) (v : ValueId) : Prop :=
  ∃ x ∈ o.inputs, x.tensor = v

/-- The event makes the threads along a launch type wait for each other. -/
def Event.covers (t : ParallelType) : Event → Bool
  | .barrier => t.isThread
  | .op o => o.collective?.any (·.types.contains t)

/-- The tensors that an event reads and writes, if it is an operation. -/
def Event.touched : Event → Option (List ValueId × List ValueId)
  | .barrier => none
  | .op o => some (o.inputs.map (·.tensor), o.outputs.map (·.tensor))

variable {storage : ValueId → Option ValueId} {o o' : Op} {v w : ValueId}

/-- An event that touches tensors is an operation that reads and writes them. -/
theorem Event.exists_op_of_touched {x : Event} {reads writes : List ValueId}
    (h : x.touched = some (reads, writes)) :
    ∃ o, x = .op o ∧ (∀ v, o.Reads v ↔ v ∈ reads) ∧ ∀ v, o.Writes v ↔ v ∈ writes := by
  cases x with
  | barrier => cases h
  | op o =>
      cases h
      exact ⟨o, rfl, fun v => List.mem_map.symm, fun v => List.mem_map.symm⟩

/-- A write of a shared tensor and a read of it conflict. -/
theorem conflict_of_writes_reads (hstorage : storage v = some w) (hwrite : o.Writes v)
    (hread : o'.Reads v) : Conflict storage o o' := by
  obtain ⟨x, hx, rfl⟩ := hwrite
  obtain ⟨y, hy, hsame⟩ := hread
  refine ⟨w, .inl ⟨List.mem_filterMap.2 ⟨x, hx, hstorage⟩, List.mem_filterMap.2 ⟨y, hy, ?_⟩⟩⟩
  rw [hsame]
  exact hstorage

/-- Every tensor that a body allocates in shared memory has a buffer there. -/
theorem exists_storage (dtypeOf : ValueId → DataType) {body : List Stmt} {a : Allocation}
    (ha : a ∈ sharedAllocations body) :
    ∃ b, (planSharedMemory dtypeOf body).storage a.tensor = some b := by
  set requests := (sharedRequests dtypeOf (broadcastTensors body) body).mergeSort
    SharedRequest.comesBefore with hrequests
  have hrequest : a.tensor ∈ requests.map (·.tensor) := by
    rw [hrequests, ((List.mergeSort_perm _ _).map _).mem_iff]
    simpa [sharedRequests, sharedAllocations] using ⟨a, by simpa [sharedAllocations] using ha, rfl⟩
  have hbuffers : (planSharedMemory dtypeOf body).buffers.map (·.tensor) =
      requests.map (·.tensor) := by
    have hall := congrArg (List.map (·.1)) (@buffers_foldl (broadcastTensors body) requests {})
    simp only [List.map_map, Function.comp_def, List.map_nil, List.nil_append] at hall
    exact hall
  rw [← hbuffers] at hrequest
  obtain ⟨b, hb, htensor⟩ := List.mem_map.1 hrequest
  unfold SharedLayout.storage
  cases hfind : (planSharedMemory dtypeOf body).buffers.reverse.find? (·.tensor == a.tensor) with
  | some b => exact ⟨_, rfl⟩
  | none =>
      have hnone := List.find?_eq_none.1 hfind b (List.mem_reverse.2 hb)
      simp [htensor] at hnone

end Kernel

/-! ## Intermediates -/

namespace Fusion

/-- The value is computed and is no input and no output. -/
def Intermediate (f : Fusion) (v : ValueId) : Prop :=
  f.isInput v = false ∧ f.isOutput v = false ∧ (f.definition v).isSome = true

instance (f : Fusion) (v : ValueId) : Decidable (f.Intermediate v) :=
  inferInstanceAs (Decidable (_ ∧ _ ∧ _))

end Fusion

namespace Lowered

open Kernel Fusion Emitter

variable {calls : List Call} {f : Fusion} {l : Lowered} {v c : ValueId} {e : ExprId} {a : AxisId}

/-- In every run of the kernel, an event that covers the launch type lies between a write of the
tensor and a later read of it for another one. -/
def Separated (l : Lowered) (v c : ValueId) (t : ParallelType) : Prop :=
  ∀ before between after : List Event, ∀ o o' : Op,
    Stmt.RunsAll l.kernel.body (before ++ .op o :: between ++ .op o' :: after) →
      o.Writes v → o'.Reads v → o'.Writes c → ∃ x ∈ between, x.covers t = true

/-- The leaf is matched in the consumer, or a barrier makes up for it. -/
def Guarded (l : Lowered) (v c : ValueId) (a : AxisId) : Prop :=
  l.plan.Matched v c a ∨ l.Separated v c (l.plan.groups.parallel a)

/-- An expression reads nothing of a tensor that other threads may still have to write. -/
def RaceFree (l : Lowered) (v : ValueId) (e : ExprId) : Prop :=
  ∀ c ∈ l.plan.fusion.tensorOutputs e, ∀ a ∈ l.plan.fusion.leaf v, l.plan.Divides a →
    l.Guarded v c a

/-- A tensor in shared memory is allocated before all loops. -/
theorem mem_topLevel_of_shared {p : LoopPlan} (hf : Founded p.fusion) (hv : p.fusion.Intermediate v)
    (he : e ∈ p.fusion.tensorExprs) (hread : v ∈ p.fusion.tensorInputs e)
    (hmem : p.fusion.memoryOf v = .shared) : v ∈ (ofPlan p).topLevel := by
  obtain ⟨-, hout, hdef⟩ := hv
  obtain ⟨d, hd⟩ := Option.isSome_iff_exists.1 hdef
  obtain ⟨hin, htensor⟩ := LoopPlan.mem_tensorInputs.1 hread
  obtain ⟨pre, post, hlist⟩ := List.append_of_mem he
  have hlive : d ∈ p.fusion.tensorExprs := by
    rw [hlist]
    exact List.mem_append_left _ (hf.tensorExprs_inOrder hlist hin htensor hd)
  obtain ⟨x, hx, hresult⟩ := hf.defined v d hd
  have hcomputed : v ∈ p.fusion.tensorOutputs d := by
    rw [tensorOutputs, expr, hx]
    exact List.mem_filter.2 ⟨hresult, htensor⟩
  refine List.mem_filter.2 ⟨List.mem_flatMap.2 ⟨d, hlive, List.mem_filter.2 ⟨hcomputed, ?_⟩⟩, ?_⟩
  · simp [hout, hmem]
  · simp [allocationGroup?, hmem]

/-- Between a write and a read of a tensor in shared memory there is a barrier. -/
theorem separated_of_shared (h : applyAll Schedule.replay calls {} = some f) (hl : make f = .ok l)
    (hv : l.plan.fusion.Intermediate v) (he : e ∈ l.plan.fusion.tensorExprs)
    (hread : v ∈ l.plan.fusion.tensorInputs e) (hmem : l.plan.fusion.memoryOf v = .shared)
    {t : ParallelType} (ht : t.isThread = true) : l.Separated v c t := by
  obtain ⟨hsound, hwired⟩ := plan_sound h hl
  obtain ⟨trees, body, -, hbody, hkernel⟩ := make_layout hl
  have htop := mem_topLevel_of_shared (hwired.founded hsound) hv he hread hmem
  obtain ⟨stmts, -, hbody⟩ := Results.bind_eq_ok.1 hbody
  cases hbody
  have halloc : ⟨v, .shared, l.plan.fusion.dtype v, l.plan.allocationSize v, none⟩ ∈
      sharedAllocations ((ofPlan l.plan).topLevel.map (ofPlan l.plan).allocation ++ stmts) := by
    unfold sharedAllocations
    rw [List.filterMap_append, List.filter_append]
    refine List.mem_append_left _ (List.mem_filter.2 ⟨List.mem_filterMap.2 ?_, rfl⟩)
    refine ⟨_, List.mem_map_of_mem htop, ?_⟩
    rw [← hmem]
    rfl
  obtain ⟨w, hw⟩ := exists_storage l.plan.fusion.dtype halloc
  intro before between after o o' hrun hwrite hreads _
  rw [hkernel] at hrun
  exact ⟨.barrier, barrier_between_conflicts hrun (conflict_of_writes_reads hw hwrite hreads), ht⟩

/-- A leaf inside the compute-at position is matched in every consumer. -/
theorem matched_of_inlined (hl : make f = .ok l) (he : e ∈ l.plan.fusion.tensorExprs)
    (hread : v ∈ l.plan.fusion.tensorInputs e) (hc : c ∈ l.plan.fusion.tensorOutputs e)
    (ha : a ∈ (l.plan.fusion.leaf v).take (l.plan.fusion.view v).computeAt) :
    l.plan.Matched v c a := by
  obtain ⟨groups, hgroups, hplan, -⟩ := make_cases hl
  have hrel := plan_relocated hl
  have hsame : l.plan.groups = groups := by
    rw [hplan]
    rfl
  rw [hrel.leaf, hrel.computeAt] at ha
  rw [hrel.tensorExprs] at he
  rw [hrel.tensorInputs] at hread
  rw [hrel.tensorOutputs] at hc
  have hedge : (v, c) ∈ LoopGroups.inlinedEdges f := by
    refine List.mem_flatMap.2 ⟨e, he, List.mem_flatMap.2 ⟨v, List.mem_filter.2 ⟨hread, ?_⟩, ?_⟩⟩
    · have hne : (f.view v).computeAt ≠ 0 := by
        intro hzero
        rw [hzero] at ha
        cases ha
      simpa using hne
    · exact List.mem_map_of_mem hc
  obtain ⟨b, hb, hloop, hbound⟩ := LoopGroups.exists_sharing_of_inlined hgroups hedge ha
  unfold LoopPlan.Matched
  rw [hsame, hrel.leaf]
  exact ⟨b, hb, hbound, .inl hloop⟩

/-- Intermediates outside of global memory are free of races. -/
theorem raceFree_of_ne_global (h : applyAll Schedule.replay calls {} = some f)
    (hl : make f = .ok l) (hv : l.plan.fusion.Intermediate v) (he : e ∈ l.plan.fusion.tensorExprs)
    (hread : v ∈ l.plan.fusion.tensorInputs e) (hmem : l.plan.fusion.memoryOf v ≠ .global) :
    l.RaceFree v e := by
  intro c hc a ha hdiv
  obtain ⟨-, -, -, -, hchecked⟩ := planOf_cases (make_planned hl).1
  have hedge := LoopPlan.checkEdge_of_checkParallelization hchecked he hread hmem hc
  cases hreaches : LoopPlan.reaches (l.plan.fusion.memoryOf v)
      (LoopPlan.requiredMemory (l.plan.groups.parallel a)) with
  | false => exact .inl (LoopPlan.matched_of_checkEdge hedge ha hdiv hreaches)
  | true =>
      obtain ⟨hshared, hthread⟩ := LoopPlan.shared_of_reaches hreaches hmem
      exact .inr (separated_of_shared h hl hv he hread hshared hthread)

/-- Intermediates are free of races, except for those in global memory, which have to be guarded
along their leaves outside of the compute-at position. -/
theorem raceFree_iff (h : applyAll Schedule.replay calls {} = some f) (hl : make f = .ok l)
    (hv : l.plan.fusion.Intermediate v) (he : e ∈ l.plan.fusion.tensorExprs)
    (hread : v ∈ l.plan.fusion.tensorInputs e) :
    l.RaceFree v e ↔ (l.plan.fusion.memoryOf v = .global → ∀ c ∈ l.plan.fusion.tensorOutputs e,
      ∀ a ∈ (l.plan.fusion.leaf v).drop (l.plan.fusion.view v).computeAt, l.plan.Divides a →
        l.Guarded v c a) := by
  constructor
  · exact fun hfree _ c hc a ha hdiv => hfree c hc a (List.mem_of_mem_drop ha) hdiv
  · intro hguarded
    by_cases hmem : l.plan.fusion.memoryOf v = .global
    · intro c hc a ha hdiv
      rw [← List.take_append_drop (l.plan.fusion.view v).computeAt (l.plan.fusion.leaf v)] at ha
      rcases List.mem_append.1 ha with ha | ha
      · exact .inl (matched_of_inlined hl he hread hc ha)
      · exact hguarded hmem c hc a ha hdiv
    · exact raceFree_of_ne_global h hl hv he hread hmem

/-- Rows of unknown number and length, negated twice.  The first result is computed with a thread
for each row, at the head of the loop over the rows of the second one. -/
def negatedInline : List Call :=
  [.tensor [-1, -1] [true, true] .float, .input ⟨0⟩, .unary .neg (.value ⟨0⟩),
    .unary .neg (.value ⟨7⟩), .output ⟨10⟩, .computeAt ⟨7⟩ ⟨10⟩ 1, .parallelize ⟨10⟩ 0 .threadX]

theorem negatedInline_raceFree : ∃ f l, applyAll Schedule.replay negatedInline {} = some f ∧
    make f = .ok l ∧ l.plan.fusion.memoryOf ⟨7⟩ = .global ∧
    (∃ a ∈ l.plan.fusion.leaf ⟨7⟩, l.plan.Divides a) ∧ l.RaceFree ⟨7⟩ ⟨1⟩ := by
  have hrun : (applyAll Schedule.replay negatedInline {}).any (fun f =>
      (make f).toOption.any fun l => decide (
        (l.plan.fusion.Intermediate ⟨7⟩ ∧ ⟨1⟩ ∈ l.plan.fusion.tensorExprs ∧
          ⟨7⟩ ∈ l.plan.fusion.tensorInputs ⟨1⟩) ∧
        l.plan.fusion.memoryOf ⟨7⟩ = .global ∧ (∃ a ∈ l.plan.fusion.leaf ⟨7⟩, l.plan.Divides a) ∧
        ∀ a ∈ (l.plan.fusion.leaf ⟨7⟩).drop (l.plan.fusion.view ⟨7⟩).computeAt,
          ¬ l.plan.Divides a)) = true := by
    cbv
  obtain ⟨f, hf, hrest⟩ := (Option.any_eq_true _ _).1 hrun
  obtain ⟨l, hl, hfacts⟩ := (Option.any_eq_true _ _).1 hrest
  obtain ⟨⟨hv, he, hread⟩, hmem, hdivides, hserial⟩ := of_decide_eq_true hfacts
  have hl := Results.ok_of_toOption hl
  exact ⟨f, l, hf, hl, hmem, hdivides,
    (raceFree_iff hf hl hv he hread).2 fun _ c _ a ha hdiv => absurd hdiv (hserial a ha)⟩

/-- Rows of unknown number and length, negated twice.  The first result is computed with a thread
for each row, and the second one by a single thread. -/
def negatedApart : List Call :=
  [.tensor [-1, -1] [true, true] .float, .input ⟨0⟩, .unary .neg (.value ⟨0⟩),
    .unary .neg (.value ⟨7⟩), .output ⟨10⟩, .parallelize ⟨7⟩ 0 .threadX]

/-- The first result moves to global memory, and the single thread reads what other threads write
without a barrier in between. -/
theorem negatedApart_races : ∃ f l, applyAll Schedule.replay negatedApart {} = some f ∧
    make f = .ok l ∧ (f.view ⟨7⟩).memory = .local ∧ l.plan.fusion.memoryOf ⟨7⟩ = .global ∧
    l.plan.fusion.Intermediate ⟨7⟩ ∧
    ∃ e ∈ l.plan.fusion.tensorExprs, ⟨7⟩ ∈ l.plan.fusion.tensorInputs e ∧
      ¬ l.RaceFree ⟨7⟩ e := by
  have hrun : (applyAll Schedule.replay negatedApart {}).any (fun f =>
      (make f).toOption.any fun l => decide (
        ((f.view ⟨7⟩).memory = .local ∧ l.plan.fusion.memoryOf ⟨7⟩ = .global ∧
          l.plan.fusion.Intermediate ⟨7⟩ ∧ ⟨1⟩ ∈ l.plan.fusion.tensorExprs ∧
          ⟨7⟩ ∈ l.plan.fusion.tensorInputs ⟨1⟩) ∧
        (⟨10⟩ ∈ l.plan.fusion.tensorOutputs ⟨1⟩ ∧ ⟨2⟩ ∈ l.plan.fusion.leaf ⟨7⟩ ∧
          l.plan.Divides ⟨2⟩ ∧ ¬ l.plan.Matched ⟨7⟩ ⟨10⟩ ⟨2⟩) ∧
        (Stmt.onceAll l.kernel.body).map Event.touched =
          [some ([⟨0⟩], [⟨7⟩]), some ([⟨7⟩], [⟨10⟩])])) = true := by
    decide +kernel
  obtain ⟨f, hf, hrest⟩ := (Option.any_eq_true _ _).1 hrun
  obtain ⟨l, hl, hfacts⟩ := (Option.any_eq_true _ _).1 hrest
  obtain ⟨⟨hlocal, hglobal, hv, he, hread⟩, ⟨hc, ha, hdiv, hunmatched⟩, htouched⟩ :=
    of_decide_eq_true hfacts
  refine ⟨f, l, hf, Results.ok_of_toOption hl, hlocal, hglobal, hv, ⟨1⟩, he, hread, fun hfree => ?_⟩
  rcases hfree _ hc _ ha hdiv with hmatched | hseparated
  · exact hunmatched hmatched
  · have hall := Stmt.runsAll_onceAll l.kernel.body
    obtain ⟨first, rest, honce, hfirst, hrest⟩ := List.map_eq_cons_iff.1 htouched
    obtain ⟨second, rest, rfl, hsecond, hrest⟩ := List.map_eq_cons_iff.1 hrest
    obtain rfl := List.map_eq_nil_iff.1 hrest
    obtain ⟨o, rfl, -, hwrites⟩ := Event.exists_op_of_touched hfirst
    obtain ⟨o', rfl, hreads, hwrites'⟩ := Event.exists_op_of_touched hsecond
    rw [honce] at hall
    obtain ⟨x, hx, -⟩ := hseparated [] [] [] o o' hall ((hwrites _).2 (by simp))
      ((hreads _).2 (by simp)) ((hwrites' _).2 (by simp))
    cases hx

end Lowered
end FusionCompiler
