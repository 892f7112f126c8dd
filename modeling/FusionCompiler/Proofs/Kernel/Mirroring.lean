import FusionCompiler.Proofs.Kernel.Confinement

/-!
# One thread in lockstep and alone

What a thread sees in lockstep is compared with what it sees when it runs alone.
Both agree on the cells that no other thread writes.  The steps of the thread keep
it so, and those of other threads do as well if they write none of these cells.

A thread alone may find more than there is in lockstep: loops that ended elsewhere,
and shared storage that another thread of its block has made longer.  Neither
changes the value of anything that has a value in lockstep.

Main results:

- Theorem `Kernel.View.others`: steps of other threads change nothing that a thread
  sees.
- Theorem `Kernel.Run.execOp_mirrored`: a serial operation for one of its threads.
- Theorem `Kernel.Run.execAll_mirrored`: a thread that runs statements alone does
  what it does in lockstep.
-/

namespace FusionCompiler
namespace Kernel

variable {α β : Type} {A : Arithmetic α} {l : Launch} {m m' m₁ m₂ n n' : Machine α}
  {active : List Nat} {t : Nat} {u : Unit} {o : Op} {P : Cell → Prop}

/-! ## What one thread sees -/

/-- A thread sees on `n` what it sees on `m`, as far as cells of `P` go: more loops may have an
index, and shared storage may be longer by zeros. -/
structure View (A : Arithmetic α) (l : Launch) (t : Nat) (P : Cell → Prop) (m n : Machine α) :
    Prop where
  loops : ∀ i k, m.loops.lookup i = some k → n.loops.lookup i = some k
  registers : n.registers.size = m.registers.size
  shared : n.shared.size = m.shared.size
  cells : ∀ c, l.Reaches t c.1 → P c → n.get? c = m.get? c ∨
    ((∃ b v, c.1 = .shared b v) ∧ m.get? c = none ∧ n.get? c = some A.zero)

/-- The loops are at the same indices, and there is storage for as many threads and blocks. -/
structure Machine.SameShape (m m' : Machine α) : Prop where
  loops : m'.loops = m.loops
  registers : m'.registers.size = m.registers.size
  shared : m'.shared.size = m.shared.size

/-- Steps that keep the shape keep it one after the other. -/
theorem Machine.sameShape_foldl {g : Machine α → β → Machine α} (hg : ∀ m b, SameShape m (g m b))
    (bs : List β) (m : Machine α) : m.SameShape (bs.foldl g m) := by
  induction bs generalizing m with
  | nil => exact ⟨rfl, rfl, rfl⟩
  | cons b bs ih =>
      have hone := hg m b
      have hrest := ih (g m b)
      exact ⟨hrest.loops.trans hone.loops, hrest.registers.trans hone.registers,
        hrest.shared.trans hone.shared⟩

/-- A thread accesses cells of `P` only, and other threads write none of them. -/
def Access.Allowed (t : Nat) (P : Cell → Prop) (a : Access) : Prop :=
  (a.thread = t → P a.cell) ∧ (a.thread ≠ t → a.write = true → ¬ P a.cell)

/-- Scalars that have a value keep it where more loops have an index. -/
theorem evaluate_mono {loops loops' : List (LoopId × Int)}
    (h : ∀ i k, loops.lookup i = some k → loops'.lookup i = some k) :
    ∀ (s : Scalar) {c : Constant}, s.evaluate (l.env loops t) = some c →
      s.evaluate (l.env loops' t) = some c
  | .int _, _, hs | .float _, _, hs | .bool _, _, hs | .input _ _, _, hs | .size _ _, _, hs
  | .stride _ _, _, hs | .launchIndex _, _, hs | .launchExtent _, _, hs => hs
  | .loop i, c, hs => by
      obtain ⟨k, hk, rfl⟩ := Option.map_eq_some_iff.1 hs
      exact Option.map_eq_some_iff.2 ⟨k, h i k hk, rfl⟩
  | .unary op x, c, hs => by
      obtain ⟨d, hd, rfl⟩ := Option.map_eq_some_iff.1 hs
      exact Option.map_eq_some_iff.2 ⟨d, evaluate_mono h x hd, rfl⟩
  | .binary op a b, c, hs => by
      rw [Scalar.evaluate] at hs ⊢
      cases ha : a.evaluate (l.env loops t) with
      | none => simp [ha] at hs
      | some x =>
          cases hb : b.evaluate (l.env loops t) with
          | none => simp [ha, hb] at hs
          | some y =>
              rw [ha, hb] at hs
              rw [evaluate_mono h a ha, evaluate_mono h b hb]
              exact hs
  | .select cond a b, c, hs => by
      rw [Scalar.evaluate] at hs ⊢
      cases hcond : cond.evaluate (l.env loops t) with
      | none => simp [hcond] at hs
      | some x =>
          rw [hcond] at hs
          rw [evaluate_mono h cond hcond]
          dsimp only at hs ⊢
          split
          case isTrue hx => exact evaluate_mono h a (by rwa [if_pos hx] at hs)
          case isFalse hx => exact evaluate_mono h b (by rwa [if_neg hx] at hs)

namespace View

variable (h : View A l t P m n)

include h

theorem cell? {e : Element} {c : Cell} (hc : l.cell? m.loops e t = some c) :
    l.cell? n.loops e t = some c := by
  obtain ⟨i, hi, hrest⟩ := Run.cell?_eq_some.1 hc
  exact Run.cell?_eq_some.2 ⟨i, evaluate_mono h.loops _ hi, hrest⟩

theorem truth? {cond : Scalar} {b : Bool} (hb : l.truth? m.loops cond t = some b) :
    l.truth? n.loops cond t = some b := by
  obtain ⟨c, hc, rfl⟩ := Option.map_eq_some_iff.1 hb
  exact Option.map_eq_some_iff.2 ⟨c, evaluate_mono h.loops _ hc, rfl⟩

/-- A cell that has a value in lockstep has it for the thread. -/
theorem get? {c : Cell} {y : α} (hreach : l.Reaches t c.1) (hP : P c) (hy : m.get? c = some y) :
    n.get? c = some y := by
  obtain hsame | ⟨-, hnone, -⟩ := h.cells c hreach hP
  · rw [hsame, hy]
  · rw [hy] at hnone
    cases hnone

theorem value? {x : Kernel.Operand} {y : α} (hP : ∀ c, l.operandCell? m.loops x t = some c → P c)
    (hy : l.value? A m x t = some y) : l.value? A n x t = some y := by
  cases x with
  | element e =>
      obtain ⟨c, hc, hget⟩ := Option.bind_eq_some_iff.1 hy
      exact Option.bind_eq_some_iff.2
        ⟨c, h.cell? hc, h.get? (Launch.reaches_of_cell? hc) (hP c hc) hget⟩
  | scalar s ty =>
      obtain ⟨c, hc, rfl⟩ := Option.map_eq_some_iff.1 hy
      exact Option.map_eq_some_iff.2 ⟨c, evaluate_mono h.loops s hc, rfl⟩

/-- Both change cells. -/
theorem reshape (hm : m.SameShape m') (hn : n.SameShape n')
    (hcells : ∀ c, l.Reaches t c.1 → P c → n'.get? c = m'.get? c ∨
      ((∃ b v, c.1 = .shared b v) ∧ m'.get? c = none ∧ n'.get? c = some A.zero)) :
    View A l t P m' n' := by
  refine ⟨?_, ?_, ?_, hcells⟩
  · rw [hm.loops, hn.loops]
    exact h.loops
  · rw [hm.registers, hn.registers, h.registers]
  · rw [hm.shared, hn.shared, h.shared]

/-- Both write a cell of the thread. -/
theorem set {c : Cell} (hreach : l.Reaches t c.1) (hP : P c) (hsome : (m.get? c).isSome) (y : α) :
    View A l t P (m.set c y) (n.set c y) := by
  have hshape : ∀ k : Machine α, k.SameShape (k.set c y) := fun k => by
    obtain ⟨-, hregisters, hshared⟩ := k.sizes_modifyStorage (·.setIfInBounds c.2 y) c.1
    exact ⟨Machine.loops_set k c y, hregisters, hshared⟩
  refine h.reshape (hshape m) (hshape n) fun d hd hPd => ?_
  rw [Machine.get?_set, Machine.get?_set]
  by_cases hdc : d = c
  · obtain ⟨x, hx⟩ := Option.isSome_iff_exists.1 hsome
    rw [if_pos hdc, if_pos hdc, hx, h.get? hreach hP hx]
    exact .inl rfl
  · rw [if_neg hdc, if_neg hdc]
    exact h.cells d hd hPd

/-- Other threads change nothing that the thread sees. -/
theorem others {accesses : List Access}
    (hconfined : Confined A l False (fun _ => False) accesses active m m') (ht : t ∉ active)
    (hallowed : ∀ a ∈ accesses, a.Allowed t P) : View A l t P m' n := by
  refine ⟨fun i k hk => h.loops i k (hconfined.loops i id k hk),
    h.registers.trans hconfined.registers.symm, h.shared.trans hconfined.shared.symm,
    fun c hreach hP => ?_⟩
  obtain ⟨a, ha, hw, rfl⟩ | ⟨s, hs, v, hv⟩ | hsame | ⟨hgrows, -⟩ := hconfined.cells c
  · have hne : a.thread ≠ t := fun heq => ht (heq ▸ (hconfined.threads a ha).1)
    exact absurd hP ((hallowed a ha).2 hne hw)
  · rw [hv] at hreach
    exact absurd (hreach ▸ hs) ht
  · rw [hsame]
    exact h.cells c hreach hP
  · exact hgrows.elim

end View

/-! ## Serial operations -/

namespace Launch

variable {x : WelfordInput} {y : Moments α}

/-- Statistics are taken in from operands that have values. -/
theorem isSome_value?_of_moments? (h : l.moments? A m x t = some y) :
    ∀ z ∈ x.operands, (l.value? A m z t).isSome := by
  cases x with
  | sample x =>
      obtain ⟨z, hz, -⟩ := Option.map_eq_some_iff.1 h
      simp [WelfordInput.operands, hz]
  | moments x => exact isSome_mapM.1 (Option.isSome_of_eq_some h)

theorem moments?_mono (h : l.moments? A m x t = some y)
    (hvalue : ∀ z ∈ x.operands, ∀ w, l.value? A m z t = some w → l.value? A n z t = some w) :
    l.moments? A n x t = some y := by
  cases x with
  | sample x =>
      obtain ⟨z, hz, rfl⟩ := Option.map_eq_some_iff.1 h
      exact Option.map_eq_some_iff.2 ⟨z, hvalue x (List.mem_singleton_self x) z hz, rfl⟩
  | moments x =>
      obtain ⟨havg, hvar, hcount⟩ := mapM_eq_some (g := fun z => l.value? A m z t).1 h
      exact mapM_eq_some (g := fun z => l.value? A n z t).2
        ⟨hvalue x.avg (by simp [WelfordInput.operands, Moments.toList]) _ havg,
          hvalue x.varSum (by simp [WelfordInput.operands, Moments.toList]) _ hvar,
          hvalue x.count (by simp [WelfordInput.operands, Moments.toList]) _ hcount⟩

end Launch

namespace Op

/-- An operation that computes results has values for what it reads. -/
theorem isSome_read {results : List (Element × α)} (h : o.results? A l m t = some results) :
    ∀ x ∈ o.read A l m t, (l.value? A m x t).isSome := by
  cases o with
  | unary op out x =>
      obtain ⟨y, hy, -⟩ := Option.map_eq_some_iff.1 h
      simp [read, hy]
  | binary op out a b =>
      obtain ⟨y, hy, h⟩ := Option.bind_eq_some_iff.1 h
      obtain ⟨z, hz, -⟩ := Option.map_eq_some_iff.1 h
      simp [read, hy, hz]
  | select out cond a b =>
      obtain ⟨c, hc, h⟩ := Option.bind_eq_some_iff.1 h
      obtain ⟨y, hy, -⟩ := Option.map_eq_some_iff.1 h
      simp [read, hc, hy]
  | init out value => simp [read]
  | reduce op out x init how =>
      cases how with
      | serial =>
          obtain ⟨y, hy, h⟩ := Option.bind_eq_some_iff.1 h
          obtain ⟨z, hz, -⟩ := Option.map_eq_some_iff.1 h
          simp [read, hy, hz]
      | across => cases h
  | welford out x how =>
      cases how with
      | serial =>
          obtain ⟨y, hy, h⟩ := Option.bind_eq_some_iff.1 h
          obtain ⟨z, hz, -⟩ := Option.map_eq_some_iff.1 h
          intro y hy
          obtain hy | hy := List.mem_append.1 hy
          · exact Launch.isSome_value?_of_moments? ‹_› y hy
          · exact Launch.isSome_value?_of_moments? hz y hy
      | across => cases h
  | broadcast out x how =>
      cases how with
      | serial =>
          obtain ⟨y, hy, -⟩ := Option.map_eq_some_iff.1 h
          simp [read, hy]
      | across => cases h

/-- The results depend on the values that are read only, and so does what is read. -/
theorem results?_mono {results : List (Element × α)} (h : o.results? A l m t = some results)
    (hread : ∀ x ∈ o.read A l m t, ∀ y, l.value? A m x t = some y → l.value? A n x t = some y) :
    o.results? A l n t = some results ∧ o.read A l n t = o.read A l m t := by
  cases o with
  | unary op out x =>
      obtain ⟨y, hy, rfl⟩ := Option.map_eq_some_iff.1 h
      have hy := hread x (by simp [read]) y hy
      simp [results?, read, hy]
  | binary op out a b =>
      obtain ⟨y, hy, h⟩ := Option.bind_eq_some_iff.1 h
      obtain ⟨z, hz, rfl⟩ := Option.map_eq_some_iff.1 h
      have hy := hread a (by simp [read]) y hy
      have hz := hread b (by simp [read]) z hz
      simp [results?, read, hy, hz]
  | select out cond a b =>
      obtain ⟨c, hc, h⟩ := Option.bind_eq_some_iff.1 h
      obtain ⟨y, hy, rfl⟩ := Option.map_eq_some_iff.1 h
      have hc' := hread cond (by simp [read]) c hc
      have hy' := hread (if A.isTrue c then a else b) (by simp [read, hc]) y hy
      simp [results?, read, hc, hc', hy']
  | init out value => exact ⟨h, rfl⟩
  | reduce op out x init how =>
      cases how with
      | serial =>
          obtain ⟨y, hy, h⟩ := Option.bind_eq_some_iff.1 h
          obtain ⟨z, hz, rfl⟩ := Option.map_eq_some_iff.1 h
          have hy := hread (.element out) (by simp [read]) y hy
          have hz := hread x (by simp [read]) z hz
          simp [results?, read, hy, hz]
      | across => cases h
  | welford out x how =>
      cases how with
      | serial =>
          obtain ⟨y, hy, h⟩ := Option.bind_eq_some_iff.1 h
          obtain ⟨z, hz, rfl⟩ := Option.map_eq_some_iff.1 h
          have hy := Launch.moments?_mono hy fun x hx => hread x (List.mem_append_left _ hx)
          have hz := Launch.moments?_mono hz fun x hx => hread x (List.mem_append_right _ hx)
          simp [results?, read, hy, hz]
      | across => cases h
  | broadcast out x how =>
      cases how with
      | serial =>
          obtain ⟨y, hy, rfl⟩ := Option.map_eq_some_iff.1 h
          have hy := hread x (by simp [read]) y hy
          simp [results?, read, hy]
      | across => cases h

end Op

namespace Run

/-- Where a thread sees the same, the second step succeeds for it if the first one does, and it sees
the same afterwards, provided that the accesses of the first step are allowed.  The second step
accesses nothing else. -/
def Mirrors (A : Arithmetic α) (l : Launch) (t : Nat) (P : Cell → Prop) (x : Run α Unit)
    (xs : Machine α → List Access) (y : Run α Unit) (ys : Machine α → List Access) : Prop :=
  ∀ m m' n, View A l t P m n → Returns x m () m' → (∀ a ∈ xs m, a.Allowed t P) →
    ∃ n', Returns y n () n' ∧ View A l t P m' n' ∧ ∀ a ∈ ys n, a ∈ xs m

/-- Writing results where a thread sees the same. -/
theorem storeAll_mirrored {results : List (Element × α)} (hview : View A l t P m n)
    (h : Returns (storeAll A l t results) m u m')
    (hP : ∀ r ∈ results, ∀ c, l.cell? m.loops r.1 t = some c → P c) :
    ∃ n', Returns (storeAll A l t results) n () n' ∧ View A l t P m' n' ∧
      ∀ r ∈ results, l.cell? n.loops r.1 t = l.cell? m.loops r.1 t := by
  induction results generalizing m n with
  | nil =>
      obtain rfl := returns_forM_nil.1 h
      exact ⟨n, returns_forM_nil.2 rfl, hview, by simp⟩
  | cons r results ih =>
      obtain ⟨m₁, hone, h⟩ := returns_forM_cons.1 h
      obtain ⟨c, hc, hsome, rfl⟩ := returns_store.1 hone
      have hreach := Launch.reaches_of_cell? hc
      have hPc := hP r List.mem_cons_self c hc
      obtain ⟨y, hy⟩ := Option.isSome_iff_exists.1 hsome
      have hstore := (returns_store (A := A) (x := r.2) (u := ())).2
        ⟨c, hview.cell? hc, Option.isSome_of_eq_some (hview.get? hreach hPc hy), rfl⟩
      obtain ⟨n', hrest, hview', hcells⟩ := ih (hview.set hreach hPc hsome _) h fun s hs d hd =>
        hP s (List.mem_cons_of_mem r hs) d (by rwa [Machine.loops_set] at hd)
      simp only [Machine.loops_set] at hcells
      refine ⟨n', returns_forM_cons.2 ⟨_, hstore, hrest⟩, hview', fun s hs => ?_⟩
      obtain rfl | hs := List.mem_cons.1 hs
      · rw [hc, hview.cell? hc]
      · exact hcells s hs

/-- A serial operation of a thread where it sees the same. -/
theorem execOp_singleton_mirrored (ho : o.synchronizes = false) :
    Mirrors A l t P (execOp A l o [t]) (o.accesses A l t) (execOp A l o [t])
      (o.accesses A l t) := by
  intro m m' n hview h hallowed
  obtain ⟨results, hresults, hstore⟩ := (returns_execOp_singleton ho).1 h
  have houtputs := results?_outputs hresults
  have hreads : ∀ x ∈ o.read A l m t, ∀ c, l.operandCell? m.loops x t = some c → P c := by
    intro x hx c hc
    refine (hallowed ⟨t, c, false⟩ (List.mem_append_left _ ?_)).1 rfl
    exact List.mem_filterMap.2 ⟨x, hx, by rw [hc]; rfl⟩
  have hwrites : ∀ r ∈ results, ∀ c, l.cell? m.loops r.1 t = some c → P c := by
    intro r hr c hc
    refine (hallowed ⟨t, c, true⟩ (List.mem_append_right _ ?_)).1 rfl
    exact List.mem_filterMap.2 ⟨r.1, houtputs ▸ List.mem_map_of_mem hr, by rw [hc]; rfl⟩
  obtain ⟨hresults', hread'⟩ := Op.results?_mono hresults fun x hx y hy =>
    hview.value? (hreads x hx) hy
  obtain ⟨n', hstore', hview', hcells⟩ := storeAll_mirrored hview hstore hwrites
  refine ⟨n', (returns_execOp_singleton ho).2 ⟨results, hresults', hstore'⟩, hview', ?_⟩
  have hsame : o.accesses A l t n = o.accesses A l t m := by
    unfold Op.accesses
    rw [hread', ← houtputs, List.filterMap_map, List.filterMap_map]
    congr 1
    · refine List.filterMap_congr fun x hx => ?_
      cases x with
      | scalar => rfl
      | element e =>
          obtain ⟨y, hy⟩ := Option.isSome_iff_exists.1 (Op.isSome_read hresults _ hx)
          obtain ⟨c, hc, -⟩ := Option.bind_eq_some_iff.1 hy
          simp only [Launch.operandCell?, hc, hview.cell? hc]
    · exact List.filterMap_congr fun r hr => congrArg _ (hcells r hr)
  rw [hsame]
  exact fun a ha => ha

/-- A serial operation of several threads, as one of them sees it. -/
theorem execOp_mirrored (ho : o.synchronizes = false) (hnodup : active.Nodup) (ht : t ∈ active) :
    Mirrors A l t P (execOp A l o active)
      (along (fun t => execOp A l o [t]) (o.accesses A l) active) (execOp A l o [t])
      (along (fun t => execOp A l o [t]) (o.accesses A l) [t]) := by
  intro m m' n hview h hallowed
  replace h := (returns_execOp ho).1 h
  induction active generalizing m n with
  | nil => cases ht
  | cons s rest ih =>
      obtain ⟨hnot, hnodup⟩ := List.nodup_cons.1 hnodup
      obtain ⟨m₁, hone, hrest⟩ := returns_forM_cons.1 h
      rw [along, hone.after_eq] at hallowed
      have hallowed₁ := fun a ha => hallowed a (List.mem_append_left _ ha)
      have hallowed₂ := fun a ha => hallowed a (List.mem_append_right _ ha)
      by_cases hst : s = t
      · subst hst
        obtain ⟨n', hstep, hview', hsub⟩ :=
          execOp_singleton_mirrored ho m m₁ n hview hone hallowed₁
        refine ⟨n', hstep, hview'.others (forM_confined (fun u hu k k' huk => ?_) hrest) hnot
          hallowed₂, fun a ha => ?_⟩
        · exact (execOp_singleton_confined ho huk).mono fun v hv => List.mem_singleton.1 hv ▸ hu
        · rw [along, along, List.append_nil] at ha
          exact List.mem_append_left _ (hsub a ha)
      · have hview₁ := hview.others (execOp_singleton_confined ho hone)
          (fun hmem => hst (List.mem_singleton.1 hmem).symm) hallowed₁
        obtain ⟨n', hstep, hview', hsub⟩ := ih hnodup
          ((List.mem_cons.1 ht).resolve_left (Ne.symm hst)) m₁ n hview₁ hallowed₂ hrest
        refine ⟨n', hstep, hview', fun a ha => ?_⟩
        rw [along, hone.after_eq]
        exact List.mem_append_right _ (hsub a ha)

end Run

/-! ## Allocations -/

/-- The value of a scalar does not depend on the thread. -/
def Launch.Uniform (l : Launch) (threads : List Nat) (s : Scalar) : Prop :=
  ∀ loops, ∀ t ∈ threads, ∀ u ∈ threads, s.evaluate (l.env loops t) = s.evaluate (l.env loops u)

/-- Runs of equal elements have the elements of the list. -/
theorem mem_eraseReps {bs : List Nat} {b : Nat} : b ∈ bs.eraseReps ↔ b ∈ bs := by
  have hloop : ∀ (bs : List Nat) (a : Nat) (acc : List Nat),
      b ∈ List.eraseRepsBy.loop (· == ·) a bs acc ↔ b ∈ acc ∨ b = a ∨ b ∈ bs := by
    intro bs
    induction bs with
    | nil =>
        intro a acc
        simp [List.eraseRepsBy.loop, or_comm]
    | cons c bs ih =>
        intro a acc
        unfold List.eraseRepsBy.loop
        split
        next heq =>
            rw [ih, List.mem_cons, beq_iff_eq.1 heq]
            tauto
        next =>
            rw [ih, List.mem_cons, List.mem_cons]
            tauto
  cases bs with
  | nil => rfl
  | cons a bs =>
      unfold List.eraseReps List.eraseRepsBy
      rw [hloop]
      simp

namespace View

variable {threads : List Nat}

/-- A count that does not depend on the thread is the same for the thread alone. -/
theorem count? (h : View A l t P m n) {s : Scalar} {k : Nat} (hs : l.Uniform threads s)
    (hactive : ∀ s ∈ active, s ∈ threads) (ht : t ∈ active)
    (hk : l.count? m.loops s active = some k) : l.count? n.loops s [t] = some k := by
  cases active with
  | nil => cases ht
  | cons first rest =>
      obtain ⟨c, hc, rfl⟩ := Option.map_eq_some_iff.1 hk
      rw [hs m.loops first (hactive first List.mem_cons_self) t (hactive t ht)] at hc
      exact Option.map_eq_some_iff.2 ⟨c, evaluate_mono h.loops s hc, rfl⟩

/-- Several threads get fresh storage, and the thread alone does. -/
theorem allocateRegisters (h : View A l t P m n) (ht : t ∈ active) (v : ValueId)
    (storage : Array α) : View A l t P (active.foldl (·.allocateRegister v storage ·) m)
      ([t].foldl (·.allocateRegister v storage ·) n) := by
  have hshape : ∀ (k : Machine α) (s : Nat), k.SameShape (k.allocateRegister v storage s) :=
    fun k s => ⟨rfl, by simp [Machine.allocateRegister], rfl⟩
  refine h.reshape (Machine.sameShape_foldl hshape _ m) (Machine.sameShape_foldl hshape _ n)
    fun c hreach hP => ?_
  rw [Machine.get?_allocateRegisters, Machine.get?_allocateRegisters]
  by_cases hc : c.1 = .register t v ∧ t < m.registers.size
  · rw [if_pos ⟨t, List.mem_singleton_self t, hc.1, h.registers ▸ hc.2⟩, if_pos ⟨t, ht, hc⟩]
    exact .inl rfl
  · rw [if_neg, if_neg]
    · exact h.cells c hreach hP
    · rintro ⟨s, hs, hcs, hlt⟩
      rw [hcs] at hreach
      subst hreach
      exact hc ⟨hcs, hlt⟩
    · rintro ⟨s, hs, hcs, hlt⟩
      rw [List.mem_singleton.1 hs] at hcs hlt
      exact hc ⟨hcs, h.registers ▸ hlt⟩

/-- Several blocks get longer storage, and the block of the thread alone does. -/
theorem growShareds (h : View A l t P m n) {bs : List Nat} (ht : l.block t ∈ bs) (v : ValueId)
    (size : Nat) : View A l t P (bs.foldl (fun k b => k.growShared v A.zero size b) m)
      ([l.block t].foldl (fun k b => k.growShared v A.zero size b) n) := by
  have hshape : ∀ (k : Machine α) (b : Nat), k.SameShape (k.growShared v A.zero size b) :=
    fun k b => ⟨rfl, rfl, by simp [Machine.growShared]⟩
  refine h.reshape (Machine.sameShape_foldl hshape _ m) (Machine.sameShape_foldl hshape _ n)
    fun c hreach hP => ?_
  rw [Machine.get?_growShareds, Machine.get?_growShareds]
  have hcell := h.cells c hreach hP
  by_cases hc : (c.1 = .shared (l.block t) v ∧ l.block t < m.shared.size) ∧ c.2 < size
  · have hm : ∃ b ∈ bs, c.1 = .shared b v ∧ b < m.shared.size := ⟨_, ht, hc.1⟩
    have hn : ∃ b ∈ [l.block t], c.1 = .shared b v ∧ b < n.shared.size :=
      ⟨_, List.mem_singleton_self _, hc.1.1, h.shared ▸ hc.1.2⟩
    -- where there was nothing there are zeros now, and where there were zeros there still are
    by_cases hnone : m.get? c = none
    · rw [if_pos (show _ ∧ _ ∧ m.get? c = none from ⟨hm, hc.2, hnone⟩)]
      obtain hsame | ⟨-, -, hzero⟩ := hcell
      · rw [if_pos ⟨hn, hc.2, hsame.trans hnone⟩]
        exact .inl rfl
      · have hsome : n.get? c ≠ none := by simp [hzero]
        rw [if_neg fun h => hsome h.2.2]
        exact .inl hzero
    · have hsame := hcell.resolve_right fun h => hnone h.2.1
      rw [if_neg fun h => hnone (hsame ▸ h.2.2), if_neg fun h => hnone h.2.2]
      exact .inl hsame
  · rw [if_neg, if_neg]
    · exact hcell
    · rintro ⟨⟨b, hb, hcb, hlt⟩, hsize, -⟩
      rw [hcb] at hreach
      subst hreach
      exact hc ⟨⟨hcb, hlt⟩, hsize⟩
    · rintro ⟨⟨b, hb, hcb, hlt⟩, hsize, -⟩
      rw [List.mem_singleton.1 hb] at hcb hlt
      exact hc ⟨⟨hcb, h.shared ▸ hlt⟩, hsize⟩

end View

namespace Run

variable {threads : List Nat}

/-- An allocation, as one of the threads sees it. -/
theorem allocate_mirrored {a : Allocation} (hsize : l.Uniform threads a.size)
    (hactive : ∀ s ∈ active, s ∈ threads) (ht : t ∈ active) :
    Mirrors A l t P (allocate A l a active) (fun _ => []) (allocate A l a [t]) (fun _ => []) := by
  intro m m' n hview h _
  obtain ⟨k, hk, hmemory⟩ := (returns_allocate (List.ne_nil_of_mem ht)).1 h
  have hk' := hview.count? hsize hactive ht hk
  obtain ⟨hlocal, rfl⟩ | ⟨hshared, rfl⟩ := hmemory
  · exact ⟨_, (returns_allocate (List.cons_ne_nil _ _)).2 ⟨k, hk', .inl ⟨hlocal, rfl⟩⟩,
      hview.allocateRegisters ht _ _, by simp⟩
  · exact ⟨_, (returns_allocate (List.cons_ne_nil _ _)).2 ⟨k, hk', .inr ⟨hshared, rfl⟩⟩,
      hview.growShareds (mem_eraseReps.2 (List.mem_map_of_mem ht)) _ _, by simp⟩

/-! ## Statements -/

/-- Steps that follow each other. -/
theorem forM_mirrored {f f' : β → Run α Unit} {xs ys : β → Machine α → List Access}
    (hf : ∀ b, Mirrors A l t P (f b) (xs b) (f' b) (ys b)) (bs : List β) :
    Mirrors A l t P (bs.forM f) (along f xs bs) (bs.forM f') (along f' ys bs) := by
  intro m m' n hview h hallowed
  induction bs generalizing m n with
  | nil =>
      obtain rfl := returns_forM_nil.1 h
      exact ⟨n, returns_forM_nil.2 rfl, hview, by simp [along]⟩
  | cons b bs ih =>
      obtain ⟨m₁, hone, hrest⟩ := returns_forM_cons.1 h
      rw [along, hone.after_eq] at hallowed
      obtain ⟨n₁, hone', hview₁, hsub₁⟩ := hf b m m₁ n hview hone fun a ha =>
        hallowed a (List.mem_append_left _ ha)
      obtain ⟨n', hrest', hview', hsub'⟩ := ih m₁ n₁ hview₁ hrest fun a ha =>
        hallowed a (List.mem_append_right _ ha)
      refine ⟨n', returns_forM_cons.2 ⟨n₁, hone', hrest'⟩, hview', fun a ha => ?_⟩
      rw [along, hone'.after_eq] at ha
      rw [along, hone.after_eq]
      exact (List.mem_append.1 ha).elim (fun ha => List.mem_append_left _ (hsub₁ a ha))
        fun ha => List.mem_append_right _ (hsub' a ha)

/-- An iteration, as one of the threads sees it. -/
theorem iterate_mirrored {h : LoopHeader} {body : List Stmt}
    (hbody : Mirrors A l t P (execAll A l body active) (accessesAll A l body active)
      (execAll A l body [t]) (accessesAll A l body [t])) (i : Nat) :
    Mirrors A l t P (iterate A l h body active i)
      (fun m => accessesAll A l body active (m.setLoop h.index i)) (iterate A l h body [t] i)
      (fun m => accessesAll A l body [t] (m.setLoop h.index i)) := by
  intro m m' n hview hrun hallowed
  have hset : View A l t P (m.setLoop h.index i) (n.setLoop h.index i) := by
    refine ⟨fun j k hk => ?_, hview.registers, hview.shared, hview.cells⟩
    rw [Machine.lookup_setLoop] at hk ⊢
    split
    case isTrue hj => rwa [if_pos hj] at hk
    case isFalse hj => exact hview.loops j k (by rwa [if_neg hj] at hk)
  obtain ⟨n', hrun', hview', hsub⟩ := hbody _ _ _ hset (returns_iterate.1 hrun) hallowed
  exact ⟨n', returns_iterate.2 hrun', hview', hsub⟩

mutual

/-- Without threads nothing happens. -/
theorem exec_nil : ∀ (x : Stmt) (_ : ∀ o, .op o ∈ x.flatten → o.synchronizes = false)
    (m : Machine α), Returns (exec A l x []) m () m ∧ accesses A l x [] m = []
  | .loop header body, _, m => by
      rw [exec, accesses]
      exact ⟨returns_pure.2 ⟨rfl, rfl⟩, rfl⟩
  | .branch cond yes no, hserial, m => by
      obtain ⟨hyes, hyes'⟩ := execAll_nil yes
        (fun o ho => hserial o (List.mem_cons_of_mem _ (List.mem_append_left _ ho))) m
      obtain ⟨hno, hno'⟩ := execAll_nil no
        (fun o ho => hserial o (List.mem_cons_of_mem _ (List.mem_append_right _ ho))) m
      refine ⟨returns_branch.2 ⟨by simp, m, hyes, hno⟩, ?_⟩
      rw [accesses]
      simp only [Launch.taking, List.filter_nil, hyes.after_eq, hyes', hno', List.append_nil]
  | .allocate a, _, m => by
      rw [exec, accesses]
      exact ⟨returns_pure.2 ⟨rfl, rfl⟩, rfl⟩
  | .barrier afterRead, _, m => by
      rw [exec, accesses]
      exact ⟨returns_pure.2 ⟨rfl, rfl⟩, rfl⟩
  | .op o, hserial, m => by
      rw [exec, accesses]
      exact ⟨(returns_execOp (hserial o (List.mem_singleton_self _))).2
        (returns_forM_nil.2 rfl), rfl⟩

theorem execAll_nil : ∀ (xs : List Stmt)
    (_ : ∀ o, .op o ∈ Stmt.flattenAll xs → o.synchronizes = false) (m : Machine α),
    Returns (execAll A l xs []) m () m ∧ accessesAll A l xs [] m = []
  | [], _, m => by
      rw [execAll, accessesAll]
      exact ⟨returns_pure.2 ⟨rfl, rfl⟩, rfl⟩
  | x :: rest, hserial, m => by
      obtain ⟨hx, hx'⟩ := exec_nil x (fun o ho => hserial o (List.mem_append_left _ ho)) m
      obtain ⟨hrest, hrest'⟩ :=
        execAll_nil rest (fun o ho => hserial o (List.mem_append_right _ ho)) m
      refine ⟨returns_execAll_cons.2 ⟨m, hx, hrest⟩, ?_⟩
      rw [accessesAll, hx.after_eq, hx', hrest', List.append_nil]

end

end Run

/-- The operations among some statements are serial, neither the extents of loops nor the sizes of
allocations depend on the thread, and shared storage is not allocated in conditionals. -/
structure Sequential (l : Launch) (threads : List Nat) (statements : List Stmt) : Prop where
  serial : ∀ o, .op o ∈ statements → o.synchronizes = false
  loops : ∀ h body, .loop h body ∈ statements → h.isLaunch = false → l.Uniform threads h.extent
  allocations : ∀ a, .allocate a ∈ statements → l.Uniform threads a.size
  conditionals : ∀ cond yes no, .branch cond yes no ∈ statements →
    ∀ a, .allocate a ∈ Stmt.flattenAll yes ++ Stmt.flattenAll no → a.memory ≠ .shared

theorem Sequential.mono {threads : List Nat} {xs ys : List Stmt} (h : Sequential l threads ys)
    (hsub : ∀ x ∈ xs, x ∈ ys) : Sequential l threads xs :=
  ⟨fun o ho => h.serial o (hsub _ ho), fun header body hloop => h.loops header body (hsub _ hloop),
    fun a ha => h.allocations a (hsub _ ha),
    fun cond yes no hbranch => h.conditionals cond yes no (hsub _ hbranch)⟩

namespace Run

variable {threads : List Nat}

/-- A loop, as one of the threads sees it. -/
theorem loop_mirrored {h : LoopHeader} {body : List Stmt}
    (hextent : h.isLaunch = false → l.Uniform threads h.extent)
    (hactive : ∀ s ∈ active, s ∈ threads) (ht : t ∈ active)
    (hbody : Mirrors A l t P (execAll A l body active) (accessesAll A l body active)
      (execAll A l body [t]) (accessesAll A l body [t])) :
    Mirrors A l t P (exec A l (.loop h body) active) (accesses A l (.loop h body) active)
      (exec A l (.loop h body) [t]) (accesses A l (.loop h body) [t]) := by
  intro m m' n hview hrun hallowed
  have hne := List.ne_nil_of_mem ht
  have hne' := List.cons_ne_nil t []
  cases hlaunch : h.isLaunch with
  | true =>
      rw [accesses_launchLoop hne hlaunch] at hallowed
      simp only [accesses_launchLoop hne hlaunch, accesses_launchLoop hne' hlaunch]
      obtain ⟨n', hrun', hview', hsub⟩ :=
        hbody m m' n hview ((returns_launchLoop hne hlaunch).1 hrun) hallowed
      exact ⟨n', (returns_launchLoop hne' hlaunch).2 hrun', hview', hsub⟩
  | false =>
      obtain ⟨k, m₁, hk, hrounds, rfl⟩ := (returns_loop hne hlaunch).1 hrun
      have hk' := hview.count? (hextent hlaunch) hactive ht hk
      rw [accesses_loop hne hlaunch hk] at hallowed
      obtain ⟨n₁, hrounds', hview₁, hsub⟩ :=
        forM_mirrored (iterate_mirrored hbody) (List.range k) m m₁ n hview hrounds hallowed
      refine ⟨n₁.endLoop h.index, (returns_loop hne' hlaunch).2 ⟨k, n₁, hk', hrounds', rfl⟩,
        ⟨fun j v hv => ?_, hview₁.registers, hview₁.shared, hview₁.cells⟩, ?_⟩
      · rw [Machine.lookup_endLoop] at hv ⊢
        split
        case isTrue hj => rwa [if_pos hj] at hv
        case isFalse hj => exact hview₁.loops j v (by rwa [if_neg hj] at hv)
      · rw [accesses_loop hne hlaunch hk, accesses_loop hne' hlaunch hk']
        exact hsub

/-- One side of a conditional, which a thread takes or leaves to others. -/
theorem side_mirrored {xs : List Stmt} {ts : List Nat}
    (hserial : ∀ o, .op o ∈ Stmt.flattenAll xs → o.synchronizes = false)
    (hshared : ∀ a, .allocate a ∈ Stmt.flattenAll xs → a.memory ≠ .shared)
    (htaken : t ∈ active → Mirrors A l t P (execAll A l xs active) (accessesAll A l xs active)
      (execAll A l xs [t]) (accessesAll A l xs [t]))
    (hts : t ∈ active ∧ ts = [t] ∨ t ∉ active ∧ ts = []) :
    Mirrors A l t P (execAll A l xs active) (accessesAll A l xs active) (execAll A l xs ts)
      (accessesAll A l xs ts) := by
  obtain ⟨ht, rfl⟩ | ⟨ht, rfl⟩ := hts
  · exact htaken ht
  · intro m m' n hview hrun hallowed
    obtain ⟨hnone, hnone'⟩ := execAll_nil (A := A) (l := l) xs hserial n
    have hconfined := execAll_confined xs hserial hshared hrun
    refine ⟨n, hnone, hview.others hconfined ht hallowed, ?_⟩
    rw [hnone']
    simp

/-- A thread takes the same side in lockstep and alone. -/
theorem mem_taking {cond : Scalar} {b b' : Bool} (hview : View A l t P m n) (ht : t ∈ active)
    (hb : l.truth? m.loops cond t = some b) :
    t ∈ l.taking m.loops cond b' active ∧ l.taking n.loops cond b' [t] = [t] ∨
      t ∉ l.taking m.loops cond b' active ∧ l.taking n.loops cond b' [t] = [] := by
  by_cases heq : b = b' <;> simp [Launch.taking, hb, hview.truth? hb, ht, heq]

mutual

/-- A statement, as one of the threads sees it. -/
theorem exec_mirrored : ∀ (x : Stmt) (_ : Sequential l threads x.flatten) {active : List Nat}
    (_ : active.Nodup) (_ : ∀ s ∈ active, s ∈ threads) (_ : t ∈ active),
    Mirrors A l t P (exec A l x active) (accesses A l x active) (exec A l x [t])
      (accesses A l x [t])
  | .loop header body, hseq, active, hnodup, hactive, ht =>
      loop_mirrored (hseq.loops header body List.mem_cons_self) hactive ht
        (execAll_mirrored body (hseq.mono fun _ => List.mem_cons_of_mem _) hnodup hactive ht)
  | .branch cond yes no, hseq, active, hnodup, hactive, ht => by
      have hyes : Sequential l threads (Stmt.flattenAll yes) :=
        hseq.mono fun x hx => List.mem_cons_of_mem _ (List.mem_append_left _ hx)
      have hno : Sequential l threads (Stmt.flattenAll no) :=
        hseq.mono fun x hx => List.mem_cons_of_mem _ (List.mem_append_right _ hx)
      have hshared := hseq.conditionals cond yes no List.mem_cons_self
      intro m m' n hview hrun hallowed
      obtain ⟨htruth, m₁, hrunYes, hrunNo⟩ := returns_branch.1 hrun
      obtain ⟨b, hb⟩ := htruth t ht
      rw [accesses, hrunYes.after_eq] at hallowed
      have hsub : ∀ b, (l.taking m.loops cond b active).Sublist active := fun b =>
        List.filter_sublist
      obtain ⟨n₁, hrunYes', hview₁, haccYes⟩ := side_mirrored hyes.serial
        (fun a ha => hshared a (List.mem_append_left _ ha))
        (fun ht => execAll_mirrored yes hyes (hnodup.sublist (hsub true))
          (fun s hs => hactive s ((hsub true).subset hs)) ht)
        (mem_taking hview ht hb) m m₁ n hview hrunYes
        fun a ha => hallowed a (List.mem_append_left _ ha)
      obtain ⟨n', hrunNo', hview', haccNo⟩ := side_mirrored hno.serial
        (fun a ha => hshared a (List.mem_append_right _ ha))
        (fun ht => execAll_mirrored no hno (hnodup.sublist (hsub false))
          (fun s hs => hactive s ((hsub false).subset hs)) ht)
        (mem_taking hview ht hb) m₁ m' n₁ hview₁ hrunNo
        fun a ha => hallowed a (List.mem_append_right _ ha)
      refine ⟨n', returns_branch.2 ⟨?_, n₁, hrunYes', hrunNo'⟩, hview', fun a ha => ?_⟩
      · intro s hs
        rw [List.mem_singleton.1 hs]
        exact ⟨b, hview.truth? hb⟩
      · rw [accesses, hrunYes'.after_eq] at ha
        rw [accesses, hrunYes.after_eq]
        exact (List.mem_append.1 ha).elim (fun ha => List.mem_append_left _ (haccYes a ha))
          fun ha => List.mem_append_right _ (haccNo a ha)
  | .allocate a, hseq, active, _, hactive, ht => by
      intro m m' n hview hrun hallowed
      simp only [accesses] at hallowed ⊢
      exact allocate_mirrored (hseq.allocations a (List.mem_singleton_self _)) hactive ht m m' n
        hview hrun hallowed
  | .barrier afterRead, _, active, _, _, ht => by
      intro m m' n hview hrun _
      obtain ⟨-, rfl⟩ := returns_pure.1 hrun
      refine ⟨n, returns_pure.2 ⟨rfl, rfl⟩, hview, ?_⟩
      rw [accesses]
      simp
  | .op o, hseq, active, hnodup, _, ht => by
      intro m m' n hview hrun hallowed
      simp only [accesses] at hallowed ⊢
      exact execOp_mirrored (hseq.serial o (List.mem_singleton_self _)) hnodup ht m m' n hview hrun
        hallowed

/-- Statements, as one of the threads sees them. -/
theorem execAll_mirrored : ∀ (xs : List Stmt) (_ : Sequential l threads (Stmt.flattenAll xs))
    {active : List Nat} (_ : active.Nodup) (_ : ∀ s ∈ active, s ∈ threads) (_ : t ∈ active),
    Mirrors A l t P (execAll A l xs active) (accessesAll A l xs active) (execAll A l xs [t])
      (accessesAll A l xs [t])
  | [], _, active, _, _, ht => by
      intro m m' n hview hrun _
      obtain ⟨-, rfl⟩ := returns_pure.1 hrun
      refine ⟨n, returns_pure.2 ⟨rfl, rfl⟩, hview, ?_⟩
      rw [accessesAll]
      simp
  | x :: rest, hseq, active, hnodup, hactive, ht => by
      intro m m' n hview hrun hallowed
      obtain ⟨m₁, hx, hrest⟩ := returns_execAll_cons.1 hrun
      rw [accessesAll, hx.after_eq] at hallowed
      obtain ⟨n₁, hx', hview₁, hsub₁⟩ := exec_mirrored x
        (hseq.mono fun y hy => List.mem_append_left _ hy) hnodup hactive ht m m₁ n hview hx
        fun a ha => hallowed a (List.mem_append_left _ ha)
      obtain ⟨n', hrest', hview', hsub'⟩ := execAll_mirrored rest
        (hseq.mono fun y hy => List.mem_append_right _ hy) hnodup hactive ht m₁ m' n₁ hview₁ hrest
        fun a ha => hallowed a (List.mem_append_right _ ha)
      refine ⟨n', returns_execAll_cons.2 ⟨n₁, hx', hrest'⟩, hview', fun a ha => ?_⟩
      rw [accessesAll, hx'.after_eq] at ha
      rw [accessesAll, hx.after_eq]
      exact (List.mem_append.1 ha).elim (fun ha => List.mem_append_left _ (hsub₁ a ha))
        fun ha => List.mem_append_right _ (hsub' a ha)

end

end Run

end Kernel
end FusionCompiler
