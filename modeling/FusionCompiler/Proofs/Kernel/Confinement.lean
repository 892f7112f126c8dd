import FusionCompiler.Proofs.Kernel.Accesses

/-!
# What a run changes

A run changes no more than its accesses say.  Apart from the registers that it
allocates and the shared storage that it makes longer, only cells that it writes
change, and a loop has no index any more once it has ended.

Main results:

- Theorems `Kernel.Machine.get?_allocateRegisters` and
  `Kernel.Machine.get?_growShareds`: what allocations change.
- Theorem `Kernel.Run.execAll_confined`: a run is confined to its accesses.
-/

namespace FusionCompiler
namespace Kernel

variable {α β : Type} {A : Arithmetic α} {l : Launch} {m m' m₁ m₂ n n' : Machine α}
  {active : List Nat} {t : Nat} {u : Unit} {o : Op}

/-! ## Allocating storage -/

/-- A new storage is seen at its own place only. -/
theorem Store.lookup_insert (s : Store α) (v w : ValueId) (a : Array α) :
    (s.insert v a).lookup w = if w = v then some a else s.lookup w := by
  induction s with
  | nil =>
      by_cases hw : w = v
      · simp [Store.insert, hw]
      · simp [Store.insert, hw, List.lookup_cons, beq_eq_false_iff_ne.2 hw]
  | cons p s ih =>
      obtain ⟨u, b⟩ := p
      unfold Store.insert
      by_cases hu : u = v
      · subst hu
        by_cases hw : w = u
        · simp [hw]
        · simp [hw, List.lookup_cons, beq_eq_false_iff_ne.2 hw]
      · rw [if_neg hu]
        by_cases hw : w = u
        · subst hw
          simp [hu]
        · simp only [List.lookup_cons, beq_eq_false_iff_ne.2 hw, ih]

/-- Storage that is made longer has zeros behind what it had. -/
theorem Store.getElem?_grown (s : Store α) (v w : ValueId) (zero : α) (size i : Nat) :
    ((match s.lookup v with
      | some old =>
        if old.size < size then s.insert v (old ++ Array.replicate (size - old.size) zero) else s
      | none => s.insert v (Array.replicate size zero)).lookup w).bind (·[i]?) =
      if w = v ∧ i < size ∧ (s.lookup w).bind (·[i]?) = none then some zero
      else (s.lookup w).bind (·[i]?) := by
  by_cases hw : w = v
  · subst hw
    cases hold : s.lookup w with
    | none => by_cases hi : i < size <;> simp [Store.lookup_insert, hi]
    | some old =>
        by_cases hsize : old.size < size
        · simp only [hsize, if_true, Store.lookup_insert, Option.bind_some, true_and]
          by_cases hi : i < old.size
          · simp [Array.getElem?_append_left hi, hi]
          · have hle := Nat.le_of_not_lt hi
            rw [Array.getElem?_append_right hle, Array.getElem?_eq_none hle]
            by_cases hlt : i < size
            · simp [hlt, Nat.sub_lt_sub_right hle hlt]
            · have hge : size - old.size ≤ i - old.size := by omega
              simp [hlt, hge]
        · have hsmall : i < size → old[i]? ≠ none := by
            intro hi
            simp
            omega
          simp only [hsize, if_false, hold, Option.bind_some, true_and]
          rw [if_neg fun h => hsmall h.1 h.2]
  · have hkeep : ∀ a, (s.insert v a).lookup w = s.lookup w := fun a => by
      rw [Store.lookup_insert, if_neg hw]
    rw [if_neg fun h => hw h.1]
    split
    · split
      · rw [hkeep]
      · rfl
    · rw [hkeep]

namespace Machine

/-- Fresh storage of a thread replaces one of its tensors. -/
theorem get?_allocateRegister (m : Machine α) (v : ValueId) (storage : Array α) (t : Nat)
    (c : Cell) : (m.allocateRegister v storage t).get? c =
      if c.1 = .register t v ∧ t < m.registers.size then storage[c.2]? else m.get? c := by
  obtain ⟨p, i⟩ := c
  cases p with
  | buffer j => simp [get?, storage?, allocateRegister]
  | shared b w => simp [get?, storage?, allocateRegister]
  | register d w =>
      simp only [get?, storage?, allocateRegister, Array.getD_eq_getD_getElem?,
        Array.getElem?_modify, Place.register.injEq]
      by_cases hd : t = d
      · subst hd
        by_cases hlt : t < m.registers.size
        · simp only [Array.getElem?_eq_getElem hlt, if_true, Option.map_some, Option.getD_some,
            Store.lookup_insert, true_and, hlt, and_true]
          split <;> rfl
        · simp [hlt]
      · simp [hd, Ne.symm hd]

/-- Longer storage has zeros where there was nothing. -/
theorem get?_growShared (m : Machine α) (v : ValueId) (zero : α) (size b : Nat) (c : Cell) :
    (m.growShared v zero size b).get? c =
      if c.1 = .shared b v ∧ b < m.shared.size ∧ c.2 < size ∧ m.get? c = none then some zero
      else m.get? c := by
  obtain ⟨p, i⟩ := c
  cases p with
  | buffer j => simp [get?, storage?, growShared]
  | register d w => simp [get?, storage?, growShared]
  | shared d w =>
      simp only [get?, storage?, growShared, Array.getD_eq_getD_getElem?, Array.getElem?_modify,
        Place.shared.injEq]
      by_cases hd : b = d
      · subst hd
        by_cases hlt : b < m.shared.size
        · simp only [Array.getElem?_eq_getElem hlt, if_true, Option.map_some, Option.getD_some,
            true_and, hlt]
          exact Store.getElem?_grown m.shared[b] v w zero size i
        · simp [hlt]
      · simp [hd, Ne.symm hd]

/-- Changing storage keeps how many there are. -/
theorem sizes_modifyStorage (m : Machine α) (g : Array α → Array α) (p : Place) :
    (m.modifyStorage g p).buffers.size = m.buffers.size ∧
      (m.modifyStorage g p).registers.size = m.registers.size ∧
      (m.modifyStorage g p).shared.size = m.shared.size := by
  cases p <;> simp [modifyStorage]

/-- Fresh storage for several threads. -/
theorem get?_allocateRegisters (m : Machine α) (v : ValueId) (storage : Array α) (ts : List Nat)
    (c : Cell) : (ts.foldl (fun m t => m.allocateRegister v storage t) m).get? c =
      if ∃ t ∈ ts, c.1 = .register t v ∧ t < m.registers.size then storage[c.2]?
      else m.get? c := by
  induction ts generalizing m with
  | nil => simp
  | cons t ts ih =>
      have hsize : (m.allocateRegister v storage t).registers.size = m.registers.size := by
        simp [allocateRegister]
      rw [List.foldl_cons, ih, get?_allocateRegister, hsize]
      simp only [List.mem_cons, exists_eq_or_imp]
      by_cases hrest : ∃ s ∈ ts, c.1 = .register s v ∧ s < m.registers.size
      · simp [hrest]
      · simp only [hrest, if_false, or_false]

/-- Longer storage in several blocks. -/
theorem get?_growShareds (m : Machine α) (v : ValueId) (zero : α) (size : Nat) (bs : List Nat)
    (c : Cell) : (bs.foldl (fun m b => m.growShared v zero size b) m).get? c =
      if (∃ b ∈ bs, c.1 = .shared b v ∧ b < m.shared.size) ∧ c.2 < size ∧ m.get? c = none then
        some zero
      else m.get? c := by
  induction bs generalizing m with
  | nil => simp
  | cons b bs ih =>
      have hsize : (m.growShared v zero size b).shared.size = m.shared.size := by
        simp [growShared]
      rw [List.foldl_cons, ih, get?_growShared, hsize]
      simp only [List.mem_cons, exists_eq_or_imp]
      by_cases hfirst : c.1 = .shared b v ∧ b < m.shared.size
      · by_cases hnew : c.2 < size ∧ m.get? c = none
        · simp [hfirst, hnew]
        · simp only [if_false, hfirst, true_or, true_and, hnew, and_false]
      · have hnot : ¬ (c.1 = .shared b v ∧ b < m.shared.size ∧ c.2 < size ∧ m.get? c = none) :=
          fun h => hfirst ⟨h.1, h.2.1⟩
        simp only [hnot, if_false, hfirst, false_or]

/-- A loop that ends has no index. -/
theorem lookup_endLoop (m : Machine α) (i j : LoopId) :
    (m.endLoop i).loops.lookup j = if j = i then none else m.loops.lookup j := by
  unfold endLoop
  generalize m.loops = loops
  dsimp only
  induction loops with
  | nil => simp
  | cons q loops ih =>
      obtain ⟨a, k⟩ := q
      rw [List.filter_cons, List.lookup_cons]
      by_cases ha : a = i
      · subst ha
        simp only [bne_self_eq_false, Bool.false_eq_true, if_false, ih]
        by_cases hj : j = a
        · simp [hj]
        · simp [hj, beq_eq_false_iff_ne.2 hj]
      · rw [if_pos (by simpa using ha), List.lookup_cons, ih]
        by_cases hj : j = a
        · simp [hj, ha]
        · simp [beq_eq_false_iff_ne.2 hj]

/-- The index of a loop in a round. -/
theorem lookup_setLoop (m : Machine α) (i j : LoopId) (k : Int) :
    (m.setLoop i k).loops.lookup j = if j = i then some k else m.loops.lookup j := by
  have hothers := lookup_endLoop m i j
  unfold endLoop at hothers
  unfold setLoop
  rw [List.lookup_cons]
  by_cases hj : j = i
  · simp [hj]
  · rw [beq_eq_false_iff_ne.2 hj]
    exact hothers.trans (by simp [hj])

end Machine

/-! ## Confinement -/

namespace Launch

/-- Where a thread can access storage: in global memory, its own registers and the shared memory of
its block. -/
def Reaches (l : Launch) (t : Nat) : Place → Prop
  | .buffer _ => True
  | .register s _ => s = t
  | .shared b _ => b = l.block t

/-- A thread reaches the cells that its elements name. -/
theorem reaches_of_cell? {loops : List (LoopId × Int)} {e : Element} {c : Cell}
    (h : l.cell? loops e t = some c) : l.Reaches t c.1 := by
  obtain ⟨i, -, hplace, -⟩ := Run.cell?_eq_some.1 h
  unfold place? at hplace
  split at hplace
  · obtain ⟨a, -, ha⟩ := Option.map_eq_some_iff.1 hplace
    rw [← ha]
    trivial
  · rw [← Option.some.inj hplace]
    rfl
  · rw [← Option.some.inj hplace]
    rfl
  · cases hplace

end Launch

/-- A run of some threads changes no more than its accesses say: it writes cells, allocates
registers of its threads, makes shared storage longer if `grows`, and forgets indices of loops.
Indices of loops that it `counts` may change. -/
structure Confined (A : Arithmetic α) (l : Launch) (grows : Prop) (counts : LoopId → Prop)
    (accesses : List Access) (active : List Nat) (m m' : Machine α) : Prop where
  loops : ∀ i, ¬ counts i → ∀ k, m'.loops.lookup i = some k → m.loops.lookup i = some k
  buffers : m'.buffers.size = m.buffers.size
  registers : m'.registers.size = m.registers.size
  shared : m'.shared.size = m.shared.size
  threads : ∀ a ∈ accesses, a.thread ∈ active ∧ l.Reaches a.thread a.cell.1
  cells : ∀ c, (∃ a ∈ accesses, a.write = true ∧ a.cell = c) ∨
    (∃ t ∈ active, ∃ v, c.1 = .register t v) ∨ m'.get? c = m.get? c ∨
    (grows ∧ (∃ b v, c.1 = .shared b v) ∧ m.get? c = none ∧ m'.get? c = some A.zero)

namespace Confined

variable {grows : Prop} {counts : LoopId → Prop} {accesses accesses₁ accesses₂ : List Access}
  {active' : List Nat}

/-- Nothing happens. -/
theorem refl (m : Machine α) : Confined A l grows counts [] active m m :=
  ⟨fun _ _ _ h => h, rfl, rfl, rfl, by simp, fun _ => .inr (.inr (.inl rfl))⟩

/-- Runs one after another. -/
theorem trans (h₁ : Confined A l grows counts accesses₁ active m m₁)
    (h₂ : Confined A l grows counts accesses₂ active m₁ m₂) :
    Confined A l grows counts (accesses₁ ++ accesses₂) active m m₂ := by
  refine ⟨fun i hi k hk => h₁.loops i hi k (h₂.loops i hi k hk), h₂.buffers.trans h₁.buffers,
    h₂.registers.trans h₁.registers, h₂.shared.trans h₁.shared,
    fun a ha => (List.mem_append.1 ha).elim (h₁.threads a) (h₂.threads a), fun c => ?_⟩
  obtain ⟨a, ha, hw⟩ | hregister | hsame₁ | ⟨hgrows, hshared, hnone, hzero⟩ := h₁.cells c
  · exact .inl ⟨a, List.mem_append_left _ ha, hw⟩
  · exact .inr (.inl hregister)
  · obtain ⟨a, ha, hw⟩ | hregister | hsame₂ | ⟨hgrows, hshared, hnone, hzero⟩ := h₂.cells c
    · exact .inl ⟨a, List.mem_append_right _ ha, hw⟩
    · exact .inr (.inl hregister)
    · exact .inr (.inr (.inl (hsame₂.trans hsame₁)))
    · exact .inr (.inr (.inr ⟨hgrows, hshared, hsame₁ ▸ hnone, hzero⟩))
  · -- what has grown once is there
    obtain ⟨a, ha, hw⟩ | hregister | hsame₂ | ⟨-, -, hnone₂, -⟩ := h₂.cells c
    · exact .inl ⟨a, List.mem_append_right _ ha, hw⟩
    · exact .inr (.inl hregister)
    · exact .inr (.inr (.inr ⟨hgrows, hshared, hnone, hsame₂.trans hzero⟩))
    · rw [hzero] at hnone₂
      cases hnone₂

/-- Fewer threads do no more. -/
theorem mono (h : Confined A l grows counts accesses active m m')
    (hactive : ∀ t ∈ active, t ∈ active') : Confined A l grows counts accesses active' m m' :=
  ⟨h.loops, h.buffers, h.registers, h.shared,
    fun a ha => ⟨hactive _ (h.threads a ha).1, (h.threads a ha).2⟩,
    fun c => (h.cells c).imp_right (.imp_left fun ⟨t, ht, hv⟩ => ⟨t, hactive t ht, hv⟩)⟩

/-- Reading more changes nothing. -/
theorem reading (h : Confined A l grows counts accesses₂ active m m')
    (hreads : ∀ a ∈ accesses₁, a.thread ∈ active ∧ l.Reaches a.thread a.cell.1) :
    Confined A l grows counts (accesses₁ ++ accesses₂) active m m' :=
  ⟨h.loops, h.buffers, h.registers, h.shared,
    fun a ha => (List.mem_append.1 ha).elim (hreads a) (h.threads a),
    fun c => (h.cells c).imp_left fun ⟨a, ha, hw⟩ => ⟨a, List.mem_append_right _ ha, hw⟩⟩

/-- Buffers keep what is not written. -/
theorem get?_buffer (h : Confined A l grows counts accesses active m m') {c : Cell} {j : Nat}
    (hc : c.1 = .buffer j) (hnot : ∀ a ∈ accesses, a.write = true → a.cell ≠ c) :
    m'.get? c = m.get? c := by
  obtain ⟨a, ha, hw, hcell⟩ | ⟨s, -, v, hv⟩ | hsame | ⟨-, ⟨b, v, hv⟩, -⟩ := h.cells c
  · exact absurd hcell (hnot a ha hw)
  · rw [hc] at hv
    cases hv
  · exact hsame
  · rw [hc] at hv
    cases hv

/-- Writing a cell. -/
theorem set {e : Element} {c : Cell} (h : l.cell? m.loops e t = some c) (y : α) :
    Confined A l grows counts [⟨t, c, true⟩] [t] m (m.set c y) := by
  obtain ⟨hbuffers, hregisters, hshared⟩ :=
    m.sizes_modifyStorage (·.setIfInBounds c.2 y) c.1
  refine ⟨fun i _ k hk => by rwa [Machine.loops_set] at hk, hbuffers, hregisters, hshared, ?_,
    fun d => ?_⟩
  · simpa using Launch.reaches_of_cell? h
  · by_cases hd : c = d
    · exact .inl ⟨_, List.mem_singleton_self _, rfl, hd⟩
    · exact .inr (.inr (.inl (by rw [Machine.get?_set, if_neg (Ne.symm hd)])))

/-- A register is allocated for its own thread. -/
theorem allocateRegister (v : ValueId) (storage : Array α) (ht : t ∈ active) :
    Confined A l grows counts [] active m (m.allocateRegister v storage t) := by
  refine ⟨fun _ _ _ h => h, rfl, by simp [Machine.allocateRegister], rfl, by simp, fun c => ?_⟩
  by_cases hc : c.1 = .register t v
  · exact .inr (.inl ⟨t, ht, v, hc⟩)
  · rw [Machine.get?_allocateRegister, if_neg fun h => hc h.1]
    exact .inr (.inr (.inl rfl))

/-- Shared memory grows where growing is allowed. -/
theorem growShared (v : ValueId) (size b : Nat) (hgrows : grows) :
    Confined A l grows counts [] active m (m.growShared v A.zero size b) := by
  refine ⟨fun _ _ _ h => h, rfl, rfl, by simp [Machine.growShared], by simp, fun c => ?_⟩
  rw [Machine.get?_growShared]
  split
  case isTrue h => exact .inr (.inr (.inr ⟨hgrows, ⟨b, v, h.1⟩, h.2.2.2, rfl⟩))
  case isFalse => exact .inr (.inr (.inl rfl))

/-- Steps that allocate only, one after another. -/
theorem foldl {g : Machine α → β → Machine α} {bs : List β}
    (hg : ∀ b ∈ bs, ∀ n, Confined A l grows counts [] active n (g n b)) :
    Confined A l grows counts [] active m (bs.foldl g m) := by
  induction bs generalizing m with
  | nil => exact refl m
  | cons b bs ih =>
      exact (hg b List.mem_cons_self m).trans
        (ih fun b' hb' => hg b' (List.mem_cons_of_mem b hb'))

/-- A loop that is counted may have another index until it ends. -/
theorem endLoop {i : LoopId} (h : Confined A l grows (· = i) accesses active m m') :
    Confined A l grows counts accesses active m (m'.endLoop i) := by
  refine ⟨fun j _ k hk => ?_, h.buffers, h.registers, h.shared, h.threads, h.cells⟩
  rw [Machine.lookup_endLoop] at hk
  split at hk
  · cases hk
  case isFalse hj => exact h.loops j hj k hk

/-- The counter of a loop is set before its body. -/
theorem setLoop {i : LoopId} {k : Int}
    (h : Confined A l grows (fun _ => False) accesses active (m.setLoop i k) m') :
    Confined A l grows (· = i) accesses active m m' := by
  refine ⟨fun j hj k' hk => ?_, h.buffers, h.registers, h.shared, h.threads, h.cells⟩
  have := h.loops j id k' hk
  rwa [Machine.lookup_setLoop, if_neg hj] at this

end Confined

namespace Run

variable {grows : Prop} {counts : LoopId → Prop}

/-- Results belong to the outputs of the operation. -/
theorem results?_outputs {results : List (Element × α)} (h : o.results? A l m t = some results) :
    results.map (·.1) = o.outputs := by
  cases o with
  | unary op out x =>
      obtain ⟨y, -, rfl⟩ := Option.map_eq_some_iff.1 h
      rfl
  | binary op out a b =>
      obtain ⟨y, -, h⟩ := Option.bind_eq_some_iff.1 h
      obtain ⟨z, -, rfl⟩ := Option.map_eq_some_iff.1 h
      rfl
  | select out cond a b =>
      obtain ⟨y, -, h⟩ := Option.bind_eq_some_iff.1 h
      obtain ⟨z, -, rfl⟩ := Option.map_eq_some_iff.1 h
      rfl
  | init out value =>
      cases h
      rfl
  | reduce op out x init how =>
      cases how with
      | serial =>
          obtain ⟨y, -, h⟩ := Option.bind_eq_some_iff.1 h
          obtain ⟨z, -, rfl⟩ := Option.map_eq_some_iff.1 h
          rfl
      | across => cases h
  | welford out x how =>
      cases how with
      | serial =>
          obtain ⟨y, -, h⟩ := Option.bind_eq_some_iff.1 h
          obtain ⟨z, -, rfl⟩ := Option.map_eq_some_iff.1 h
          rfl
      | across => cases h
  | broadcast out x how =>
      cases how with
      | serial =>
          obtain ⟨y, -, rfl⟩ := Option.map_eq_some_iff.1 h
          rfl
      | across => cases h

/-- Writing results changes the cells of their elements. -/
theorem storeAll_confined {results : List (Element × α)}
    (h : Returns (storeAll A l t results) m u m') :
    Confined A l grows counts
      (results.filterMap fun r => (l.cell? m.loops r.1 t).map (⟨t, ·, true⟩)) [t] m m' := by
  induction results generalizing m with
  | nil =>
      obtain rfl := returns_forM_nil.1 h
      exact .refl m
  | cons r results ih =>
      obtain ⟨m₁, hone, h⟩ := returns_forM_cons.1 h
      obtain ⟨c, hc, -, rfl⟩ := returns_store.1 hone
      rw [List.filterMap_cons_some (by rw [hc]; rfl)]
      have hrest := ih h
      rw [Machine.loops_set] at hrest
      exact (Confined.set hc _).trans hrest

/-- A serial operation of one thread is confined to its accesses. -/
theorem execOp_singleton_confined (ho : o.synchronizes = false)
    (h : Returns (execOp A l o [t]) m u m') :
    Confined A l grows counts (o.accesses A l t m) [t] m m' := by
  obtain ⟨results, hresults, hstore⟩ := (returns_execOp_singleton ho).1 h
  unfold Op.accesses
  rw [← results?_outputs hresults, List.filterMap_map]
  refine (storeAll_confined hstore).reading fun a ha => ?_
  obtain ⟨x, -, hx⟩ := List.mem_filterMap.1 ha
  obtain ⟨c, hc, rfl⟩ := Option.map_eq_some_iff.1 hx
  cases x with
  | element e => exact ⟨List.mem_singleton_self t, Launch.reaches_of_cell? hc⟩
  | scalar => cases hc

/-- Steps that follow each other are confined to their accesses. -/
theorem forM_confined {f : β → Run α Unit} {accesses : β → Machine α → List Access} {bs : List β}
    (hf : ∀ b ∈ bs, ∀ n n', Returns (f b) n () n' →
      Confined A l grows counts (accesses b n) active n n')
    (h : Returns (bs.forM f) m u m') :
    Confined A l grows counts (along f accesses bs m) active m m' := by
  induction bs generalizing m with
  | nil =>
      obtain rfl := returns_forM_nil.1 h
      exact .refl m
  | cons b bs ih =>
      obtain ⟨m₁, hone, h⟩ := returns_forM_cons.1 h
      rw [along, hone.after_eq]
      exact (hf b List.mem_cons_self m m₁ hone).trans
        (ih (fun b' hb' => hf b' (List.mem_cons_of_mem b hb')) h)

/-- Repeated changes of the machine are one change. -/
theorem returns_forM_modify {g : Machine α → β → Machine α} {bs : List β} :
    Returns (bs.forM fun b => (modify fun m => g m b : Run α Unit)) m u m' ↔
      bs.foldl g m = m' := by
  induction bs generalizing m with
  | nil => exact returns_forM_nil
  | cons b bs ih =>
      simp only [returns_forM_cons, returns_modify, exists_eq_left', ih, List.foldl_cons]

/-- What an allocation changes. -/
theorem returns_allocate {a : Allocation} (hactive : active ≠ []) :
    Returns (allocate A l a active) m u m' ↔ ∃ k, l.count? m.loops a.size active = some k ∧
      (a.memory = .local ∧ active.foldl (fun m t => m.allocateRegister a.tensor
        (Array.replicate k A.zero) t) m = m' ∨
      a.memory = .shared ∧ (active.map l.block).eraseReps.foldl (fun m b => m.growShared
        (l.owner a.tensor) A.zero k b) m = m') := by
  obtain ⟨first, rest, rfl⟩ := List.exists_cons_of_ne_nil hactive
  simp only [allocate, returns_bind, returns_eval, Launch.count?, Option.map_eq_some_iff]
  constructor
  · rintro ⟨c, _, ⟨hc, rfl⟩, h⟩
    refine ⟨_, ⟨c, hc, rfl⟩, ?_⟩
    cases hmemory : a.memory with
    | «local» =>
        rw [hmemory] at h
        exact .inl ⟨rfl, returns_forM_modify.1 h⟩
    | shared =>
        rw [hmemory] at h
        exact .inr ⟨rfl, returns_forM_modify.1 h⟩
    | global =>
        rw [hmemory] at h
        exact absurd h returns_throw
  · rintro ⟨_, ⟨c, hc, rfl⟩, ⟨hmemory, h⟩ | ⟨hmemory, h⟩⟩
    · refine ⟨c, m, ⟨hc, rfl⟩, ?_⟩
      rw [hmemory]
      exact returns_forM_modify.2 h
    · refine ⟨c, m, ⟨hc, rfl⟩, ?_⟩
      rw [hmemory]
      exact returns_forM_modify.2 h

/-- An allocation touches no cell that there was. -/
theorem allocate_confined {a : Allocation} (hshared : a.memory = .shared → grows)
    (h : Returns (allocate A l a active) m u m') : Confined A l grows counts [] active m m' := by
  by_cases hactive : active = []
  · subst hactive
    obtain ⟨-, rfl⟩ := returns_pure.1 h
    exact .refl m
  · obtain ⟨k, -, ⟨-, rfl⟩ | ⟨hmemory, rfl⟩⟩ := (returns_allocate hactive).1 h
    · exact .foldl fun t ht n => .allocateRegister _ _ ht
    · exact .foldl fun b _ n => .growShared _ _ _ (hshared hmemory)

mutual

/-- A statement whose operations are serial is confined to its accesses. -/
theorem exec_confined {grows : Prop} : ∀ (x : Stmt)
    (_ : ∀ o, .op o ∈ x.flatten → o.synchronizes = false)
    (_ : ∀ a, .allocate a ∈ x.flatten → a.memory = .shared → grows)
    {active : List Nat} {m m' : Machine α} (_ : Returns (exec A l x active) m () m'),
    Confined A l grows (fun _ => False) (accesses A l x active m) active m m'
  | .loop header body, hserial, hgrows, active, m, m', h => by
      have hbody := fun {m m' : Machine α} (h : Returns (execAll A l body active) m () m') =>
        execAll_confined body (fun o ho => hserial o (List.mem_cons_of_mem _ ho))
          (fun a ha => hgrows a (List.mem_cons_of_mem _ ha)) h
      by_cases hactive : active = []
      · subst hactive
        rw [exec] at h
        obtain ⟨-, rfl⟩ := returns_pure.1 h
        rw [accesses]
        exact .refl m
      cases hlaunch : header.isLaunch with
      | true =>
          rw [accesses_launchLoop hactive hlaunch]
          exact hbody ((returns_launchLoop hactive hlaunch).1 h)
      | false =>
          obtain ⟨k, m₁, hk, hrounds, rfl⟩ := (returns_loop hactive hlaunch).1 h
          rw [accesses_loop hactive hlaunch hk]
          exact (forM_confined (fun i _ n n' hi => (hbody (returns_iterate.1 hi)).setLoop)
            hrounds).endLoop
  | .branch cond yes no, hserial, hgrows, active, m, m', h => by
      obtain ⟨-, m₁, hyes, hno⟩ := returns_branch.1 h
      rw [accesses, hyes.after_eq]
      have hyes := execAll_confined yes
        (fun o ho => hserial o (List.mem_cons_of_mem _ (List.mem_append_left _ ho)))
        (fun a ha => hgrows a (List.mem_cons_of_mem _ (List.mem_append_left _ ha))) hyes
      have hno := execAll_confined no
        (fun o ho => hserial o (List.mem_cons_of_mem _ (List.mem_append_right _ ho)))
        (fun a ha => hgrows a (List.mem_cons_of_mem _ (List.mem_append_right _ ha))) hno
      exact (hyes.mono fun t ht => (List.mem_filter.1 ht).1).trans
        (hno.mono fun t ht => (List.mem_filter.1 ht).1)
  | .allocate a, _, hgrows, active, m, m', h => by
      rw [accesses]
      exact allocate_confined (hgrows a (List.mem_singleton_self _)) h
  | .barrier afterRead, _, _, active, m, m', h => by
      obtain ⟨-, rfl⟩ := returns_pure.1 h
      rw [accesses]
      exact .refl m
  | .op o, hserial, _, active, m, m', h => by
      have ho := hserial o (List.mem_singleton_self _)
      rw [accesses]
      refine forM_confined (fun t ht n n' hone => ?_) ((returns_execOp ho).1 h)
      exact (execOp_singleton_confined ho hone).mono fun s hs =>
        List.mem_singleton.1 hs ▸ ht

/-- Statements whose operations are serial are confined to their accesses. -/
theorem execAll_confined {grows : Prop} : ∀ (xs : List Stmt)
    (_ : ∀ o, .op o ∈ Stmt.flattenAll xs → o.synchronizes = false)
    (_ : ∀ a, .allocate a ∈ Stmt.flattenAll xs → a.memory = .shared → grows)
    {active : List Nat} {m m' : Machine α} (_ : Returns (execAll A l xs active) m () m'),
    Confined A l grows (fun _ => False) (accessesAll A l xs active m) active m m'
  | [], _, _, active, m, m', h => by
      obtain ⟨-, rfl⟩ := returns_pure.1 h
      rw [accessesAll]
      exact .refl m
  | x :: rest, hserial, hgrows, active, m, m', h => by
      obtain ⟨m₁, hx, hrest⟩ := returns_execAll_cons.1 h
      rw [accessesAll, hx.after_eq]
      exact (exec_confined x (fun o ho => hserial o (List.mem_append_left _ ho))
        (fun a ha => hgrows a (List.mem_append_left _ ha)) hx).trans
        (execAll_confined rest (fun o ho => hserial o (List.mem_append_right _ ho))
          (fun a ha => hgrows a (List.mem_append_right _ ha)) hrest)

end

end Run

end Kernel
end FusionCompiler
