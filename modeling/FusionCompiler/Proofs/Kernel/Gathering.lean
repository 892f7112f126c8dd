import Mathlib.Data.List.Nodup
import FusionCompiler.Proofs.Kernel.Cooperation
import FusionCompiler.Proofs.Kernel.Statistics

/-!
# Gathering statistics

A kernel gathers the statistics of samples in steps: a thread takes in one sample
or the statistics of an earlier stage, or the threads of a segment fold theirs
from zero and the first thread joins the result with what it holds.  Threads that
are predicated off contribute nothing.

Whatever the nesting of these steps, the cells of a triple hold the statistics of
all samples that went into them.

Main results:

- Theorems `Kernel.Run.welford_serial` and `Kernel.Run.welford_across`: what one
  step leaves in the cells of a thread.
- Theorem `Kernel.Run.welford_returns`: a step succeeds if its threads find what
  they read and write.
- Theorem `Kernel.Run.Gathered.moments?_eq`: gathered statistics are those of the
  samples.
- Theorem `Kernel.Run.statistics_exact`: joining, gathering and taking one more
  step, over the rational numbers.
-/

namespace FusionCompiler
namespace Kernel

variable {α β : Type} {A : Arithmetic α} {l : Launch} {m m' m₁ m₂ : Machine α}
  {out : Moments Element} {x : WelfordInput} {how : Collective} {active : List Nat} {t : Nat}

/-! ## What a step reads and writes -/

namespace Machine

/-- The loops are at the same indices, and some cells hold the same values. -/
structure AgreeOn (P : Cell → Prop) (m m' : Machine α) : Prop where
  loops : m'.loops = m.loops
  cells : ∀ c, P c → m'.get? c = m.get? c

variable {P : Cell → Prop}

/-- Nothing happens to the cells. -/
theorem AgreeOn.refl (m : Machine α) : AgreeOn P m m :=
  ⟨rfl, fun _ _ => rfl⟩

/-- Two runs one after another. -/
theorem AgreeOn.trans (h₁ : AgreeOn P m m₁) (h₂ : AgreeOn P m₁ m₂) : AgreeOn P m m₂ :=
  ⟨h₂.loops.trans h₁.loops, fun c hc => (h₂.cells c hc).trans (h₁.cells c hc)⟩

/-- Agreement on fewer cells. -/
theorem AgreeOn.mono {Q : Cell → Prop} (h : AgreeOn P m m') (hPQ : ∀ c, Q c → P c) :
    AgreeOn Q m m' :=
  ⟨h.loops, fun c hc => h.cells c (hPQ c hc)⟩

end Machine

/-- The operands of what a statistics operation takes in. -/
def WelfordInput.operands : WelfordInput → List Kernel.Operand
  | .sample x => [x]
  | .moments x => x.toList

/-- The statistics that a triple of elements holds, as an operand of a later stage. -/
def WelfordInput.held (out : Moments Element) : WelfordInput :=
  .moments (out.map .element)

namespace Collective

/-- Where a thread contributes. -/
def reads : Collective → Scalar
  | .serial => .bool true
  | .across _ _ reads _ => reads

/-- Where the first thread of a segment takes the result. -/
def writes : Collective → Scalar
  | .serial => .bool true
  | .across _ _ _ writes => writes

end Collective

namespace Launch

/-- The statistics that a thread takes in. -/
def moments? (A : Arithmetic α) (l : Launch) (m : Machine α) (x : WelfordInput) (thread : Nat) :
    Option (Moments α) :=
  match x with
  | .sample x => (l.value? A m x thread).map A.sample
  | .moments x => x.mapM fun x => l.value? A m x thread

/-- The threads that write. -/
def writers (l : Launch) (loops : List (LoopId × Int)) (how : Collective) (active : List Nat) :
    List Nat :=
  active.filter fun t => l.isFirst how.types t && l.truth? loops how.writes t == some true

/-- The threads whose contributions a thread joins with what it holds, in order. -/
def readers (l : Launch) (loops : List (LoopId × Int)) (how : Collective) (active : List Nat)
    (t : Nat) : List Nat :=
  match how with
  | .serial => [t]
  | .across _ types reads _ =>
    (l.peers types active t).filter fun s => l.truth? loops reads s == some true

/-- The cells that matter to a thread: its own, and those that its contributors read. -/
inductive Uses (l : Launch) (loops : List (LoopId × Int)) (out : Moments Element)
    (x : WelfordInput) (how : Collective) (active : List Nat) (t : Nat) (c : Cell) : Prop where
  | own (e : Element) (he : e ∈ out.toList) (hc : l.cell? loops e t = some c)
  | reads (s : Nat) (hs : s ∈ l.readers loops how active t) (y : Kernel.Operand)
      (hy : y ∈ x.operands) (hc : l.operandCell? loops y s = some c)

/-- A thread takes the result of its segment into three cells, and no other thread writes what
matters to it. -/
structure Separate (l : Launch) (loops : List (LoopId × Int)) (out : Moments Element)
    (x : WelfordInput) (how : Collective) (active : List Nat) (t : Nat) : Prop where
  nodup : active.Nodup
  writes : t ∈ l.writers loops how active
  distinct : (out.toList.map fun e => l.cell? loops e t).Nodup
  others : ∀ s ∈ l.writers loops how active, s ≠ t → ∀ e ∈ out.toList, ∀ c,
    l.cell? loops e s = some c → ¬ l.Uses loops out x how active t c

/-- Conditions can be evaluated, contributions exist where they are read, and the cells of a result
exist where it is written. -/
structure Supplied (A : Arithmetic α) (l : Launch) (m : Machine α) (out : Moments Element)
    (x : WelfordInput) (how : Collective) (active : List Nat) : Prop where
  reads : ∀ t ∈ active, ∃ b, l.truth? m.loops how.reads t = some b ∧
    (b = true → (l.moments? A m x t).isSome)
  writes : ∀ t ∈ active, l.isFirst how.types t = true → ∃ b,
    l.truth? m.loops how.writes t = some b ∧ (b = true → (l.moments? A m (.held out) t).isSome)

/-- Moments that are held in three cells. -/
theorem moments?_held : l.moments? A m (.held out) t =
    out.mapM fun e => (l.cell? m.loops e t).bind m.get? :=
  rfl

/-- Three moments are read just if each of them is. -/
theorem mapM_eq_some {g : α → Option β} {y : Moments α} {z : Moments β} : y.mapM g = some z ↔
    g y.avg = some z.avg ∧ g y.varSum = some z.varSum ∧ g y.count = some z.count := by
  obtain ⟨a, v, n⟩ := z
  simp only [Moments.mapM, Option.bind_eq_bind, Option.bind_eq_some_iff, Option.pure_def,
    Option.some.injEq, Moments.mk.injEq]
  constructor
  · rintro ⟨a, ha, v, hv, n, hn, rfl, rfl, rfl⟩
    exact ⟨ha, hv, hn⟩
  · rintro ⟨ha, hv, hn⟩
    exact ⟨a, ha, v, hv, n, hn, rfl, rfl, rfl⟩

/-- Whether all three moments can be read. -/
theorem isSome_mapM {g : α → Option β} {y : Moments α} : (y.mapM g).isSome ↔
    ∀ z ∈ y.toList, (g z).isSome := by
  simp only [Option.isSome_iff_exists, mapM_eq_some, Moments.toList, List.mem_cons,
    List.not_mem_nil, or_false, forall_eq_or_imp, forall_eq]
  constructor
  · rintro ⟨z, ha, hv, hn⟩
    exact ⟨⟨_, ha⟩, ⟨_, hv⟩, ⟨_, hn⟩⟩
  · rintro ⟨⟨a, ha⟩, ⟨v, hv⟩, ⟨n, hn⟩⟩
    exact ⟨⟨a, v, n⟩, ha, hv, hn⟩

/-- Statistics stay the same as long as their cells do. -/
theorem moments?_congr {P : Cell → Prop} (h : m.AgreeOn P m')
    (hP : ∀ y ∈ x.operands, ∀ c, l.operandCell? m.loops y t = some c → P c) :
    l.moments? A m' x t = l.moments? A m x t := by
  have hvalue : ∀ y ∈ x.operands, l.value? A m' y t = l.value? A m y t := fun y hy =>
    value?_congr h.loops fun c hc => h.cells c (hP y hy c hc)
  cases x with
  | sample y => rw [moments?, moments?, hvalue y (List.mem_singleton_self y)]
  | moments y =>
      simp only [WelfordInput.operands, Moments.toList, List.mem_cons, List.not_mem_nil, or_false,
        forall_eq_or_imp, forall_eq] at hvalue
      simp only [moments?, Moments.mapM, hvalue]

/-- Whether moments can be read depends on which cells are there, and not on what they hold. -/
theorem isSome_moments?_congr (h : m.SameCells m') :
    (l.moments? A m' x t).isSome = (l.moments? A m x t).isSome := by
  cases x with
  | sample y => simp only [moments?, Option.isSome_map, isSome_value?_congr h]
  | moments y =>
      rw [Bool.eq_iff_iff]
      simp only [moments?, isSome_mapM, isSome_value?_congr h]

/-- Whether all inputs can be read depends on which cells are there. -/
theorem Supplied.congr (hs : l.Supplied A m out x how active) (h : m.SameCells m') :
    l.Supplied A m' out x how active := by
  constructor
  · simp only [h.loops, isSome_moments?_congr h]
    exact hs.reads
  · simp only [h.loops, isSome_moments?_congr h]
    exact hs.writes

end Launch

namespace Run

variable {u : Unit} {total : Moments α} {types : ParallelSet} {reads writes : Scalar}

/-! ## Reading and writing statistics -/

/-- Reading three moments is reading each of them. -/
theorem returns_mapM {f : Machine α → β → Option α} {g : β → Run α α}
    (hg : ∀ b n c n', Returns (g b) n c n' ↔ f n b = some c ∧ n = n') {y : Moments β}
    {z : Moments α} : Returns (y.mapM g) m z m' ↔ y.mapM (f m) = some z ∧ m = m' := by
  obtain ⟨a, v, n⟩ := z
  simp only [Moments.mapM, returns_bind, hg, returns_pure, Moments.mk.injEq, Option.bind_eq_bind,
    Option.bind_eq_some_iff, Option.pure_def, Option.some.injEq]
  constructor
  · rintro ⟨a, _, ⟨ha, rfl⟩, v, _, ⟨hv, rfl⟩, n, _, ⟨hn, rfl⟩, ⟨rfl, rfl, rfl⟩, rfl⟩
    exact ⟨⟨a, ha, v, hv, n, hn, rfl, rfl, rfl⟩, rfl⟩
  · rintro ⟨⟨a, ha, v, hv, n, hn, rfl, rfl, rfl⟩, rfl⟩
    exact ⟨a, m, ⟨ha, rfl⟩, v, m, ⟨hv, rfl⟩, n, m, ⟨hn, rfl⟩, ⟨rfl, rfl, rfl⟩, rfl⟩

/-- Taking in statistics changes nothing. -/
theorem returns_welfordInput {y : Moments α} :
    Returns (welfordInput A l x t) m y m' ↔ l.moments? A m x t = some y ∧ m = m' := by
  cases x with
  | moments x =>
      exact returns_mapM (f := fun n y => l.value? A n y t) fun y n c n' => returns_operand
  | sample x =>
      simp only [welfordInput, Launch.moments?, returns_bind, returns_operand, returns_pure,
        Option.map_eq_some_iff]
      constructor
      · rintro ⟨b, _, ⟨hb, rfl⟩, rfl, rfl⟩
        exact ⟨⟨b, hb, rfl⟩, rfl⟩
      · rintro ⟨⟨b, hb, rfl⟩, rfl⟩
        exact ⟨b, m, ⟨hb, rfl⟩, rfl, rfl⟩

/-- Loading moments reads them. -/
theorem returns_loadMoments {y : Moments α} :
    Returns (loadMoments l out t) m y m' ↔
      l.moments? A m (.held out) t = some y ∧ m = m' := by
  rw [Launch.moments?_held]
  refine returns_mapM (f := fun n e => (l.cell? n.loops e t).bind n.get?) fun e n c n' => ?_
  rw [returns_load, Option.bind_eq_some_iff]

/-- Writing statistics changes the three cells. -/
theorem returns_storeMoments {y : Moments α}
    (h : Returns (storeMoments A l out t y) m u m') :
    m.AgreeOn (fun c => ∀ e ∈ out.toList, l.cell? m.loops e t ≠ some c) m' ∧
      ((∀ d z, A.round d z = z) → (out.toList.map fun e => l.cell? m.loops e t).Nodup →
        l.moments? A m' (.held out) t = some y) := by
  simp only [storeMoments, returns_bind, returns_store] at h
  obtain ⟨_, _, ⟨ca, hca, hsa, rfl⟩, _, _, ⟨cv, hcv, hsv, rfl⟩, cn, hcn, hsn, rfl⟩ := h
  simp only [Machine.loops_set] at hcv hcn
  refine ⟨⟨by simp, fun c hc => ?_⟩, fun hround hdistinct => ?_⟩
  · simp only [Moments.toList, List.mem_cons, List.not_mem_nil, or_false, forall_eq_or_imp,
      forall_eq, hca, hcv, hcn, ne_eq, Option.some.injEq] at hc
    obtain ⟨ha, hv, hn⟩ := hc
    simp only [Machine.get?_set, if_neg (Ne.symm ha), if_neg (Ne.symm hv), if_neg (Ne.symm hn)]
  · simp only [Moments.toList, List.map_cons, List.map_nil, hca, hcv, hcn, List.nodup_cons,
      List.mem_cons, List.not_mem_nil, or_false, Option.some.injEq, not_or, not_false_eq_true,
      List.nodup_nil, and_true] at hdistinct
    obtain ⟨⟨hav, han⟩, hvn⟩ := hdistinct
    have hsome : ∀ {n : Machine α} {c d : Cell} {z : α}, (n.get? d).isSome →
        ((n.set c z).get? d).isSome := fun {n c d z} h => by
      rw [(Machine.sameCells_set n c z).isSome]
      exact h
    rw [Launch.moments?_held, Launch.mapM_eq_some]
    simp only [Machine.loops_set, hca, hcv, hcn, Option.bind_some, hround]
    obtain ⟨ya, hya⟩ := Option.isSome_iff_exists.1 hsa
    obtain ⟨yv, hyv⟩ := Option.isSome_iff_exists.1 hsv
    obtain ⟨yn, hyn⟩ := Option.isSome_iff_exists.1 hsn
    rw [hround] at hyv hyn
    rw [hround] at hyn
    refine ⟨?_, ?_, ?_⟩
    · rw [Machine.get?_set, if_neg han, Machine.get?_set, if_neg hav, Machine.get?_set, if_pos rfl,
        hya]
      rfl
    · rw [Machine.get?_set, if_neg hvn, Machine.get?_set, if_pos rfl, hyv]
      rfl
    · rw [Machine.get?_set, if_pos rfl, hyn]
      rfl

/-- Joins statistics with what a thread holds. -/
def update (A : Arithmetic α) (l : Launch) (out : Moments Element) (t : Nat) (total : Moments α) :
    Run α Unit := do
  storeMoments A l out t (A.combine (← loadMoments l out t) total)

/-- An update combines the moments that one thread holds with those that it takes in, and writes no
other cell. -/
theorem returns_update (h : Returns (update A l out t total) m u m') :
    m.AgreeOn (fun c => ∀ e ∈ out.toList, l.cell? m.loops e t ≠ some c) m' ∧
      ((∀ d z, A.round d z = z) → (out.toList.map fun e => l.cell? m.loops e t).Nodup →
        ∃ held, l.moments? A m (.held out) t = some held ∧
          l.moments? A m' (.held out) t = some (A.combine held total)) := by
  obtain ⟨held, m₁, hload, h⟩ := returns_bind.1 h
  obtain ⟨hheld, rfl⟩ := (returns_loadMoments (A := A)).1 hload
  obtain ⟨hagree, hvalue⟩ := returns_storeMoments h
  exact ⟨hagree, fun hround hdistinct => ⟨held, hheld, hvalue hround hdistinct⟩⟩

/-! ## One step -/

/-- Steps that each leave some cells alone leave them alone one after the other. -/
theorem forM_agree {P : Cell → Prop} {f : β → Run α Unit} {bs : List β}
    (hf : ∀ b ∈ bs, ∀ n n', n.loops = m.loops → Returns (f b) n () n' → n.AgreeOn P n')
    (h : Returns (bs.forM f) m u m') : m.AgreeOn P m' := by
  induction bs generalizing m with
  | nil =>
      obtain ⟨-, rfl⟩ := returns_pure.1 h
      exact .refl m
  | cons b bs ih =>
      obtain ⟨_, m₁, hone, h⟩ := returns_bind.1 h
      have hone := hf b List.mem_cons_self m m₁ rfl hone
      refine hone.trans (ih (fun c hc n n' hn => ?_) h)
      exact hf c (List.mem_cons_of_mem b hc) n n' (hn.trans hone.loops)

/-- Loops over two lists, one after the other. -/
theorem returns_forM_append {f : β → Run α Unit} {as bs : List β} :
    Returns ((as ++ bs).forM f) m u m' ↔
      ∃ m₁, Returns (as.forM f) m () m₁ ∧ Returns (bs.forM f) m₁ u m' := by
  change Returns (forM (as ++ bs) f) m u m' ↔ _
  rw [List.forM_append, returns_bind]
  exact ⟨fun ⟨_, m₁, h⟩ => ⟨m₁, h⟩, fun ⟨m₁, h⟩ => ⟨(), m₁, h⟩⟩

/-- In a sequence, one step finds the cells that the steps before and after it leave alone. -/
theorem forM_split {P : Cell → Prop} {f : β → Run α Unit} {bs : List β} {b : β} (hb : b ∈ bs)
    (hf : ∀ as cs, bs = as ++ b :: cs → ∀ c ∈ as ++ cs, ∀ n n', n.loops = m.loops →
      Returns (f c) n () n' → n.AgreeOn P n')
    (hone : ∀ n n', n.loops = m.loops → Returns (f b) n () n' → n'.loops = n.loops)
    (h : Returns (bs.forM f) m u m') :
    ∃ m₁ m₂, m.AgreeOn P m₁ ∧ Returns (f b) m₁ () m₂ ∧ m₂.AgreeOn P m' := by
  obtain ⟨as, cs, rfl⟩ := List.append_of_mem hb
  obtain ⟨m₁, hbefore, h⟩ := returns_forM_append.1 h
  obtain ⟨_, m₂, hstep, hafter⟩ := returns_bind.1 h
  have hagree := forM_agree (P := P) (fun c hc n n' hn =>
    hf as cs rfl c (List.mem_append_left cs hc) n n' hn) hbefore
  have hloops := (hone m₁ m₂ hagree.loops hstep).trans hagree.loops
  exact ⟨m₁, m₂, hagree, hstep, forM_agree (fun c hc n n' hn =>
    hf as cs rfl c (List.mem_append_right as hc) n n' (hn.trans hloops)) hafter⟩

/-- What a thread does alone. -/
def takeIn (A : Arithmetic α) (l : Launch) (out : Moments Element) (x : WelfordInput) (t : Nat) :
    Run α Unit := do
  let current ← loadMoments l out t
  storeMoments A l out t (A.combine current (← welfordInput A l x t))

/-- A thread takes in the moments of its input. -/
theorem returns_takeIn : Returns (takeIn A l out x t) m u m' ↔
    ∃ total, l.moments? A m x t = some total ∧ Returns (update A l out t total) m u m' := by
  simp only [takeIn, update, returns_bind, returns_loadMoments (A := A), returns_welfordInput]
  constructor
  · rintro ⟨held, _, ⟨hheld, rfl⟩, total, _, ⟨htotal, rfl⟩, h⟩
    exact ⟨total, htotal, held, m, ⟨hheld, rfl⟩, h⟩
  · rintro ⟨total, htotal, held, _, ⟨hheld, rfl⟩, h⟩
    exact ⟨held, m, ⟨hheld, rfl⟩, total, m, ⟨htotal, rfl⟩, h⟩

/-- The statistics of the threads of a segment, folded from zero. -/
def fold (A : Arithmetic α) (l : Launch) (x : WelfordInput) (reads : Scalar)
    (segment : List Nat) : Run α (Moments α) :=
  segment.foldlM (fun total t => do
    if ← holds l reads t then return A.combine total (← welfordInput A l x t)
    else return total) (⟨A.zero, A.zero, A.zero⟩ : Moments α)

/-- What the first thread of a segment does with the total. -/
def takeResult (A : Arithmetic α) (l : Launch) (out : Moments Element) (writes : Scalar)
    (total : Moments α) (t : Nat) : Run α Unit := do
  if ← holds l writes t then update A l out t total

/-- A thread takes the result in just if it is among the writers. -/
theorem returns_takeResult : Returns (takeResult A l out writes total t) m u m' ↔
    l.truth? m.loops writes t = some true ∧ Returns (update A l out t total) m u m' ∨
      l.truth? m.loops writes t = some false ∧ m = m' := by
  simp only [takeResult, returns_bind, returns_holds]
  constructor
  · rintro ⟨b, _, ⟨hb, rfl⟩, h⟩
    cases b with
    | true => exact .inl ⟨hb, h⟩
    | false => exact .inr ⟨hb, (returns_pure.1 h).2⟩
  · rintro (⟨hb, h⟩ | ⟨hb, rfl⟩)
    · exact ⟨true, m, ⟨hb, rfl⟩, h⟩
    · exact ⟨false, m, ⟨hb, rfl⟩, returns_pure.2 ⟨rfl, rfl⟩⟩

/-- What the threads of a segment do. -/
def welfordSegment (A : Arithmetic α) (l : Launch) (out : Moments Element) (x : WelfordInput)
    (types : ParallelSet) (reads writes : Scalar) (segment : List Nat) : Run α Unit := do
  let total ← fold A l x reads segment
  (segment.filter (l.isFirst types)).forM (takeResult A l out writes total)

/-- A Welford operation works on one segment of threads after another. -/
theorem welford_eq : welford A l out x types reads writes active =
    (l.segments types active).forM (welfordSegment A l out x types reads writes) :=
  rfl

/-- Folding a segment combines the inputs of the threads that read, in their order. -/
theorem returns_fold {segment : List Nat} (h : Returns (fold A l x reads segment) m total m') :
    m = m' ∧ total = ((segment.filter fun s => l.truth? m.loops reads s == some true).filterMap
      (l.moments? A m x)).foldl A.combine ⟨A.zero, A.zero, A.zero⟩ := by
  unfold fold at h
  generalize (⟨A.zero, A.zero, A.zero⟩ : Moments α) = a at h ⊢
  induction segment generalizing a with
  | nil =>
      obtain ⟨rfl, rfl⟩ := returns_pure.1 h
      exact ⟨rfl, rfl⟩
  | cons t segment ih =>
      rw [List.foldlM_cons] at h
      simp only [returns_bind, returns_holds] at h
      obtain ⟨b, m₁, ⟨holds, _, ⟨hholds, rfl⟩, hb⟩, h⟩ := h
      cases holds with
      | false =>
          obtain ⟨rfl, rfl⟩ := returns_pure.1 hb
          rw [List.filter_cons_of_neg (by simp [hholds])]
          exact ih _ h
      | true =>
          simp only [if_true, returns_bind, returns_welfordInput, returns_pure] at hb
          obtain ⟨y, _, ⟨hy, rfl⟩, rfl, rfl⟩ := hb
          rw [List.filter_cons_of_pos (by simp [hholds]), List.filterMap_cons_some hy]
          exact ih _ h

/-- In a serial operation every active thread writes. -/
theorem mem_writers_serial {loops : List (LoopId × Int)} :
    t ∈ l.writers loops .serial active ↔ t ∈ active := by
  simp only [Launch.writers, List.mem_filter, and_iff_left_iff_imp]
  intro
  rfl

/-- A thread joins a total with what it holds, which other threads leave alone. -/
theorem update_between (hround : ∀ d z, A.round d z = z)
    (hs : l.Separate m.loops out x how active t)
    (hbefore : m.AgreeOn (l.Uses m.loops out x how active t) m₁)
    (h : Returns (update A l out t total) m₁ u m₂)
    (hafter : m₂.AgreeOn (l.Uses m.loops out x how active t) m') :
    ∃ held, l.moments? A m (.held out) t = some held ∧
      l.moments? A m' (.held out) t = some (A.combine held total) := by
  have hown : ∀ y ∈ (WelfordInput.held out).operands, ∀ c,
      l.operandCell? m.loops y t = some c → l.Uses m.loops out x how active t c := by
    intro y hy c hc
    obtain ⟨e, he, rfl⟩ : ∃ e ∈ out.toList, Kernel.Operand.element e = y := by
      simpa [WelfordInput.held, WelfordInput.operands, Moments.map, Moments.toList, eq_comm]
        using hy
    exact .own e he hc
  obtain ⟨hagree, hvalue⟩ := returns_update h
  obtain ⟨held, hheld, hjoined⟩ := hvalue hround (hbefore.loops ▸ hs.distinct)
  refine ⟨held, (Launch.moments?_congr hbefore hown).symm.trans hheld, ?_⟩
  rw [Launch.moments?_congr hafter (by rwa [hagree.loops, hbefore.loops])]
  exact hjoined

/-- Threads that work alone leave what matters to another thread alone. -/
theorem takeIn_agree (hs : l.Separate m.loops out x .serial active t) {s : Nat} (hmem : s ∈ active)
    (hne : s ≠ t) {n n' : Machine α} (hn : n.loops = m.loops)
    (h : Returns (takeIn A l out x s) n u n') :
    n.AgreeOn (l.Uses m.loops out x .serial active t) n' := by
  obtain ⟨total, -, h⟩ := returns_takeIn.1 h
  refine (returns_update h).1.mono fun c hc e he hcell => ?_
  exact hs.others s (mem_writers_serial.2 hmem) hne e he c (hn ▸ hcell) hc

/-- A thread that works alone joins what it takes in with what it holds. -/
theorem welford_serial (hround : ∀ d z, A.round d z = z)
    (hs : l.Separate m.loops out x .serial active t)
    (h : Returns (execOp A l (.welford out x .serial) active) m u m') :
    ∃ held total, l.moments? A m (.held out) t = some held ∧ l.moments? A m x t = some total ∧
      l.moments? A m' (.held out) t = some (A.combine held total) := by
  have hothers : ∀ as cs, active = as ++ t :: cs → ∀ c ∈ as ++ cs, ∀ n n', n.loops = m.loops →
      Returns (takeIn A l out x c) n () n' →
      n.AgreeOn (l.Uses m.loops out x .serial active t) n' := by
    intro as cs hsplit c hc n n' hn h
    have hnodup := hsplit ▸ hs.nodup
    rw [List.nodup_middle, List.nodup_cons] at hnodup
    have hmem : c ∈ active := hsplit ▸ (List.perm_middle.symm.subset (List.mem_cons_of_mem t hc))
    exact takeIn_agree hs hmem (fun heq => hnodup.1 (heq ▸ hc)) hn h
  have hloops : ∀ n n', n.loops = m.loops → Returns (takeIn A l out x t) n () n' →
      n'.loops = n.loops := by
    intro n n' _ h
    obtain ⟨total, -, h⟩ := returns_takeIn.1 h
    exact (returns_update h).1.loops
  obtain ⟨m₁, m₂, hbefore, hstep, hafter⟩ :=
    forM_split (mem_writers_serial.1 hs.writes) hothers hloops h
  obtain ⟨total, htotal, hupdate⟩ := returns_takeIn.1 hstep
  obtain ⟨held, hheld, hjoined⟩ := update_between hround hs hbefore hupdate hafter
  refine ⟨held, total, hheld, ?_, hjoined⟩
  rw [← htotal]
  exact (Launch.moments?_congr hbefore fun y hy c hc =>
    .reads t (List.mem_singleton_self t) y hy hc).symm

/-- Taking a result in enters no loop. -/
theorem loops_takeResult (h : Returns (takeResult A l out writes total t) m u m') :
    m'.loops = m.loops := by
  obtain ⟨-, h⟩ | ⟨-, rfl⟩ := returns_takeResult.1 h
  · exact (returns_update h).1.loops
  · rfl

/-- Working on a segment enters no loop. -/
theorem loops_welfordSegment {segment : List Nat}
    (h : Returns (welfordSegment A l out x types reads writes segment) m u m') :
    m'.loops = m.loops := by
  obtain ⟨total, m₁, hfold, h⟩ := returns_bind.1 h
  obtain ⟨rfl, -⟩ := returns_fold hfold
  exact (forM_agree (P := fun _ => False)
    (fun s _ n n' _ h => ⟨loops_takeResult h, fun _ hc => hc.elim⟩) h).loops

section Across

variable {scope : Scope}
  (hs : l.Separate m.loops out x (.across scope types reads writes) active t)

include hs

/-- Other threads leave what matters to a thread alone. -/
theorem takeResult_agree {s : Nat} (hmem : s ∈ active) (hfirst : l.isFirst types s = true)
    (hne : s ≠ t) {n n' : Machine α} (hn : n.loops = m.loops)
    (h : Returns (takeResult A l out writes total s) n u n') :
    n.AgreeOn (l.Uses m.loops out x (.across scope types reads writes) active t) n' := by
  obtain ⟨hwrites, h⟩ | ⟨-, rfl⟩ := returns_takeResult.1 h
  · refine (returns_update h).1.mono fun c hc e he hcell => ?_
    refine hs.others s (List.mem_filter.2 ⟨hmem, ?_⟩) hne e he c (hn ▸ hcell) hc
    rw [hn] at hwrites
    simp [Collective.types, Collective.writes, hfirst, hwrites]
  · exact .refl n

/-- What other threads of a segment write is not used by this one. -/
theorem takeResults_agree {ts : List Nat}
    (hts : ∀ s ∈ ts, s ∈ active ∧ l.isFirst types s = true ∧ s ≠ t) {n n' : Machine α}
    (hn : n.loops = m.loops) (h : Returns (ts.forM (takeResult A l out writes total)) n u n') :
    n.AgreeOn (l.Uses m.loops out x (.across scope types reads writes) active t) n' :=
  forM_agree (fun s hmem _ _ hn' h =>
    takeResult_agree hs (hts s hmem).1 (hts s hmem).2.1 (hts s hmem).2.2 (hn'.trans hn) h) h

/-- In its own segment, a thread takes the total of the segment. -/
theorem welfordSegment_moments (hround : ∀ d z, A.round d z = z) {segment : List Nat}
    (hsegment : segment = l.peers types active t) (ht : t ∈ segment) {n n' : Machine α}
    (hbefore : m.AgreeOn (l.Uses m.loops out x (.across scope types reads writes) active t) n)
    (h : Returns (welfordSegment A l out x types reads writes segment) n u n')
    (hafter : n'.AgreeOn (l.Uses m.loops out x (.across scope types reads writes) active t) m') :
    ∃ held, l.moments? A m (.held out) t = some held ∧ l.moments? A m' (.held out) t =
      some (A.combine held (((l.readers m.loops (.across scope types reads writes) active
        t).filterMap (l.moments? A m x)).foldl A.combine ⟨A.zero, A.zero, A.zero⟩)) := by
  obtain ⟨total, n₁, hfold, h⟩ := returns_bind.1 h
  obtain ⟨rfl, htotal⟩ := returns_fold hfold
  obtain ⟨-, htwrites⟩ := List.mem_filter.1 hs.writes
  simp only [Collective.types, Collective.writes, Bool.and_eq_true, beq_iff_eq] at htwrites
  -- what the segment contributes was not written by the segments before it
  have hcontributions : (segment.filter fun s => l.truth? n.loops reads s == some true).filterMap
      (l.moments? A n x) = (l.readers m.loops (.across scope types reads writes) active
        t).filterMap (l.moments? A m x) := by
    rw [hsegment, hbefore.loops]
    exact List.filterMap_congr fun s hmem =>
      Launch.moments?_congr hbefore fun y hy c hc => .reads s hmem y hy hc
  rw [hcontributions] at htotal
  have hnodup : (segment.filter (l.isFirst types)).Nodup :=
    (hsegment ▸ hs.nodup.filter _ : segment.Nodup).filter _
  obtain ⟨as, cs, hsplit⟩ :=
    List.append_of_mem (List.mem_filter.2 ⟨ht, htwrites.1⟩)
  rw [hsplit] at h hnodup
  rw [List.nodup_middle, List.nodup_cons] at hnodup
  have hothers : ∀ s ∈ as ++ cs, s ∈ active ∧ l.isFirst types s = true ∧ s ≠ t := by
    intro s hmem
    have hall : s ∈ segment.filter (l.isFirst types) :=
      hsplit ▸ List.perm_middle.symm.subset (List.mem_cons_of_mem t hmem)
    obtain ⟨hall, hfirst⟩ := List.mem_filter.1 hall
    exact ⟨(List.mem_filter.1 (hsegment ▸ hall)).1, hfirst, fun heq => hnodup.1 (heq ▸ hmem)⟩
  obtain ⟨m₁, has, h⟩ := returns_forM_append.1 h
  obtain ⟨_, m₂, hone, hcs⟩ := returns_bind.1 h
  have hagree₁ := hbefore.trans (takeResults_agree hs
    (fun s hmem => hothers s (List.mem_append_left cs hmem)) hbefore.loops has)
  have hloops₂ := (loops_takeResult hone).trans hagree₁.loops
  have hagree₂ := (takeResults_agree hs
    (fun s hmem => hothers s (List.mem_append_right as hmem)) hloops₂ hcs).trans hafter
  obtain ⟨-, hupdate⟩ | ⟨hfalse, -⟩ := returns_takeResult.1 hone
  · exact htotal ▸ update_between hround hs hagree₁ hupdate hagree₂
  · rw [hagree₁.loops, htwrites.2] at hfalse
    cases hfalse

/-- The first thread of a segment joins the contributions of the segment with what it holds. -/
theorem welford_across (hround : ∀ d z, A.round d z = z)
    (h : Returns (welford A l out x types reads writes active) m u m') :
    ∃ held, l.moments? A m (.held out) t = some held ∧ l.moments? A m' (.held out) t =
      some (A.combine held (((l.readers m.loops (.across scope types reads writes) active
        t).filterMap (l.moments? A m x)).foldl A.combine ⟨A.zero, A.zero, A.zero⟩)) := by
  rw [welford_eq] at h
  have hperm := l.flatten_segments_perm types active
  obtain ⟨segment, hsegment, ht⟩ :=
    List.mem_flatten.1 (hperm.mem_iff.2 (List.mem_filter.1 hs.writes).1)
  have hnodup := hperm.nodup_iff.2 hs.nodup
  have hothers : ∀ as cs, l.segments types active = as ++ segment :: cs → ∀ other ∈ as ++ cs,
      ∀ n n', n.loops = m.loops →
        Returns (welfordSegment A l out x types reads writes other) n () n' →
        n.AgreeOn (l.Uses m.loops out x (.across scope types reads writes) active t) n' := by
    intro as cs hsplit other hother n n' hn h
    obtain ⟨total, n₁, hfold, h⟩ := returns_bind.1 h
    obtain ⟨rfl, -⟩ := returns_fold hfold
    refine takeResults_agree hs (fun s hmem => ?_) hn h
    obtain ⟨hmem, hfirst⟩ := List.mem_filter.1 hmem
    refine ⟨hperm.mem_iff.1 (List.mem_flatten.2 ⟨other, hsplit ▸ ?_, hmem⟩), hfirst, ?_⟩
    · exact List.perm_middle.symm.subset (List.mem_cons_of_mem segment hother)
    · -- the segments have no thread in common
      rintro rfl
      rw [hsplit, (List.perm_middle.flatten).nodup_iff, List.flatten_cons, List.nodup_append]
        at hnodup
      exact hnodup.2.2 s ht s (List.mem_flatten.2 ⟨other, hother, hmem⟩) rfl
  obtain ⟨m₁, m₂, hbefore, hstep, hafter⟩ := forM_split hsegment hothers
    (fun n n' _ h => loops_welfordSegment h) h
  exact welfordSegment_moments hs hround (Launch.eq_peers hsegment ht) ht hbefore hstep hafter

end Across

/-! ## A step succeeds -/

/-- A cell that is there can be written. -/
theorem store_returns {e : Element} (y : α)
    (h : ((l.cell? m.loops e t).bind m.get?).isSome) :
    ∃ m', Returns (store A l e t y) m () m' ∧ m.SameCells m' := by
  obtain ⟨z, hz⟩ := Option.isSome_iff_exists.1 h
  obtain ⟨c, hc, hz⟩ := Option.bind_eq_some_iff.1 hz
  exact ⟨_, returns_store.2 ⟨c, hc, Option.isSome_of_eq_some hz, rfl⟩, Machine.sameCells_set m c _⟩

/-- Moments that are there can be updated. -/
theorem update_returns (total : Moments α) (h : (l.moments? A m (.held out) t).isSome) :
    ∃ m', Returns (update A l out t total) m () m' ∧ m.SameCells m' := by
  obtain ⟨held, hheld⟩ := Option.isSome_iff_exists.1 h
  have hcells : ∀ n, m.SameCells n → ∀ e ∈ out.toList,
      ((l.cell? n.loops e t).bind n.get?).isSome := by
    intro n hn
    rw [← Launch.isSome_mapM, ← Launch.moments?_held (A := A), Launch.isSome_moments?_congr hn]
    exact h
  obtain ⟨m₁, havg, hsame₁⟩ := store_returns (A := A) (A.combine held total).avg
    (hcells m (.refl m) out.avg (by simp [Moments.toList]))
  obtain ⟨m₂, hvar, hsame₂⟩ := store_returns (A := A) (A.combine held total).varSum
    (hcells m₁ hsame₁ out.varSum (by simp [Moments.toList]))
  obtain ⟨m₃, hcount, hsame₃⟩ := store_returns (A := A) (A.combine held total).count
    (hcells m₂ (hsame₁.trans hsame₂) out.count (by simp [Moments.toList]))
  refine ⟨m₃, returns_bind.2 ⟨held, m, (returns_loadMoments (A := A)).2 ⟨hheld, rfl⟩, ?_⟩,
    (hsame₁.trans hsame₂).trans hsame₃⟩
  exact returns_bind.2 ⟨(), m₁, havg, returns_bind.2 ⟨(), m₂, hvar, hcount⟩⟩

/-- A thread whose predicate has a value can take the result in, or leave it. -/
theorem takeResult_returns (total : Moments α)
    (hw : ∃ b, l.truth? m.loops writes t = some b ∧
      (b = true → (l.moments? A m (.held out) t).isSome)) :
    ∃ m', Returns (takeResult A l out writes total t) m () m' ∧ m.SameCells m' := by
  obtain ⟨b, hb, hheld⟩ := hw
  cases b with
  | false => exact ⟨m, returns_takeResult.2 (.inr ⟨hb, rfl⟩), .refl m⟩
  | true =>
      obtain ⟨m', hupdate, hsame⟩ := update_returns total (hheld rfl)
      exact ⟨m', returns_takeResult.2 (.inl ⟨hb, hupdate⟩), hsame⟩

/-- A segment of threads whose predicates have values can be folded. -/
theorem fold_returns {segment : List Nat}
    (hr : ∀ t ∈ segment, ∃ b, l.truth? m.loops reads t = some b ∧
      (b = true → (l.moments? A m x t).isSome)) :
    ∃ total, Returns (fold A l x reads segment) m total m := by
  unfold fold
  generalize (⟨A.zero, A.zero, A.zero⟩ : Moments α) = a
  induction segment generalizing a with
  | nil => exact ⟨a, returns_pure.2 ⟨rfl, rfl⟩⟩
  | cons t segment ih =>
      rw [List.foldlM_cons]
      obtain ⟨b, hb, hy⟩ := hr t List.mem_cons_self
      have hrest := fun a => ih (fun s hs => hr s (List.mem_cons_of_mem t hs)) a
      cases b with
      | false =>
          obtain ⟨total, htotal⟩ := hrest a
          refine ⟨total, returns_bind.2 ⟨a, m, ?_, htotal⟩⟩
          exact returns_bind.2 ⟨false, m, returns_holds.2 ⟨hb, rfl⟩, returns_pure.2 ⟨rfl, rfl⟩⟩
      | true =>
          obtain ⟨y, hy⟩ := Option.isSome_iff_exists.1 (hy rfl)
          obtain ⟨total, htotal⟩ := hrest (A.combine a y)
          refine ⟨total, returns_bind.2 ⟨_, m, ?_, htotal⟩⟩
          refine returns_bind.2 ⟨true, m, returns_holds.2 ⟨hb, rfl⟩, ?_⟩
          exact returns_bind.2 ⟨y, m, returns_welfordInput.2 ⟨hy, rfl⟩, returns_pure.2 ⟨rfl, rfl⟩⟩

/-- A step fails for what its threads lack only. -/
theorem welford_returns (hs : l.Supplied A m out x how active) :
    ∃ m', Returns (execOp A l (.welford out x how) active) m () m' ∧ m.SameCells m' := by
  cases how with
  | serial =>
      refine forM_returns fun t ht n hn => ?_
      have hs := hs.congr hn
      obtain ⟨b, hb, htakes⟩ := hs.reads t ht
      obtain ⟨b', hb', hheld⟩ := hs.writes t ht rfl
      cases hb
      cases hb'
      obtain ⟨total, htotal⟩ := Option.isSome_iff_exists.1 (htakes rfl)
      obtain ⟨n', hupdate, hsame⟩ := update_returns total (hheld rfl)
      exact ⟨n', returns_takeIn.2 ⟨total, htotal, hupdate⟩, hsame⟩
  | across scope types reads writes =>
      refine forM_returns fun segment hsegment n hn => ?_
      have hs := hs.congr hn
      have hmem : ∀ t ∈ segment, t ∈ active := fun t ht =>
        (l.flatten_segments_perm types active).mem_iff.1
          (List.mem_flatten.2 ⟨segment, hsegment, ht⟩)
      obtain ⟨total, htotal⟩ := fold_returns fun t ht => hs.reads t (hmem t ht)
      have htake : ∀ t ∈ segment.filter (l.isFirst types), ∀ n₁, n.SameCells n₁ →
          ∃ n', Returns (takeResult A l out writes total t) n₁ () n' ∧ n₁.SameCells n' := by
        intro t ht n₁ hn₁
        obtain ⟨ht, hfirst⟩ := List.mem_filter.1 ht
        exact takeResult_returns total ((hs.congr hn₁).writes t (hmem t ht) hfirst)
      obtain ⟨n', hresults, hsame⟩ := forM_returns htake
      exact ⟨n', returns_bind.2 ⟨total, n, htotal, hresults⟩, hsame⟩

/-! ## Any number of steps -/

/-- What a thread takes in stands for some samples, as the executed steps say: a sample for itself,
three zeros for none, and the cells of a thread after a step for what they stood for before and what
its contributors took in.  Wherever the same three values are found, at a later moment, from another
thread or in other cells, they stand for the same samples. -/
inductive Gathered (A : Arithmetic ℚ) (l : Launch) : Machine ℚ → WelfordInput → Nat → List ℚ → Prop
    where
  | sample {m : Machine ℚ} {y : Kernel.Operand} {t : Nat} {q : ℚ} (h : l.value? A m y t = some q) :
      Gathered A l m (.sample y) t [q]
  | start {m : Machine ℚ} {x : WelfordInput} {t : Nat}
      (h : l.moments? A m x t = some ⟨A.zero, A.zero, A.zero⟩) : Gathered A l m x t []
  | step {m m' : Machine ℚ} {out : Moments Element} {x : WelfordInput} {how : Collective}
      {active : List Nat} {t : Nat} {xs : List ℚ} {ys : Nat → List ℚ} {u : Unit}
      (hheld : Gathered A l m (.held out) t xs)
      (htaken : ∀ s ∈ l.readers m.loops how active t, Gathered A l m x s (ys s))
      (hs : l.Separate m.loops out x how active t)
      (hstep : Returns (execOp A l (.welford out x how) active) m u m') :
      Gathered A l m' (.held out) t (xs ++ (l.readers m.loops how active t).flatMap ys)
  | found {m m' : Machine ℚ} {x x' : WelfordInput} {t t' : Nat} {xs : List ℚ}
      (hgathered : Gathered A l m x t xs)
      (hsame : l.moments? A m' x' t' = l.moments? A m x t) : Gathered A l m' x' t' xs

section Rationals

variable {A : Arithmetic ℚ} {m m' : Machine ℚ} {xs : List ℚ}

/-- Gathered statistics are those of the samples that they stand for. -/
theorem Gathered.moments?_eq (hA : A.ExactStatistics) (h : Gathered A l m x t xs) :
    l.moments? A m x t = some (.ofSamples xs) := by
  have hzero : (⟨A.zero, A.zero, A.zero⟩ : Moments ℚ) = .ofSamples [] := by
    rw [hA.zero]
    rfl
  induction h with
  | sample h => rw [Launch.moments?, h, Option.map_some, hA.sample, Moments.ofSamples_singleton]
  | start h => rw [h, hzero]
  | found _ hsame ih => rw [hsame, ih]
  | @step m m' out x how active t xs ys u _ _ hs hstep ihheld ihtaken =>
      cases how with
      | serial =>
          obtain ⟨held, total, hheld, htotal, hjoined⟩ := welford_serial hA.round hs hstep
          cases hheld.symm.trans ihheld
          cases htotal.symm.trans (ihtaken t (List.mem_singleton_self t))
          rw [hjoined, hA.combine, Moments.combine_ofSamples]
          simp [Launch.readers]
      | across scope types reads writes =>
          obtain ⟨held, hheld, hjoined⟩ := welford_across hs hA.round hstep
          cases hheld.symm.trans ihheld
          have htaken : (l.readers m.loops (.across scope types reads writes) active t).filterMap
              (l.moments? A m x) = (l.readers m.loops (.across scope types reads writes) active
                t).map fun s => .ofSamples (ys s) := by
            rw [← List.filterMap_eq_map]
            exact List.filterMap_congr ihtaken
          rw [hjoined, htaken, hzero, hA.combine, Moments.foldl_combine_ofSamples,
            Moments.combine_ofSamples, List.nil_append]

/-- Statistics are exact over the rational numbers, whatever the grouping: joining the statistics of
two lists gives those of the lists together, gathered statistics are those of all samples, and one
more step whose threads find what they read and write succeeds and leaves the statistics of what was
gathered before and what was taken in. -/
theorem statistics_exact (hA : A.ExactStatistics) :
    (∀ xs ys : List ℚ, A.combine (.ofSamples xs) (.ofSamples ys) = .ofSamples (xs ++ ys)) ∧
    (∀ (l : Launch) (m : Machine ℚ) (x : WelfordInput) (t : Nat) (xs : List ℚ),
      Gathered A l m x t xs → l.moments? A m x t = some (.ofSamples xs)) ∧
    ∀ (l : Launch) (m : Machine ℚ) (out : Moments Element) (x : WelfordInput) (how : Collective)
      (active : List Nat) (t : Nat) (xs : List ℚ) (ys : Nat → List ℚ),
      Gathered A l m (.held out) t xs →
      (∀ s ∈ l.readers m.loops how active t, Gathered A l m x s (ys s)) →
      l.Separate m.loops out x how active t → l.Supplied A m out x how active →
      ∃ m', Returns (execOp A l (.welford out x how) active) m () m' ∧
        l.moments? A m' (.held out) t =
          some (.ofSamples (xs ++ (l.readers m.loops how active t).flatMap ys)) := by
  refine ⟨fun xs ys => hA.combine ▸ Moments.combine_ofSamples xs ys,
    fun l m x t xs h => h.moments?_eq hA,
    fun l m out x how active t xs ys hheld htaken hs hsupplied => ?_⟩
  obtain ⟨m', hstep, -⟩ := welford_returns hsupplied
  exact ⟨m', hstep, (hheld.step htaken hs hstep).moments?_eq hA⟩

/-! ### Four threads -/

/-- Four threads of a block, each with an element of the first buffer, and three cells for their
statistics. -/
def fourSampled : Launch where
  dims := { sizes := [1, 1, 1, 4, 1, 1] }
  tensors := [⟨⟨0⟩, 0, .double, [4], [1]⟩, ⟨⟨1⟩, 1, .double, [], []⟩,
    ⟨⟨2⟩, 2, .double, [], []⟩, ⟨⟨3⟩, 3, .int64, [], []⟩]
  scalars := []
  allocations := []

def oneToFourSampled : Machine ℚ where
  buffers := #[#[1, 2, 3, 4], #[0], #[0], #[0]]
  registers := #[[], [], [], []]
  shared := #[[]]

def ownSample : WelfordInput :=
  .sample (.element ⟨⟨0⟩, .double, .launchIndex .threadX⟩)

def blockMoments : Moments Element :=
  ⟨⟨⟨1⟩, .double, .zero⟩, ⟨⟨2⟩, .double, .zero⟩, ⟨⟨3⟩, .int64, .zero⟩⟩

/-- All threads but the last one contribute. -/
def threeOfFour : Collective :=
  .across .block ⟨[.threadX]⟩ (.binary .lt (.launchIndex .threadX) (.int 3)) (.bool true)

/-- Three of four threads read. -/
theorem readers_threeOfFour :
    fourSampled.readers oneToFourSampled.loops threeOfFour [0, 1, 2, 3] 0 = [0, 1, 2] := by
  decide +kernel

/-- The four threads use cells of their own. -/
theorem separate_threeOfFour : fourSampled.Separate oneToFourSampled.loops blockMoments ownSample
    threeOfFour [0, 1, 2, 3] 0 where
  nodup := by decide
  writes := by decide +kernel
  distinct := by decide +kernel
  others := by
    intro s hs hne
    have honly : ∀ s ∈ fourSampled.writers oneToFourSampled.loops threeOfFour [0, 1, 2, 3],
        s = 0 := by
      decide +kernel
    exact absurd (honly s hs) hne

/-- All inputs of the four threads can be read. -/
theorem supplied_threeOfFour : fourSampled.Supplied .rationals oneToFourSampled blockMoments
    ownSample threeOfFour [0, 1, 2, 3] where
  reads := by
    intro t ht
    fin_cases ht
    exacts [⟨true, rfl, fun _ => rfl⟩, ⟨true, rfl, fun _ => rfl⟩, ⟨true, rfl, fun _ => rfl⟩,
      ⟨false, rfl, fun h => by cases h⟩]
  writes := by
    intro t ht _
    refine ⟨true, rfl, fun _ => ?_⟩
    fin_cases ht <;> rfl

/-- Three of four threads gather the mean, the squared deviations and the count of what they
hold. -/
theorem threeOfFour_statistics : Arithmetic.rationals.ExactStatistics ∧
    ∃ m', Returns (execOp .rationals fourSampled (.welford blockMoments ownSample threeOfFour)
        [0, 1, 2, 3]) oneToFourSampled () m' ∧
      fourSampled.moments? .rationals m' (.held blockMoments) 0 = some ⟨2, 2, 3⟩ := by
  have htaken : ∀ s ∈ fourSampled.readers oneToFourSampled.loops threeOfFour [0, 1, 2, 3] 0,
      Gathered .rationals fourSampled oneToFourSampled ownSample s [[1, 2, 3, 4].getD s 0] := by
    rw [readers_threeOfFour]
    intro s hs
    refine .sample ?_
    fin_cases hs <;> rfl
  obtain ⟨m', hstep, hmoments⟩ := (statistics_exact Arithmetic.exactStatistics_rationals).2.2
    fourSampled oneToFourSampled blockMoments ownSample threeOfFour [0, 1, 2, 3] 0 [] _
    (.start rfl) htaken separate_threeOfFour supplied_threeOfFour
  refine ⟨Arithmetic.exactStatistics_rationals, m', hstep, hmoments.trans ?_⟩
  rw [readers_threeOfFour]
  norm_num [Moments.ofSamples, Moments.mean, Moments.deviations, List.cons_ne_nil]

end Rationals

end Run

end Kernel
end FusionCompiler
