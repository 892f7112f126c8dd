import Mathlib
import FusionCompiler.Proofs.Integers
import FusionCompiler.Proofs.Kernel.Cells

/-!
# Reductions across threads

Threads that cooperate along launch types are grouped in segments.  The
contributions of a segment are folded in thread order from the initial value, and
the first thread joins the result with what its cell holds.

The cell holds the initial value already when a reduction starts, and it enters
again with every round.  So cooperating threads leave what a single thread leaves
that takes in the same operands in the same order, as long as the operator
combines the initial value with itself to itself again.

Main results:

- Theorem `Kernel.Launch.eq_peers`: a segment has the threads that agree with one
  of them, in thread order.
- Theorem `Kernel.Run.reduce_cell`: what one round leaves in the cell of a first
  thread.
- Theorem `Kernel.Run.reduce_returns`: a round succeeds if its threads find what they
  read and write.
- Theorem `Kernel.Run.rounds_eq_serial`: what an initialization and any number of
  rounds leave there.
-/

namespace FusionCompiler
namespace Kernel

/-! ## Segments -/

/-- Groups of equal keys of a list that is sorted by keys have all elements of their key. -/
theorem eq_filter_of_mem_splitBy {β : Type} {k : β → Nat} {l g : List β} {x : β}
    (hl : l.Pairwise fun a b => k a ≤ k b) (hg : g ∈ l.splitBy fun a b => k a == k b)
    (hx : x ∈ g) : g = l.filter fun a => k a == k x := by
  have hflat := List.flatten_splitBy (fun a b => k a == k b) l
  have hsame : ∀ h ∈ l.splitBy (fun a b => k a == k b), ∀ a ∈ h, ∀ b ∈ h, k a = k b := by
    intro h hh
    have hchain : h.IsChain fun a b => k a = k b :=
      (List.isChain_of_mem_splitBy hh).imp fun a b hab => eq_of_beq hab
    have : Trans (fun a b : β => k a = k b) (fun a b => k a = k b) (fun a b => k a = k b) :=
      ⟨Eq.trans⟩
    have : Std.Symm fun a b : β => k a = k b := ⟨fun _ _ => Eq.symm⟩
    exact fun a ha b hb => List.Pairwise.forall_of_forall (R := fun a b => k a = k b)
      (fun _ _ => rfl) hchain.pairwise ha hb
  have hchange := List.isChain_getLast_head_splitBy (fun a b => k a == k b) l
  generalize l.splitBy (fun a b => k a == k b) = gs at hg hflat hsame hchange
  subst hflat
  induction gs with
  | nil => cases hg
  | cons h gs ih =>
      rw [List.flatten_cons, List.pairwise_append] at hl
      rw [List.flatten_cons, List.filter_append]
      -- the keys behind a group are greater
      have hlater : ∀ a ∈ h, ∀ b ∈ gs.flatten, k a < k b := by
        intro a ha b hb
        cases gs with
        | nil => cases hb
        | cons h' gs =>
            obtain ⟨⟨hne, hne', hdiffer⟩, -⟩ := List.isChain_cons_cons.1 hchange
            have hlast : k a = k (h.getLast hne) :=
              hsame h List.mem_cons_self a ha _ (List.getLast_mem hne)
            have hle : k (h.getLast hne) ≤ k (h'.head hne') :=
              hl.2.2 _ (List.getLast_mem hne) _
                (List.mem_append_left _ (List.head_mem hne'))
            have hlt : k a < k (h'.head hne') := by
              rw [hlast]
              exact lt_of_le_of_ne hle (by simpa using hdiffer)
            refine lt_of_lt_of_le hlt ?_
            rcases List.mem_append.1 hb with hb | hb
            · exact le_of_eq (hsame h' (by simp) _ (List.head_mem hne') b hb)
            · exact (List.pairwise_append.1 hl.2.1).2.2 _ (List.head_mem hne') b hb
      rcases List.mem_cons.1 hg with rfl | hg
      · have hall : g.filter (fun a => k a == k x) = g :=
          List.filter_eq_self.2 fun a ha => by
            simpa using hsame g List.mem_cons_self a ha x hx
        have hnone : gs.flatten.filter (fun a => k a == k x) = [] :=
          List.filter_eq_nil_iff.2 fun b hb => by
            simpa using (hlater x hx b hb).ne'
        rw [hall, hnone, List.append_nil]
      · have hnone : h.filter (fun a => k a == k x) = [] :=
          List.filter_eq_nil_iff.2 fun a ha => by
            simpa using (hlater a ha x (List.mem_flatten.2 ⟨g, hg, hx⟩)).ne
        rw [hnone, List.nil_append]
        exact ih hg (fun h' hh' => hsame h' (List.mem_cons_of_mem h hh'))
          (List.isChain_cons.1 hchange).2 hl.2.1

namespace Launch

variable {l : Launch} {types : ParallelSet} {active segment : List Nat} {t : Nat}

/-- The threads of the segment of a thread, in thread order. -/
def peers (l : Launch) (types : ParallelSet) (active : List Nat) (t : Nat) : List Nat :=
  active.filter fun s => l.segmentKey (slots types) s == l.segmentKey (slots types) t

/-- Every thread is in one segment. -/
theorem flatten_segments_perm (l : Launch) (types : ParallelSet) (active : List Nat) :
    (l.segments types active).flatten.Perm active := by
  unfold segments
  rw [← List.map_flatten, List.flatten_splitBy]
  refine ((List.mergeSort_perm _ _).map _).trans ?_
  rw [List.map_map]
  exact List.Perm.of_eq (List.map_id _)

/-- Sorting by keys keeps the order of what has one key. -/
theorem filter_mergeSort (l : List (Nat × Nat)) (key : Nat) :
    (l.mergeSort fun a b => a.1 ≤ b.1).filter (·.1 == key) = l.filter (·.1 == key) := by
  have hsub : (l.filter (·.1 == key)).Sublist (l.mergeSort fun a b => a.1 ≤ b.1) := by
    refine List.sublist_mergeSort (fun a b c hab hbc => by simp at *; omega)
      (fun a b => by simp; omega) ?_ List.filter_sublist
    refine List.pairwise_of_forall_mem_list fun a ha b hb => ?_
    have hka := (List.mem_filter.1 ha).2
    have hkb := (List.mem_filter.1 hb).2
    simp only [beq_iff_eq] at hka hkb
    simp [hka, hkb]
  have hfilter := hsub.filter (·.1 == key)
  rw [List.filter_filter] at hfilter
  simp only [Bool.and_self] at hfilter
  have hperm := (List.mergeSort_perm l fun a b => a.1 ≤ b.1).filter (·.1 == key)
  exact (hfilter.eq_of_length hperm.length_eq.symm).symm

/-- A segment has the threads that agree with one of them, in thread order. -/
theorem eq_peers (hsegment : segment ∈ l.segments types active) (ht : t ∈ segment) :
    segment = l.peers types active t := by
  obtain ⟨group, hgroup, rfl⟩ := List.mem_map.1 hsegment
  obtain ⟨⟨key, s⟩, hp, rfl⟩ := List.mem_map.1 ht
  have hsorted : ((active.map fun t => (l.segmentKey (slots types) t, t)).mergeSort
      fun a b => a.1 ≤ b.1).Pairwise fun a b => a.1 ≤ b.1 :=
    (List.pairwise_mergeSort (fun a b c hab hbc => by simp at *; omega)
      (fun a b => by simp; omega) _).imp of_decide_eq_true
  have hkey : key = l.segmentKey (slots types) s := by
    have hmem := List.mem_flatten.2 ⟨group, hgroup, hp⟩
    rw [List.flatten_splitBy, List.mem_mergeSort] at hmem
    obtain ⟨u, -, heq⟩ := List.mem_map.1 hmem
    cases heq
    rfl
  rw [eq_filter_of_mem_splitBy hsorted hgroup hp, filter_mergeSort, List.filter_map, List.map_map,
    hkey, peers]
  exact List.map_id _

/-- The operands that threads contribute to a reduction, in order. -/
def contributions {α : Type} (A : Arithmetic α) (l : Launch) (m : Machine α) (x : Kernel.Operand)
    (reads : Scalar) (threads : List Nat) : List α :=
  threads.filterMap fun t =>
    if l.truth? m.loops reads t = some true then l.value? A m x t else none

/-- The cell that an operand is kept in. -/
def operandCell? (l : Launch) (loops : List (LoopId × Int)) (x : Kernel.Operand) (t : Nat) :
    Option Cell :=
  match x with
  | .element e => l.cell? loops e t
  | .scalar _ _ => none

/-- The thread writes the result of its segment into the cell. -/
structure WritesTo (l : Launch) (loops : List (LoopId × Int)) (out : Element) (types : ParallelSet)
    (writes : Scalar) (t : Nat) (c : Cell) : Prop where
  first : l.isFirst types t = true
  writes : l.truth? loops writes t = some true
  cell : l.cell? loops out t = some c

/-- The thread alone writes its cell, and no operand is kept where results are written. -/
structure WritesAlone (l : Launch) (loops : List (LoopId × Int)) (out : Element)
    (x : Kernel.Operand) (types : ParallelSet) (writes : Scalar) (active : List Nat) (t : Nat)
    (c : Cell) : Prop where
  nodup : active.Nodup
  mem : t ∈ active
  target : l.WritesTo loops out types writes t c
  alone : ∀ s ∈ active, l.WritesTo loops out types writes s c → s = t
  apart : ∀ s ∈ active, ∀ u ∈ active, ∀ d, l.WritesTo loops out types writes u d →
    l.operandCell? loops x s ≠ some d

/-- Conditions can be evaluated, operands exist where they are read, and cells exist where results
are written. -/
structure Ready {α : Type} (A : Arithmetic α) (l : Launch) (m : Machine α) (out : Element)
    (x : Kernel.Operand) (types : ParallelSet) (reads writes : Scalar) (active : List Nat) :
    Prop where
  reads : ∀ t ∈ active, ∃ b, l.truth? m.loops reads t = some b ∧
    (b = true → (l.value? A m x t).isSome)
  writes : ∀ t ∈ active, l.isFirst types t = true → ∃ b, l.truth? m.loops writes t = some b ∧
    (b = true → ∃ c, l.cell? m.loops out t = some c ∧ (m.get? c).isSome)

theorem Ready.congr {α : Type} {A : Arithmetic α} {m m' : Machine α} {out : Element}
    {x : Kernel.Operand} {reads writes : Scalar}
    (hr : l.Ready A m out x types reads writes active) (h : m.SameCells m') :
    l.Ready A m' out x types reads writes active := by
  constructor
  · rw [h.loops]
    intro t ht
    rw [isSome_value?_congr h]
    exact hr.reads t ht
  · rw [h.loops]
    simp only [h.isSome]
    exact hr.writes

/-- An operand stays the same as long as its cell does. -/
theorem value?_congr {α : Type} {A : Arithmetic α} {m m' : Machine α} {x : Kernel.Operand}
    (hloops : m'.loops = m.loops)
    (hcell : ∀ c, l.operandCell? m.loops x t = some c → m'.get? c = m.get? c) :
    l.value? A m' x t = l.value? A m x t := by
  cases x with
  | scalar s ty => rw [value?, hloops, value?]
  | element e =>
      rw [value?, hloops, value?]
      exact Option.bind_congr hcell

theorem contributions_congr {α : Type} {A : Arithmetic α} {m m' : Machine α} {x : Kernel.Operand}
    {reads : Scalar} {threads : List Nat} (hloops : m'.loops = m.loops)
    (hcell : ∀ s ∈ threads, ∀ c, l.operandCell? m.loops x s = some c → m'.get? c = m.get? c) :
    l.contributions A m' x reads threads = l.contributions A m x reads threads := by
  refine List.filterMap_congr fun s hs => ?_
  rw [hloops, value?_congr hloops (hcell s hs)]

end Launch

/-! ## One round -/

namespace Run

variable {α : Type} {A : Arithmetic α} {l : Launch} {op : BinaryOp} {out : Element}
  {x : Kernel.Operand} {init : Constant} {types : ParallelSet} {reads writes : Scalar}
  {m m' : Machine α} {u : Unit}

/-- Two values joined in the type of a result. -/
def joined (A : Arithmetic α) (op : BinaryOp) (out : Element) (a b : α) : α :=
  A.round out.dtype (A.binary op a b (!out.dtype.isFloat))

/-- The contributions of a segment are folded in thread order. -/
theorem returns_total {segment : List Nat} {a total : α}
    (h : Returns (segment.foldlM (fun total t => do
      if ← holds l reads t then
        return A.round out.dtype (A.binary op total (← operand A l x t) (!out.dtype.isFloat))
      else return total) a) m total m') :
    m = m' ∧ total = (l.contributions A m x reads segment).foldl (joined A op out) a := by
  induction segment generalizing a with
  | nil =>
      obtain ⟨rfl, rfl⟩ := returns_pure.1 h
      exact ⟨rfl, rfl⟩
  | cons t segment ih =>
      rw [List.foldlM_cons] at h
      simp only [returns_bind, returns_holds] at h
      obtain ⟨b, m₁, ⟨holds, m₂, ⟨hholds, rfl⟩, hb⟩, h⟩ := h
      rw [Launch.contributions, List.filterMap_cons, ← Launch.contributions]
      cases holds with
      | false =>
          obtain ⟨rfl, rfl⟩ := returns_pure.1 hb
          rw [if_neg (by rw [hholds]; decide)]
          exact ih h
      | true =>
          simp only [if_true, returns_bind, returns_operand, returns_pure] at hb
          obtain ⟨y, m₂, ⟨hy, rfl⟩, rfl, rfl⟩ := hb
          rw [if_pos hholds, hy]
          exact ih h

/-- What the first thread of a segment does with the total. -/
def join (A : Arithmetic α) (l : Launch) (op : BinaryOp) (out : Element) (writes : Scalar)
    (total : α) (t : Nat) : Run α Unit := do
  if ← holds l writes t then
    let current ← load l out t
    store A l out t (A.binary op current total (!out.dtype.isFloat))

theorem returns_join {total : α} {t : Nat} (h : Returns (join A l op out writes total t) m u m') :
    m'.loops = m.loops ∧ ∀ d, m'.get? d =
      if l.truth? m.loops writes t = some true ∧ l.cell? m.loops out t = some d then
        (m.get? d).map (joined A op out · total)
      else m.get? d := by
  unfold join at h
  simp only [returns_bind, returns_holds] at h
  obtain ⟨holds, m₁, ⟨hholds, rfl⟩, h⟩ := h
  cases holds with
  | false =>
      obtain ⟨-, rfl⟩ := returns_pure.1 h
      refine ⟨rfl, fun d => ?_⟩
      rw [if_neg]
      rw [hholds]
      rintro ⟨⟨⟩, -⟩
  | true =>
      simp only [if_true, returns_bind, returns_load, returns_store] at h
      obtain ⟨current, m₁, ⟨⟨c, hc, hcurrent⟩, rfl⟩, c', hc', -, rfl⟩ := h
      cases hc.symm.trans hc'
      refine ⟨Machine.loops_set _ _ _, fun d => ?_⟩
      rw [Machine.get?_set, hholds, hc]
      by_cases hd : d = c
      · subst hd
        simp [hcurrent, joined]
      · have hd' : ¬ c = d := fun heq => hd heq.symm
        simp [hd, hd']

theorem returns_joins {total : α} {ts : List Nat}
    (h : Returns (ts.forM (join A l op out writes total)) m u m') :
    m'.loops = m.loops ∧
      (∀ d, (∀ t ∈ ts, l.truth? m.loops writes t = some true → l.cell? m.loops out t ≠ some d) →
        m'.get? d = m.get? d) ∧
      (ts.Nodup → ∀ t ∈ ts, ∀ c, l.truth? m.loops writes t = some true →
        l.cell? m.loops out t = some c →
        (∀ s ∈ ts, l.truth? m.loops writes s = some true → l.cell? m.loops out s = some c →
          s = t) →
        m'.get? c = (m.get? c).map (joined A op out · total)) := by
  induction ts generalizing m with
  | nil =>
      obtain ⟨-, rfl⟩ := returns_pure.1 h
      exact ⟨rfl, fun _ _ => rfl, fun _ t ht => by cases ht⟩
  | cons s ts ih =>
      obtain ⟨_, m₁, hone, h⟩ := returns_bind.1 h
      obtain ⟨hloops₁, hget₁⟩ := returns_join hone
      obtain ⟨hloops, hframe, heffect⟩ := ih h
      rw [hloops₁] at hloops hframe heffect
      refine ⟨hloops, fun d hd => ?_, fun hnodup t ht c hwrites hc halone => ?_⟩
      · rw [hframe d fun t ht => hd t (List.mem_cons_of_mem s ht), hget₁, if_neg]
        exact fun hs => hd s List.mem_cons_self hs.1 hs.2
      · obtain ⟨hnot, hnodup⟩ := List.nodup_cons.1 hnodup
        have hothers : ∀ u ∈ ts, l.truth? m.loops writes u = some true →
            l.cell? m.loops out u = some c → u = t :=
          fun u hu => halone u (List.mem_cons_of_mem s hu)
        rcases List.mem_cons.1 ht with rfl | ht
        · rw [hframe c fun u hu hw hcell => hnot (hothers u hu hw hcell ▸ hu), hget₁,
            if_pos ⟨hwrites, hc⟩]
        · rw [heffect hnodup t ht c hwrites hc hothers, hget₁, if_neg]
          rintro ⟨hw, hcell⟩
          exact hnot (halone s List.mem_cons_self hw hcell ▸ ht)

/-- What the threads of one segment do. -/
def reduceSegment (A : Arithmetic α) (l : Launch) (op : BinaryOp) (out : Element)
    (x : Kernel.Operand) (init : Constant) (types : ParallelSet) (reads writes : Scalar)
    (segment : List Nat) : Run α Unit := do
  let total ← segment.foldlM (fun total t => do
    if ← holds l reads t then
      return A.round out.dtype (A.binary op total (← operand A l x t) (!out.dtype.isFloat))
    else return total) (A.ofConstant init)
  (segment.filter (l.isFirst types)).forM (join A l op out writes total)

theorem reduce_eq (active : List Nat) : reduce A l op out x init types reads writes active =
    (l.segments types active).forM (reduceSegment A l op out x init types reads writes) :=
  rfl

/-- The total of a segment joins what its first thread holds, and other cells stay the same. -/
theorem returns_reduceSegment {segment : List Nat}
    (h : Returns (reduceSegment A l op out x init types reads writes segment) m u m') :
    m'.loops = m.loops ∧
      (∀ d, (∀ t ∈ segment, ¬ l.WritesTo m.loops out types writes t d) → m'.get? d = m.get? d) ∧
      (segment.Nodup → ∀ t ∈ segment, ∀ c, l.WritesTo m.loops out types writes t c →
        (∀ s ∈ segment, l.WritesTo m.loops out types writes s c → s = t) →
        m'.get? c = (m.get? c).map (joined A op out · ((l.contributions A m x reads segment).foldl
          (joined A op out) (A.ofConstant init)))) := by
  obtain ⟨total, m₁, htotal, h⟩ := returns_bind.1 h
  obtain ⟨rfl, rfl⟩ := returns_total htotal
  obtain ⟨hloops, hframe, heffect⟩ := returns_joins h
  have hfirst : ∀ {t}, t ∈ segment.filter (l.isFirst types) →
      t ∈ segment ∧ l.isFirst types t = true := List.mem_filter.1
  refine ⟨hloops, fun d hd => hframe d fun t ht hw hc => ?_, fun hnodup t ht c hwrites halone => ?_⟩
  · exact hd t (hfirst ht).1 ⟨(hfirst ht).2, hw, hc⟩
  · refine heffect (hnodup.filter _) t (List.mem_filter.2 ⟨ht, hwrites.first⟩) c hwrites.writes
      hwrites.cell fun s hs hw hc => ?_
    exact halone s (hfirst hs).1 ⟨(hfirst hs).2, hw, hc⟩

/-- A segment after another: each total joins what its first thread holds. -/
theorem returns_reduceSegments {segments : List (List Nat)}
    (h : Returns (segments.forM (reduceSegment A l op out x init types reads writes)) m u m') :
    (∀ d, (∀ t ∈ segments.flatten, ¬ l.WritesTo m.loops out types writes t d) →
      m'.get? d = m.get? d) ∧
    (∀ segment ∈ segments, ∀ t ∈ segment, ∀ c,
      l.WritesAlone m.loops out x types writes segments.flatten t c →
      m'.get? c = (m.get? c).map (joined A op out ·
        ((l.contributions A m x reads segment).foldl (joined A op out) (A.ofConstant init)))) := by
  induction segments generalizing m with
  | nil =>
      obtain ⟨-, rfl⟩ := returns_pure.1 h
      exact ⟨fun _ _ => rfl, fun _ hsegment => by cases hsegment⟩
  | cons first segments ih =>
      obtain ⟨_, m₁, hone, h⟩ := returns_bind.1 h
      obtain ⟨hloops, hframe₁, heffect₁⟩ := returns_reduceSegment hone
      obtain ⟨hframe, heffect⟩ := ih h
      rw [hloops] at hframe heffect
      have hleft : ∀ {s}, s ∈ first → s ∈ first ++ segments.flatten := List.mem_append_left _
      have hright : ∀ {s}, s ∈ segments.flatten → s ∈ first ++ segments.flatten :=
        List.mem_append_right _
      rw [List.flatten_cons]
      refine ⟨fun d hd => ?_, fun segment hsegment t ht c hw => ?_⟩
      · rw [hframe d fun t ht => hd t (hright ht), hframe₁ d fun t ht => hd t (hleft ht)]
      · obtain ⟨hnodup₁, hnodup, happart⟩ := List.nodup_append.1 hw.nodup
        rcases List.mem_cons.1 hsegment with rfl | hsegment
        · rw [hframe c fun s hs hs' => happart t ht s hs (hw.alone s (hright hs) hs').symm,
            heffect₁ hnodup₁ t ht c hw.target fun s hs => hw.alone s (hleft hs)]
        · have hmem : t ∈ segments.flatten := List.mem_flatten.2 ⟨segment, hsegment, ht⟩
          rw [heffect segment hsegment t ht c ⟨hnodup, hmem, hw.target,
              fun s hs => hw.alone s (hright hs),
              fun s hs u hu => hw.apart s (hright hs) u (hright hu)⟩,
            hframe₁ c fun s hs hs' => happart s hs t hmem (hw.alone s (hleft hs) hs')]
          -- what this segment contributes was not written by the first one
          rw [Launch.contributions_congr hloops fun s hs d hd => hframe₁ d fun u hu hu' =>
            hw.apart s (hright (List.mem_flatten.2 ⟨segment, hsegment, hs⟩)) u (hleft hu) d hu' hd]

/-- What a reduction across threads leaves in the cell of a first thread: what it held, joined with
the contributions of its segment in thread order. -/
theorem reduce_cell {active : List Nat} {t : Nat} {c : Cell}
    (hw : l.WritesAlone m.loops out x types writes active t c)
    (h : Returns (reduce A l op out x init types reads writes active) m u m') :
    m'.get? c = (m.get? c).map (joined A op out · ((l.contributions A m x reads
      (l.peers types active t)).foldl (joined A op out) (A.ofConstant init))) := by
  have hperm := l.flatten_segments_perm types active
  obtain ⟨segment, hsegment, ht⟩ := List.mem_flatten.1 (hperm.mem_iff.2 hw.mem)
  rw [reduce_eq] at h
  rw [← Launch.eq_peers hsegment ht]
  refine (returns_reduceSegments h).2 segment hsegment t ht c ⟨hperm.nodup_iff.2 hw.nodup,
    hperm.mem_iff.2 hw.mem, hw.target, fun s hs => hw.alone s (hperm.mem_iff.1 hs),
    fun s hs u hu => hw.apart s (hperm.mem_iff.1 hs) u (hperm.mem_iff.1 hu)⟩

theorem total_returns {segment : List Nat} (a : α)
    (hr : ∀ t ∈ segment, ∃ b, l.truth? m.loops reads t = some b ∧
      (b = true → (l.value? A m x t).isSome)) :
    ∃ total, Returns (segment.foldlM (fun total t => do
      if ← holds l reads t then
        return A.round out.dtype (A.binary op total (← operand A l x t) (!out.dtype.isFloat))
      else return total) a) m total m := by
  induction segment generalizing a with
  | nil => exact ⟨a, returns_pure.2 ⟨rfl, rfl⟩⟩
  | cons t segment ih =>
      rw [List.foldlM_cons]
      obtain ⟨b, hb, hy⟩ := hr t List.mem_cons_self
      have hrest := fun a => ih a fun s hs => hr s (List.mem_cons_of_mem t hs)
      cases b with
      | false =>
          obtain ⟨total, htotal⟩ := hrest a
          refine ⟨total, returns_bind.2 ⟨a, m, ?_, htotal⟩⟩
          exact returns_bind.2 ⟨false, m, returns_holds.2 ⟨hb, rfl⟩, returns_pure.2 ⟨rfl, rfl⟩⟩
      | true =>
          obtain ⟨y, hy⟩ := Option.isSome_iff_exists.1 (hy rfl)
          obtain ⟨total, htotal⟩ := hrest (joined A op out a y)
          refine ⟨total, returns_bind.2 ⟨_, m, ?_, htotal⟩⟩
          refine returns_bind.2 ⟨true, m, returns_holds.2 ⟨hb, rfl⟩, ?_⟩
          exact returns_bind.2 ⟨y, m, returns_operand.2 ⟨hy, rfl⟩, returns_pure.2 ⟨rfl, rfl⟩⟩

theorem join_returns {t : Nat} (total : α)
    (hw : ∃ b, l.truth? m.loops writes t = some b ∧
      (b = true → ∃ c, l.cell? m.loops out t = some c ∧ (m.get? c).isSome)) :
    ∃ m', Returns (join A l op out writes total t) m () m' ∧ m.SameCells m' := by
  obtain ⟨b, hb, hc⟩ := hw
  have hholds := returns_holds.2 ⟨hb, rfl⟩
  cases b with
  | false => exact ⟨m, returns_bind.2 ⟨false, m, hholds, returns_pure.2 ⟨rfl, rfl⟩⟩, .refl m⟩
  | true =>
      obtain ⟨c, hc, hsome⟩ := hc rfl
      obtain ⟨current, hcurrent⟩ := Option.isSome_iff_exists.1 hsome
      refine ⟨m.set c (joined A op out current total), returns_bind.2 ⟨true, m, hholds, ?_⟩,
        Machine.sameCells_set m c _⟩
      refine returns_bind.2 ⟨current, m, returns_load.2 ⟨⟨c, hc, hcurrent⟩, rfl⟩, ?_⟩
      exact returns_store.2 ⟨c, hc, hsome, rfl⟩

/-- A reduction across threads fails for what its threads lack only. -/
theorem reduce_returns (op : BinaryOp) (init : Constant) {active : List Nat}
    (hr : l.Ready A m out x types reads writes active) :
    ∃ m', Returns (reduce A l op out x init types reads writes active) m () m' ∧
      m.SameCells m' := by
  rw [reduce_eq]
  refine forM_returns fun segment hsegment n hn => ?_
  have hr := hr.congr hn
  have hmem : ∀ t ∈ segment, t ∈ active := fun t ht =>
    (l.flatten_segments_perm types active).mem_iff.1 (List.mem_flatten.2 ⟨segment, hsegment, ht⟩)
  obtain ⟨total, htotal⟩ := total_returns (A.ofConstant init) fun t ht => hr.reads t (hmem t ht)
  have hjoin : ∀ t ∈ segment.filter (l.isFirst types), ∀ n₁, n.SameCells n₁ →
      ∃ n', Returns (join A l op out writes total t) n₁ () n' ∧ n₁.SameCells n' := by
    intro t ht n₁ hn₁
    obtain ⟨ht, hfirst⟩ := List.mem_filter.1 ht
    exact join_returns total ((hr.congr hn₁).writes t (hmem t ht) hfirst)
  obtain ⟨n', hjoins, hsame⟩ := forM_returns hjoin
  exact ⟨n', returns_bind.2 ⟨total, n, htotal, hjoins⟩, hsame⟩

/-! ## Initialization and rounds -/

/-- Initializing leaves the initial value in the cell of every thread. -/
theorem init_cell {threads : List Nat} {t : Nat} {c : Cell} (ht : t ∈ threads)
    (hc : l.cell? m.loops out t = some c)
    (h : Returns (execOp A l (.init out init) threads) m u m') :
    m'.get? c = some (A.round out.dtype (A.ofConstant init)) := by
  have hkeep : ∀ {threads : List Nat} {m m' : Machine α},
      Returns (execOp A l (.init out init) threads) m u m' →
      m.get? c = some (A.round out.dtype (A.ofConstant init)) →
      m'.get? c = some (A.round out.dtype (A.ofConstant init)) := by
    intro threads
    induction threads with
    | nil =>
        intro m m' h hm
        obtain ⟨-, rfl⟩ := returns_pure.1 h
        exact hm
    | cons s threads ih =>
        intro m m' h hm
        obtain ⟨_, m₁, hone, h⟩ := returns_bind.1 h
        obtain ⟨d, -, -, rfl⟩ := returns_store.1 hone
        refine ih h ?_
        rw [Machine.get?_set]
        split
        case isTrue hd =>
            rw [← hd, hm]
            rfl
        case isFalse => exact hm
  induction threads generalizing m with
  | nil => cases ht
  | cons s threads ih =>
      obtain ⟨_, m₁, hone, h⟩ := returns_bind.1 h
      obtain ⟨d, hd, hsome, rfl⟩ := returns_store.1 hone
      rcases List.mem_cons.1 ht with rfl | ht
      · cases hc.symm.trans hd
        refine hkeep h ?_
        obtain ⟨y, hy⟩ := Option.isSome_iff_exists.1 hsome
        rw [Machine.get?_set, if_pos rfl, hy]
        rfl
      · exact ih ht (by rwa [Machine.loops_set]) h

/-- Rounds of a reduction across threads, with whatever leaves the cell of a first thread alone in
between, and the operands that the segment of the thread contributes. -/
inductive Rounds (A : Arithmetic α) (l : Launch) (op : BinaryOp) (out : Element)
    (x : Kernel.Operand) (init : Constant) (types : ParallelSet) (reads writes : Scalar) (t : Nat)
    (c : Cell) (m : Machine α) : List α → Machine α → Prop where
  | start {m' : Machine α} (h : m'.get? c = m.get? c) :
      Rounds A l op out x init types reads writes t c m [] m'
  | round {m₁ m₂ m' : Machine α} {active : List Nat} {xs : List α} {u : Unit}
      (hrounds : Rounds A l op out x init types reads writes t c m xs m₁)
      (hw : l.WritesAlone m₁.loops out x types writes active t c)
      (hround : Returns (reduce A l op out x init types reads writes active) m₁ u m₂)
      (hafter : m'.get? c = m₂.get? c) :
      Rounds A l op out x init types reads writes t c m
        (xs ++ l.contributions A m₁ x reads (l.peers types active t)) m'

section Integers

variable {A : Arithmetic Int} {m m' : Machine Int} {t : Nat} {c : Cell} {xs : List Int}

/-- Rounds continue the fold of the cell, once the initial value has entered it. -/
theorem Rounds.get? {a : Int} (hA : A.Exact) (hop : op ∈ [.add, .mul, .max, .min])
    (ha : op.onInts a (A.ofConstant init) = a) (hm : m.get? c = some a)
    (h : Rounds A l op out x init types reads writes t c m xs m') :
    m'.get? c = some (xs.foldl op.onInts a) := by
  have hjoined : joined A op out = op.onInts := by
    funext a b
    rw [joined, hA.round, hA.binary op hop]
  induction h with
  | start h => rw [h, hm, List.foldl_nil]
  | @round m₁ m₂ m' active xs u hrounds hw hround hafter ih =>
      have habsorbed := (BinaryOp.foldl_absorbing hop ha xs).2
      have hfold := (BinaryOp.foldl_absorbing hop habsorbed
        (l.contributions A m₁ x reads (l.peers types active t))).1
      rw [hafter, reduce_cell hw hround, ih, Option.map_some, hjoined, hfold, List.foldl_append]

/-- Binding a reduction to the launch does not change its result: after an initialization and any
number of rounds, another round succeeds and leaves in the cell of the first thread what it gets by
taking in the operands of its segment one after the other, if the initial value combined with itself
gives it back. -/
theorem rounds_eq_serial {started active : List Nat} {m₀ : Machine Int} (hA : A.Exact)
    (hop : op ∈ [.add, .mul, .max, .min])
    (hinit : op.onInts (A.ofConstant init) (A.ofConstant init) = A.ofConstant init)
    (ht : t ∈ started) (hc : l.cell? m₀.loops out t = some c)
    (hstart : Returns (execOp A l (.init out init) started) m₀ u m)
    (hrounds : Rounds A l op out x init types reads writes t c m xs m')
    (hw : l.WritesAlone m'.loops out x types writes active t c)
    (hready : l.Ready A m' out x types reads writes active) :
    ∃ m'', Returns (reduce A l op out x init types reads writes active) m' () m'' ∧
      m''.get? c = some ((xs ++ l.contributions A m' x reads (l.peers types active t)).foldl
        op.onInts (A.ofConstant init)) := by
  obtain ⟨m'', hround, -⟩ := reduce_returns op init hready
  refine ⟨m'', hround, ?_⟩
  have hm := init_cell ht hc hstart
  rw [hA.round] at hm
  exact (hrounds.round hw hround rfl).get? hA hop hinit hm

end Integers

/-! ## Four threads -/

/-- Four threads of a block, each with an element of the first buffer. -/
def fourThreads : Launch where
  dims := { sizes := [1, 1, 1, 4, 1, 1] }
  tensors := [⟨⟨0⟩, 0, .int64, [4], [1]⟩, ⟨⟨1⟩, 1, .int64, [], []⟩]
  scalars := []
  allocations := []

def oneToFour : Machine Int where
  buffers := #[#[1, 2, 3, 4], #[0]]
  registers := #[[], [], [], []]
  shared := #[[]]

/-- The element of a thread. -/
def ownElement : Kernel.Operand := .element ⟨⟨0⟩, .int64, .launchIndex .threadX⟩

/-- The element of the second buffer, which all threads share. -/
def blockSum : Element := ⟨⟨1⟩, .int64, .zero⟩

theorem writesAlone_fourThreads : fourThreads.WritesAlone [] blockSum ownElement ⟨[.threadX]⟩
    (.bool true) [0, 1, 2, 3] 0 (.buffer 1, 0) where
  nodup := by decide
  mem := by decide
  target := ⟨by decide +kernel, by decide +kernel, by decide +kernel⟩
  alone := by
    intro s hs hw
    have hfirst : ∀ s ∈ [0, 1, 2, 3], fourThreads.isFirst ⟨[.threadX]⟩ s = true → s = 0 := by
      decide +kernel
    exact hfirst s hs hw.first
  apart := by
    intro s hs u hu d hw
    have happart : ∀ s ∈ [0, 1, 2, 3], ∀ u ∈ [0, 1, 2, 3],
        fourThreads.operandCell? [] ownElement s ≠ fourThreads.cell? [] blockSum u := by
      decide +kernel
    rw [← hw.cell]
    exact happart s hs u hu

theorem ready_fourThreads (b : Int) : fourThreads.Ready .integers
    (oneToFour.set (.buffer 1, 0) b) blockSum ownElement ⟨[.threadX]⟩ (.bool true) (.bool true)
    [0, 1, 2, 3] where
  reads := by
    intro t ht
    refine ⟨true, rfl, fun _ => ?_⟩
    fin_cases ht <;> rfl
  writes := by
    intro t ht _
    refine ⟨true, rfl, fun _ => ⟨(.buffer 1, 0), ?_, rfl⟩⟩
    fin_cases ht <;> rfl

theorem returns_init_fourThreads (b : Int) :
    Returns (execOp .integers fourThreads (.init blockSum (.int b)) [0, 1, 2, 3]) oneToFour ()
      (oneToFour.set (.buffer 1, 0) b) := by
  have hstore : ∀ t ∈ [0, 1, 2, 3], ∀ c, Returns (store .integers fourThreads blockSum t b)
      (oneToFour.set (.buffer 1, 0) c) () (oneToFour.set (.buffer 1, 0) b) := by
    intro t ht c
    refine returns_store.2 ⟨(.buffer 1, 0), ?_, rfl, rfl⟩
    fin_cases ht <;> rfl
  have hstart : oneToFour = oneToFour.set (.buffer 1, 0) 0 := rfl
  rw [hstart]
  exact returns_bind.2 ⟨(), _, hstore 0 (by simp) 0, returns_bind.2 ⟨(), _, hstore 1 (by simp) b,
    returns_bind.2 ⟨(), _, hstore 2 (by simp) b, returns_bind.2 ⟨(), _, hstore 3 (by simp) b, rfl⟩⟩⟩⟩

/-- Four threads add up what one thread adds up. -/
theorem fourThreads_add :
    Returns (execOp .integers fourThreads (.init blockSum (.int 0)) [0, 1, 2, 3]) oneToFour ()
      (oneToFour.set (.buffer 1, 0) 0) ∧
    ∃ m, Returns (reduce .integers fourThreads .add blockSum ownElement (.int 0) ⟨[.threadX]⟩
        (.bool true) (.bool true) [0, 1, 2, 3]) (oneToFour.set (.buffer 1, 0) 0) () m ∧
      m.get? (.buffer 1, 0) = some 10 :=
  ⟨returns_init_fourThreads 0, rounds_eq_serial Arithmetic.exact_integers (by decide) (by decide)
    (by decide) rfl (returns_init_fourThreads 0) (.start rfl) writesAlone_fourThreads
    (ready_fourThreads 0)⟩

/-- From one on they do not: it enters twice. -/
theorem fourThreads_add_from_one :
    Returns (execOp .integers fourThreads (.init blockSum (.int 1)) [0, 1, 2, 3]) oneToFour ()
      (oneToFour.set (.buffer 1, 0) 1) ∧
    (∃ m, Returns (reduce .integers fourThreads .add blockSum ownElement (.int 1) ⟨[.threadX]⟩
        (.bool true) (.bool true) [0, 1, 2, 3]) (oneToFour.set (.buffer 1, 0) 1) () m ∧
      m.get? (.buffer 1, 0) = some 12) ∧
    (fourThreads.contributions .integers (oneToFour.set (.buffer 1, 0) 1) ownElement (.bool true)
      (fourThreads.peers ⟨[.threadX]⟩ [0, 1, 2, 3] 0)).foldl BinaryOp.add.onInts 1 = 11 := by
  obtain ⟨m, hreduce, -⟩ := reduce_returns .add (.int 1) (ready_fourThreads 1)
  refine ⟨returns_init_fourThreads 1, ⟨m, hreduce, ?_⟩, by decide +kernel⟩
  rw [reduce_cell writesAlone_fourThreads hreduce]
  decide +kernel

end Run
end Kernel
end FusionCompiler
