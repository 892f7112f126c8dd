import Mathlib.Algebra.Order.BigOperators.Group.Finset
import Mathlib.Logic.Function.Iterate
import FusionCompiler.Proofs.Fusion.AxisMap
import FusionCompiler.Proofs.Fusion.Downstream
import FusionCompiler.Schedule.Propagate

/-!
# Leaves that correspond

The search for the leaves that correspond to those of a reference goes from tensor
to tensor, along producers and consumers alike, so every diamond of the graph is a
cycle to it.  A match may be replaced by one with other axes, and nothing says that
the later match extends the earlier one.

It ends because a tensor is visited again only after its match has become larger,
and no match has more axes than the reference has leaves.  What counts is the sum of
the sizes of all matches: each tensor that joins the queue adds to it.

Main results:

- Theorem `Schedule.advances_visit`: a tensor that joins the queue has a larger match
  than before, and other matches stay as they are.
- Theorem `Schedule.growMatches_spec`: the search ends with an empty queue, and what
  is matched is closed under producers and consumers.
- Theorem `Schedule.leafCorrespondence_complete`: the search ends on every graph, and
  every connected tensor has a match between leaves of the reference and its own.
-/

namespace FusionCompiler

namespace AxisMap

variable {m : AxisMap} {a b c : AxisId}

/-- The axes that have an image, in the order in which they came in. -/
def keys (m : AxisMap) : List AxisId :=
  m.pairs.map (·.1)

/-- A map gets a new key behind the others, and keeps the place of one that it has. -/
theorem keys_insert (m : AxisMap) (a b : AxisId) :
    (m.insert a b).keys = if m.contains a then m.keys else m.keys ++ [a] := by
  unfold insert keys
  split
  · rw [List.map_map]
    refine List.map_congr_left fun p _ => ?_
    by_cases hp : p.1 = a
    · simp [hp]
    · simp [hp]
  · rw [List.map_append]
    rfl

/-- Keys stay apart. -/
theorem nodup_keys_insert (h : m.keys.Nodup) : (m.insert a b).keys.Nodup := by
  rw [keys_insert]
  split
  case isTrue => exact h
  case isFalse hnew =>
      refine List.nodup_append.2 ⟨h, List.nodup_singleton a, fun c hc d hd => ?_⟩
      obtain ⟨p, hp, rfl⟩ := List.mem_map.1 hc
      rintro rfl
      exact hnew (List.any_eq_true.2 ⟨p, hp, by simpa using hd⟩)

/-- A key is the new one or an old one. -/
theorem mem_keys_insert (h : c ∈ (m.insert a b).keys) : c = a ∨ c ∈ m.keys := by
  rw [keys_insert] at h
  split at h
  · exact .inr h
  · simpa [or_comm] using h

/-- Keys stay apart under several insertions. -/
theorem nodup_keys_insertAll {l : List (AxisId × AxisId)} (h : m.keys.Nodup) :
    (m.insertAll l).keys.Nodup := by
  unfold insertAll
  induction l generalizing m with
  | nil => exact h
  | cons p l ih => exact ih (nodup_keys_insert h)

/-- A key is one of those inserted or an old one. -/
theorem mem_keys_insertAll {l : List (AxisId × AxisId)} (h : c ∈ (m.insertAll l).keys) :
    c ∈ l.map (·.1) ∨ c ∈ m.keys := by
  unfold insertAll at h
  induction l generalizing m with
  | nil => exact .inr h
  | cons p l ih =>
      rw [List.map_cons, List.mem_cons]
      rcases ih h with hc | hc
      · exact .inl (.inr hc)
      · rcases mem_keys_insert hc with rfl | hc
        · exact .inl (.inl rfl)
        · exact .inr hc

/-- Following a second map adds no keys. -/
theorem keys_compose_sublist (m n : AxisMap) : (m.compose n).keys.Sublist m.keys := by
  unfold compose keys
  induction m.pairs with
  | nil => exact .slnil
  | cons p pairs ih =>
      cases hget : n.get? p.2 with
      | none =>
          rw [List.filterMap_cons_none (by simp [hget])]
          exact ih.cons p.1
      | some b =>
          rw [List.filterMap_cons_some (b := (p.1, b)) (by simp [hget])]
          exact ih.cons_cons p.1

/-- Dropping pairs drops keys. -/
theorem keys_filterImages_sublist (m : AxisMap) (p : AxisId → Bool) :
    (m.filterImages p).keys.Sublist m.keys :=
  List.filter_sublist.map _

end AxisMap

namespace Schedule

open Relation

variable {f : Fusion} {reference t u v w : ValueId} {maps maps' maps'' : LeafMaps}
  {queue again again' : List ValueId} {m : AxisMap}

/-- The second tensor is a producer or a consumer of the first one. -/
def Adjacent (f : Fusion) (v w : ValueId) : Prop :=
  w ∈ f.producers v ∨ w ∈ f.consumers v

/-- Adjacent tensors are neighbours in the graph. -/
theorem adjacent_iff : Adjacent f v w ↔ ∃ n ∈ neighbours f v, n.tensor = w := by
  simp only [Adjacent, neighbours, List.mem_append, List.mem_map]
  constructor
  · rintro (h | h)
    · exact ⟨⟨w, true⟩, .inl ⟨w, h, rfl⟩, rfl⟩
    · exact ⟨⟨w, false⟩, .inr ⟨w, h, rfl⟩, rfl⟩
  · rintro ⟨n, ⟨u, hu, rfl⟩ | ⟨u, hu, rfl⟩, rfl⟩
    · exact .inl hu
    · exact .inr hu

/-- A neighbour is a value of the fusion. -/
theorem Adjacent.hasValue (h : Adjacent f v w) : f.HasValue w := by
  rcases h with h | h
  · obtain ⟨-, -, -, hw⟩ := Fusion.mem_producers.1 h
    exact Fusion.hasValue_of_isTensor hw
  · exact Fusion.hasValue_of_isTensor (Fusion.mem_consumers_iff.1 h).2

/-! ## Matches -/

namespace LeafMaps

/-- An insertion is seen at its own tensor only. -/
theorem get?_insert (maps : LeafMaps) (v : ValueId) (m : AxisMap) (w : ValueId) :
    (maps.insert v m).get? w = if w = v then some m else maps.get? w :=
  find?_insertKey maps v m w

/-- Zero for a tensor that has not been reached, else one more than the size of its match. -/
def extent (maps : LeafMaps) (v : ValueId) : Nat :=
  ((maps.get? v).map fun m => m.size + 1).getD 0

/-- The measure changes at the tensor of which the map is replaced. -/
theorem extent_insert (maps : LeafMaps) (v : ValueId) (m : AxisMap) (w : ValueId) :
    (maps.insert v m).extent w = if w = v then m.size + 1 else maps.extent w := by
  unfold extent
  rw [get?_insert]
  split <;> rfl

/-- The extents of the matches of all values together. -/
def total (f : Fusion) (maps : LeafMaps) : Nat :=
  ∑ i ∈ Finset.range f.values.size, maps.extent ⟨i⟩

/-- The tensor has been reached. -/
def Reaches (maps : LeafMaps) (v : ValueId) : Prop :=
  ∃ m, maps.get? v = some m

/-- A tensor is reached just if its measure is positive. -/
theorem reaches_iff : maps.Reaches v ↔ 0 < maps.extent v := by
  unfold Reaches extent
  cases maps.get? v with
  | none => simp
  | some m => simp

/-- An insertion reaches its own tensor. -/
theorem reaches_insert : (maps.insert v m).Reaches w ↔ w = v ∨ maps.Reaches w := by
  unfold Reaches
  rw [get?_insert]
  by_cases hw : w = v
  · simp [hw]
  · simp [hw]

end LeafMaps

/-- The match sends distinct leaves of the reference to leaves of the tensor. -/
structure Matches (f : Fusion) (reference v : ValueId) (m : AxisMap) : Prop where
  distinct : m.keys.Nodup
  keys : ∀ a ∈ m.keys, a ∈ f.leaf reference
  images : ∀ b ∈ m.images, b ∈ f.leaf v

/-- A match is no larger than the list of the leaves of the reference. -/
theorem Matches.size_le (h : Matches f reference v m) : m.size ≤ (f.leaf reference).length := by
  have hlength := (List.subperm_of_subset h.distinct h.keys).length_le
  rwa [AxisMap.keys, List.length_map] at hlength

/-- The reference matches itself, leaf by leaf. -/
theorem matches_identity (f : Fusion) (reference : ValueId) :
    Matches f reference reference (.identity (f.leaf reference)) where
  distinct := AxisMap.nodup_keys_insertAll (m := {}) List.nodup_nil
  keys a ha := by
    rcases AxisMap.mem_keys_insertAll (m := {}) ha with ha | ha
    · simpa using ha
    · cases ha
  images b hb := by simpa using AxisMap.mem_images_ofPairs hb

/-- Carrying a match over an edge leaves a match. -/
theorem Matches.carry (h : Matches f reference v m) (step : AxisMap) (w : ValueId) :
    Matches f reference w ((m.compose step).filterImages (f.leaf w).contains) := by
  have hsublist := (AxisMap.keys_filterImages_sublist (m.compose step) (f.leaf w).contains).trans
    (AxisMap.keys_compose_sublist m step)
  refine ⟨hsublist.nodup h.distinct, fun a ha => h.keys a (hsublist.subset ha), fun b hb => ?_⟩
  obtain ⟨p, hp, rfl⟩ := List.mem_map.1 hb
  exact List.contains_iff_mem.1 (List.mem_filter.1 hp).2

/-- Every recorded match sends leaves of the reference to leaves of its tensor. -/
def AllMatch (f : Fusion) (reference : ValueId) (maps : LeafMaps) : Prop :=
  ∀ v m, maps.get? v = some m → Matches f reference v m

/-- A map that matches, among maps that match. -/
theorem AllMatch.insert (h : AllMatch f reference maps) (hm : Matches f reference v m) :
    AllMatch f reference (maps.insert v m) := by
  intro w n hn
  rw [LeafMaps.get?_insert] at hn
  split at hn
  case isTrue hw =>
      cases hn
      exact hw ▸ hm
  case isFalse => exact h w n hn

/-- The match that a tensor has, or the empty one. -/
theorem AllMatch.getD (h : AllMatch f reference maps) (v : ValueId) :
    Matches f reference v ((maps.get? v).getD {}) := by
  cases hv : maps.get? v with
  | some m => exact h v m hv
  | none => exact ⟨List.nodup_nil, fun _ ha => (nomatch ha), fun _ hb => (nomatch hb)⟩

/-- All maps together have no more pairs than tensors times leaves, and one for each tensor. -/
theorem AllMatch.total_le (h : AllMatch f reference maps) :
    maps.total f ≤ f.values.size * ((f.leaf reference).length + 1) := by
  have hextent : ∀ i ∈ Finset.range f.values.size,
      maps.extent ⟨i⟩ ≤ (f.leaf reference).length + 1 := by
    intro i _
    unfold LeafMaps.extent
    cases hv : maps.get? ⟨i⟩ with
    | none => exact Nat.zero_le _
    | some m => exact Nat.succ_le_succ (h ⟨i⟩ m hv).size_le
  have hsum := Finset.sum_le_card_nsmul _ _ _ hextent
  rwa [Finset.card_range, Nat.nsmul_eq_mul] at hsum

/-! ## One visit -/

/-- What a visit changes: the tensors that join the queue have larger matches than before, the
matches of all others stay. -/
structure Advances (f : Fusion) (maps maps' : LeafMaps) (again : List ValueId) : Prop where
  grows : ∀ t ∈ again, maps.extent t < maps'.extent t
  keeps : ∀ t ∉ again, maps'.get? t = maps.get? t
  total : maps.total f + again.length ≤ maps'.total f

namespace Advances

/-- No tensor is visited. -/
theorem refl (f : Fusion) (maps : LeafMaps) : Advances f maps maps [] :=
  ⟨fun _ h => (nomatch h), fun _ _ => rfl, le_rfl⟩

/-- No map shrinks. -/
theorem extent_le (h : Advances f maps maps' again) (t : ValueId) :
    maps.extent t ≤ maps'.extent t := by
  by_cases ht : t ∈ again
  · exact (h.grows t ht).le
  · rw [LeafMaps.extent, LeafMaps.extent, h.keeps t ht]

/-- Visits one after another. -/
theorem trans (h : Advances f maps maps' again) (h' : Advances f maps' maps'' again') :
    Advances f maps maps'' (again ++ again') where
  grows t ht := by
    rcases List.mem_append.1 ht with ht | ht
    · exact (h.grows t ht).trans_le (h'.extent_le t)
    · exact (h.extent_le t).trans_lt (h'.grows t ht)
  keeps t ht := by
    rw [List.mem_append, not_or] at ht
    rw [h'.keeps t ht.2, h.keeps t ht.1]
  total := by
    have hfirst := h.total
    have hsecond := h'.total
    rw [List.length_append]
    omega

/-- A larger map for a tensor, which is then queued. -/
theorem insert (hv : f.HasValue v) (hlt : maps.extent v < m.size + 1) :
    Advances f maps (maps.insert v m) [v] where
  grows t ht := by
    rw [List.mem_singleton.1 ht, LeafMaps.extent_insert, if_pos rfl]
    exact hlt
  keeps t ht := by
    rw [LeafMaps.get?_insert, if_neg fun h => ht (List.mem_singleton.2 h)]
  total := by
    rw [List.length_singleton, Nat.add_one_le_iff]
    apply Finset.sum_lt_sum
    · intro i _
      rw [LeafMaps.extent_insert]
      split
      case isTrue hi => exact hi ▸ hlt.le
      case isFalse => exact le_rfl
    · refine ⟨v.index, Finset.mem_range.2 hv, ?_⟩
      rw [LeafMaps.extent_insert, if_pos rfl]
      exact hlt

/-- What is reached stays reached. -/
theorem reaches (h : Advances f maps maps' again) (hv : maps.Reaches v) : maps'.Reaches v := by
  rw [LeafMaps.reaches_iff] at hv ⊢
  exact hv.trans_le (h.extent_le v)

end Advances

/-- The match of a tensor, carried over an edge to a neighbour. -/
def carried (f : Fusion) (maps : LeafMaps) (v : ValueId) (n : Neighbour) : AxisMap :=
  (((maps.get? v).getD {}).compose (f.bestEffortMap v n.tensor (edgePairs f v n))).filterImages
    (f.leaf n.tensor).contains

/-- A neighbour keeps a match that is as large as the one carried over, else it joins the queue. -/
theorem visitNeighbour_eq (f : Fusion) (v : ValueId) (maps : LeafMaps) (again : List ValueId)
    (n : Neighbour) :
    visitNeighbour f v (maps, again) n =
      if (carried f maps v n).size + 1 ≤ maps.extent n.tensor then (maps, again)
      else (maps.insert n.tensor (carried f maps v n), again ++ [n.tensor]) := by
  unfold visitNeighbour LeafMaps.extent carried
  dsimp only
  cases maps.get? n.tensor with
  | none => simp
  | some known => simp

/-- What the visits of some neighbours of a tensor lead to. -/
structure Visits (f : Fusion) (reference : ValueId) (ns : List Neighbour) (maps maps' : LeafMaps)
    (again : List ValueId) : Prop where
  advances : Advances f maps maps' again
  allMatch : AllMatch f reference maps → AllMatch f reference maps'
  reaches : ∀ n ∈ ns, maps'.Reaches n.tensor

/-- Visiting a neighbour queues it just if its map grows. -/
theorem visits_neighbour (f : Fusion) (reference v : ValueId) {n : Neighbour}
    (hn : f.HasValue n.tensor) (maps : LeafMaps) (again : List ValueId) :
    ∃ maps' new, visitNeighbour f v (maps, again) n = (maps', again ++ new) ∧
      Visits f reference [n] maps maps' new := by
  rw [visitNeighbour_eq]
  split
  case isTrue hle =>
      refine ⟨maps, [], by rw [List.append_nil], .refl f maps, id, ?_⟩
      rw [List.forall_mem_singleton, LeafMaps.reaches_iff]
      omega
  case isFalse hlt =>
      refine ⟨_, _, rfl, .insert hn (Nat.lt_of_not_le hlt), fun h => ?_, ?_⟩
      · exact h.insert ((h.getD v).carry _ n.tensor)
      · rw [List.forall_mem_singleton, LeafMaps.reaches_insert]
        exact .inl rfl

/-- Visiting all neighbours, one after another. -/
theorem visits_neighbours (f : Fusion) (reference v : ValueId) {ns : List Neighbour}
    (hns : ∀ n ∈ ns, f.HasValue n.tensor) (maps : LeafMaps) (again : List ValueId) :
    ∃ maps' new, ns.foldl (visitNeighbour f v) (maps, again) = (maps', again ++ new) ∧
      Visits f reference ns maps maps' new := by
  induction ns generalizing maps again with
  | nil => exact ⟨maps, [], by simp, .refl f maps, id, fun _ h => (nomatch h)⟩
  | cons n ns ih =>
      obtain ⟨hn, hns⟩ := List.forall_mem_cons.1 hns
      obtain ⟨maps₁, new₁, heq₁, h₁⟩ := visits_neighbour f reference v hn maps again
      obtain ⟨maps₂, new₂, heq₂, h₂⟩ := ih hns maps₁ (again ++ new₁)
      refine ⟨maps₂, new₁ ++ new₂, by rw [List.foldl_cons, heq₁, heq₂, List.append_assoc], ?_, ?_, ?_⟩
      · exact h₁.advances.trans h₂.advances
      · exact fun h => h₂.allMatch (h₁.allMatch h)
      · refine List.forall_mem_cons.2 ⟨?_, h₂.reaches⟩
        exact h₂.advances.reaches (h₁.reaches n List.mem_cons_self)

/-- The matches after a visit, and the tensors that join the queue. -/
def visit (f : Fusion) (maps : LeafMaps) (v : ValueId) : LeafMaps × List ValueId :=
  (neighbours f v).foldl (visitNeighbour f v) (maps, [])

/-- A visit of a tensor is one of all its neighbours. -/
theorem visits_visit (f : Fusion) (reference : ValueId) (maps : LeafMaps) (v : ValueId) :
    Visits f reference (neighbours f v) maps (visit f maps v).1 (visit f maps v).2 := by
  have hns : ∀ n ∈ neighbours f v, f.HasValue n.tensor := fun n hn =>
    (adjacent_iff.2 ⟨n, hn, rfl⟩ : Adjacent f v n.tensor).hasValue
  obtain ⟨maps', new, heq, h⟩ := visits_neighbours f reference v hns maps []
  rw [visit, heq]
  exact h

/-! ## The search -/

/-- One step of the search: the first tensor of the queue is visited. -/
def visitFirst (f : Fusion) : LeafMaps × List ValueId → LeafMaps × List ValueId
  | (maps, []) => (maps, [])
  | (maps, v :: queue) => ((visit f maps v).1, queue ++ (visit f maps v).2)

/-- A tensor that is reached either waits in the queue, or all its neighbours are reached. -/
def ClosedBut (f : Fusion) (queue : List ValueId) (maps : LeafMaps) : Prop :=
  ∀ v, maps.Reaches v → v ∉ queue → ∀ w, Adjacent f v w → maps.Reaches w

/-- After a visit, the maps are closed but for what is still queued. -/
theorem ClosedBut.visit (h : ClosedBut f (v :: queue) maps) :
    ClosedBut f (queue ++ (visit f maps v).2) (visit f maps v).1 := by
  have hvisit := visits_visit f v maps v
  intro u hu hqueue w huw
  rw [List.mem_append, not_or] at hqueue
  by_cases huv : u = v
  · obtain ⟨n, hn, rfl⟩ := adjacent_iff.1 (huv ▸ huw)
    exact hvisit.reaches n hn
  · have hold : maps.Reaches u := by
      unfold LeafMaps.Reaches at hu ⊢
      rwa [hvisit.advances.keeps u hqueue.2] at hu
    have hwaits : u ∉ v :: queue := by simp [huv, hqueue.1]
    exact hvisit.advances.reaches (h u hold hwaits w huw)

/-- With a bound that leaves room for every tensor to join the queue as often as its match can grow,
the search ends with an empty queue. -/
theorem growMatches_spec {fuel : Nat} (hmatch : AllMatch f reference maps)
    (hclosed : ClosedBut f queue maps)
    (hfuel : queue.length + f.values.size * ((f.leaf reference).length + 1) ≤
      fuel + maps.total f) :
    (∃ n ≤ fuel, (visitFirst f)^[n] (maps, queue) = (growMatches f fuel maps queue, [])) ∧
      AllMatch f reference (growMatches f fuel maps queue) ∧
      ClosedBut f [] (growMatches f fuel maps queue) ∧
      ∀ v, maps.Reaches v → (growMatches f fuel maps queue).Reaches v := by
  induction fuel generalizing maps queue with
  | zero =>
      have hfull := hmatch.total_le
      obtain rfl : queue = [] := List.length_eq_zero_iff.1 (by omega)
      exact ⟨⟨0, le_rfl, rfl⟩, hmatch, hclosed, fun _ => id⟩
  | succ fuel ih =>
      cases queue with
      | nil => exact ⟨⟨0, Nat.zero_le _, rfl⟩, hmatch, hclosed, fun _ => id⟩
      | cons v queue =>
          have hvisit := visits_visit f reference maps v
          have htotal := hvisit.advances.total
          have hroom : (queue ++ (Schedule.visit f maps v).2).length +
              f.values.size * ((f.leaf reference).length + 1) ≤
                fuel + (Schedule.visit f maps v).1.total f := by
            rw [List.length_cons] at hfuel
            rw [List.length_append]
            omega
          obtain ⟨⟨n, hn, hrun⟩, hends⟩ := ih (hvisit.allMatch hmatch) hclosed.visit hroom
          have hstep : growMatches f (fuel + 1) maps (v :: queue) = growMatches f fuel
              (Schedule.visit f maps v).1 (queue ++ (Schedule.visit f maps v).2) := rfl
          rw [hstep]
          refine ⟨⟨n + 1, Nat.succ_le_succ hn, ?_⟩, hends.1, hends.2.1, fun w hw => ?_⟩
          · rw [Function.iterate_succ_apply]
            exact hrun
          · exact hends.2.2 w (hvisit.advances.reaches hw)

/-- At the start the reference is matched with itself. -/
def startMaps (f : Fusion) (reference : ValueId) : LeafMaps :=
  [(reference, .identity (f.leaf reference))]

/-- At the start only the reference has a map. -/
theorem startMaps_eq (f : Fusion) (reference : ValueId) :
    startMaps f reference = LeafMaps.insert [] reference (.identity (f.leaf reference)) :=
  rfl

/-- The map of the reference matches. -/
theorem allMatch_startMaps (f : Fusion) (reference : ValueId) :
    AllMatch f reference (startMaps f reference) := by
  rw [startMaps_eq]
  refine AllMatch.insert (fun _ _ h => ?_) (matches_identity f reference)
  cases h

/-- Only the reference is reached. -/
theorem reaches_startMaps : (startMaps f reference).Reaches v ↔ v = reference := by
  rw [startMaps_eq, LeafMaps.reaches_insert, or_iff_left]
  rintro ⟨m, hm⟩
  cases hm

/-- At the start everything but the reference is closed. -/
theorem closedBut_startMaps (f : Fusion) (reference : ValueId) :
    ClosedBut f [reference] (startMaps f reference) := by
  intro v hv hwaits
  rw [reaches_startMaps] at hv
  exact absurd (List.mem_singleton.2 hv) hwaits

/-- The search for corresponding leaves ends on every graph, cycles between producers and consumers
included: after as many visits as its bound allows at most, the queue is empty.  In every visit just
those tensors join the queue whose match becomes larger.  At the end every tensor that is connected
with the reference has a match, from leaves of the reference to its own leaves. -/
theorem leafCorrespondence_complete (f : Fusion) (reference : ValueId) :
    (∃ n ≤ visitBound f reference, (visitFirst f)^[n] (startMaps f reference, [reference]) =
      (leafCorrespondence f reference, [])) ∧
    (∀ maps v queue, ∃ maps' again, visitFirst f (maps, v :: queue) = (maps', queue ++ again) ∧
      ∀ t, (t ∈ again → maps.extent t < maps'.extent t) ∧
        (t ∉ again → maps'.get? t = maps.get? t)) ∧
    ∀ v, ReflTransGen (Adjacent f) reference v →
      ∃ m, (leafCorrespondence f reference).get? v = some m ∧
        ∀ p ∈ m.pairs, p.1 ∈ f.leaf reference ∧ p.2 ∈ f.leaf v := by
  have hroom : [reference].length + f.values.size * ((f.leaf reference).length + 1) ≤
      visitBound f reference + (startMaps f reference).total f := by
    have hbound : f.values.size * ((f.leaf reference).length + 1) ≤
        f.values.size * ((f.view reference).ndims + 2) := Nat.mul_le_mul_left _ (Nat.le_succ _)
    rw [visitBound, List.length_singleton]
    omega
  obtain ⟨hends, hmatch, hclosed, hreaches⟩ := growMatches_spec
    (allMatch_startMaps f reference) (closedBut_startMaps f reference) hroom
  refine ⟨hends, fun maps v queue => ?_, fun v hv => ?_⟩
  · have hvisit := (visits_visit f reference maps v).advances
    exact ⟨_, _, rfl, fun t => ⟨hvisit.grows t, hvisit.keeps t⟩⟩
  · have hreached : (leafCorrespondence f reference).Reaches v := by
      induction hv with
      | refl => exact hreaches reference (reaches_startMaps.2 rfl)
      | tail _ h ih => exact hclosed _ ih List.not_mem_nil _ h
    obtain ⟨m, hm⟩ := hreached
    have hleaves := hmatch v m hm
    refine ⟨m, hm, fun p hp => ⟨hleaves.keys p.1 ?_, hleaves.images p.2 ?_⟩⟩
    · exact List.mem_map_of_mem hp
    · exact List.mem_map_of_mem hp

end Schedule
end FusionCompiler
