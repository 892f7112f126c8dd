import Mathlib
import FusionCompiler.Proofs.Schedule.ConsistentGraphs
import FusionCompiler.Proofs.Segment.Planning

/-!
# Exhausted merges

A merge is taken only if it saves something, but every merge does: the boundary of
a union crosses no border that the boundaries of its parts do not cross, and one
launch becomes unnecessary.  What keeps two groups of a finished plan apart is
therefore a path between them through a third group, or that no schedule accepts
their union.

The last pass looks at every pair and starts again after each merge, with one group
less.  So it ends with groups of which it has just tried every pair.

Main results:

- Theorem `Segment.Context.launchCost_le_mergeSaving`: merging saves at least a
  launch.
- Theorem `Segment.Context.exists_path_of_reaches`: what a search finds is connected
  by a path.
- Theorem `Segment.Context.bestMerge?_mergePass`: a pass ends when no merge is left.
- Theorem `Segment.Plan.make_exhausted`: in a plan of several groups any two are
  connected through a third one, or no schedule accepts their union.
-/

namespace FusionCompiler
namespace Segment

open Relation

/-! ## What a merge saves -/

namespace CostModel

variable {m : CostModel} {f : Fusion} {sizes : Sizes} {v : ValueId}

/-- The traffic of a list of tensors. -/
def traffic (m : CostModel) (l : List ValueId) : Nat :=
  (l.map m.tensorBytes).sum

theorem segmentCost_eq (m : CostModel) (io : Boundary) :
    m.segmentCost io = kernelLaunchCost + (m.traffic io.inputs + m.traffic io.outputs) := by
  have hfold : ∀ (l : List ValueId) (n : Nat),
      l.foldl (fun cost v => cost + m.tensorBytes v) n = n + m.traffic l := by
    intro l
    induction l with
    | nil => simp [traffic]
    | cons v l ih =>
        intro n
        rw [List.foldl_cons, ih]
        simp [traffic, Nat.add_assoc]
  rw [segmentCost, hfold]
  simp [traffic]

/-- Scalars are free. -/
theorem tensorBytes_ofSizes (h : f.isTensor v = false) : (ofSizes f sizes).tensorBytes v = 0 := by
  have hnone : (ofSizes f sizes).bytes.lookup v = none := by
    rw [List.lookup_eq_none_iff]
    intro p hp
    obtain ⟨u, hu, rfl⟩ := List.mem_map.1 hp
    have hut := (Fusion.mem_allTensors.1 hu).2
    have hne : v ≠ u := by
      rintro rfl
      simp [h] at hut
    simpa using hne
  simp [tensorBytes, hnone]

/-- Tensors that are listed once, each also in one of two other lists, cause no more traffic than
those lists do. -/
theorem traffic_le_of_subset {l a b : List ValueId} (hnodup : l.Nodup)
    (hsub : ∀ v ∈ l, v ∈ a ∨ v ∈ b) : m.traffic l ≤ m.traffic a + m.traffic b := by
  have hsub' : l ⊆ a ++ b := fun v hv => List.mem_append.2 (hsub v hv)
  obtain ⟨l', hperm, hsublist⟩ := List.subperm_of_subset hnodup hsub'
  calc m.traffic l = m.traffic l' := (hperm.map _).sum_eq.symm
    _ ≤ m.traffic (a ++ b) := (hsublist.map _).sum_le_sum fun _ _ => Nat.zero_le _
    _ = m.traffic a + m.traffic b := by simp [traffic]

end CostModel

namespace Context

variable {c : Context} {groups : List Group} {xs ys zs : List ExprId} {i j : Nat}

/-- Of what a segment reads only the tensors cost something, and each is listed once. -/
theorem exists_inputs_traffic (hfree : ∀ v, c.fusion.isTensor v = false → c.cost.tensorBytes v = 0)
    (exprs : List ExprId) :
    ∃ read : List ValueId, read.Nodup ∧
      (∀ v ∈ read, v ∈ (c.io exprs).inputs ∧ c.fusion.isTensor v = true) ∧
      c.cost.traffic (c.io exprs).inputs = c.cost.traffic read := by
  let outside := (exprs.flatMap fun e => (c.fusion.expr e).inputs).filter fun v =>
    c.fusion.isTensor v && !isInternal c.fusion exprs v
  let scalars := c.fusion.inputs.filter fun v => !c.fusion.isTensor v
  have hinputs : (c.io exprs).inputs = outside.foldl Fusion.addNew [] ++ scalars := rfl
  have hscalars : c.cost.traffic scalars = 0 := by
    apply List.sum_eq_zero
    intro n hn
    obtain ⟨v, hv, rfl⟩ := List.mem_map.1 hn
    apply hfree
    simpa using (List.mem_filter.1 hv).2
  refine ⟨outside.foldl Fusion.addNew [], Fusion.nodup_foldl_addNew List.nodup_nil, ?_, ?_⟩
  · intro v hv
    refine ⟨by simp [hinputs, hv], ?_⟩
    simp only [Fusion.mem_foldl_addNew, List.not_mem_nil, false_or] at hv
    simpa using (Bool.and_eq_true_iff.1 (List.mem_filter.1 hv).2).1
  · rw [hinputs, CostModel.traffic, List.map_append, List.sum_append]
    exact Nat.add_eq_left.2 hscalars

/-- A union reads tensors that one of its parts reads. -/
theorem inputs_traffic_le (hfree : ∀ v, c.fusion.isTensor v = false → c.cost.tensorBytes v = 0)
    (hunion : ∀ e, e ∈ zs ↔ e ∈ xs ∨ e ∈ ys) :
    c.cost.traffic (c.io zs).inputs ≤
      c.cost.traffic (c.io xs).inputs + c.cost.traffic (c.io ys).inputs := by
  obtain ⟨read, hnodup, hread, heq⟩ := exists_inputs_traffic hfree zs
  rw [heq]
  apply CostModel.traffic_le_of_subset hnodup
  intro v hv
  obtain ⟨hmem, ht⟩ := hread v hv
  rcases mem_boundary_inputs.1 hmem with ⟨-, ⟨e, he, hev⟩, hout⟩ | ⟨-, hscalar⟩
  · have hx : ∀ d ∈ xs, c.fusion.definition v ≠ some d := fun d hd => hout d ((hunion d).2 (.inl hd))
    have hy : ∀ d ∈ ys, c.fusion.definition v ≠ some d := fun d hd => hout d ((hunion d).2 (.inr hd))
    rcases (hunion e).1 he with he | he
    · exact .inl (mem_boundary_inputs.2 (.inl ⟨ht, ⟨e, he, hev⟩, hx⟩))
    · exact .inr (mem_boundary_inputs.2 (.inl ⟨ht, ⟨e, he, hev⟩, hy⟩))
  · simp [hscalar] at ht

/-- A union hands out tensors that one of its parts hands out. -/
theorem outputs_traffic_le (hunion : ∀ e, e ∈ zs ↔ e ∈ xs ∨ e ∈ ys) :
    c.cost.traffic (c.io zs).outputs ≤
      c.cost.traffic (c.io xs).outputs + c.cost.traffic (c.io ys).outputs := by
  apply CostModel.traffic_le_of_subset
  · exact Fusion.nodup_foldl_addNew List.nodup_nil
  · intro v hv
    obtain ⟨ht, ⟨e, he, hev⟩, hescapes⟩ := mem_boundary_outputs.1 hv
    have hx : v ∈ c.fusion.outputs ∨ ∃ u ∈ c.fusion.uses v, u ∈ c.order ∧ u ∉ xs :=
      hescapes.imp_right fun ⟨u, huse, hu, hnot⟩ => ⟨u, huse, hu, fun h => hnot ((hunion u).2 (.inl h))⟩
    have hy : v ∈ c.fusion.outputs ∨ ∃ u ∈ c.fusion.uses v, u ∈ c.order ∧ u ∉ ys :=
      hescapes.imp_right fun ⟨u, huse, hu, hnot⟩ => ⟨u, huse, hu, fun h => hnot ((hunion u).2 (.inr h))⟩
    rcases (hunion e).1 he with he | he
    · exact .inl (mem_boundary_outputs.2 ⟨ht, ⟨e, he, hev⟩, hx⟩)
    · exact .inr (mem_boundary_outputs.2 ⟨ht, ⟨e, he, hev⟩, hy⟩)

/-- Merging saves at least a launch. -/
theorem launchCost_le_mergeSaving
    (hfree : ∀ v, c.fusion.isTensor v = false → c.cost.tensorBytes v = 0)
    (hunion : ∀ e, e ∈ zs ↔ e ∈ xs ∨ e ∈ ys) :
    (kernelLaunchCost : Int) ≤ c.cost.mergeSaving (c.io xs) (c.io ys) (c.io zs) := by
  have hin := inputs_traffic_le hfree hunion
  have hout := outputs_traffic_le (c := c) hunion
  simp only [CostModel.mergeSaving, CostModel.segmentCost_eq]
  omega

/-- In a context that is made for a fusion, scalars are free. -/
theorem free_of_make {f : Fusion} {args : Arguments} (h : Context.make f args = .ok c) {v : ValueId}
    (hv : c.fusion.isTensor v = false) : c.cost.tensorBytes v = 0 := by
  unfold Context.make at h
  obtain ⟨b, -, h⟩ := Results.bind_eq_ok.1 h
  cases h
  exact CostModel.tensorBytes_ofSizes hv

/-! ## What a search finds -/

/-- What a search finds is connected by a path with something on the work list. -/
theorem exists_path_of_reaches {table : Array (List Nat)} {goal fuel : Nat} {seen work : List Nat}
    (h : reaches table goal fuel seen work = true) :
    ∃ s ∈ work, ReflTransGen (fun i j => j ∈ table.getD i []) s goal := by
  induction fuel generalizing seen work with
  | zero => simp [reaches] at h
  | succ fuel ih =>
      cases work with
      | nil => simp [reaches] at h
      | cons g rest =>
          by_cases hgoal : g = goal
          · exact ⟨g, by simp, hgoal ▸ .refl⟩
          by_cases hseen : seen.contains g = true
          · rw [reaches, if_neg hgoal, if_pos hseen] at h
            obtain ⟨s, hs, hpath⟩ := ih h
            exact ⟨s, by simp [hs], hpath⟩
          · rw [reaches, if_neg hgoal, if_neg hseen] at h
            obtain ⟨s, hs, hpath⟩ := ih h
            rcases List.mem_append.1 hs with hs | hs
            · exact ⟨g, by simp, hpath.head hs⟩
            · exact ⟨s, by simp [hs], hpath⟩

/-- A path from one group to another passes through a third one. -/
def Between (c : Context) (groups : List Group) (i j : Nat) : Prop :=
  ∃ k, k ≠ i ∧ k ≠ j ∧ TransGen (c.Precedes groups) i k ∧ TransGen (c.Precedes groups) k j

theorem Divides.between_of_passesThird (h : c.Divides groups) (hc : c.Proper)
    (hpasses : passesThird (c.consumerTable groups) i j = true) : c.Between groups i j := by
  have hrelation : (fun i j => j ∈ (c.consumerTable groups).getD i []) = c.Precedes groups := by
    funext i j
    exact propext (h.mem_consumerTable hc)
  obtain ⟨s, hs, hpath⟩ := exists_path_of_reaches hpasses
  rw [hrelation] at hpath
  obtain ⟨hs, hne⟩ := List.mem_filter.1 hs
  have hprecedes := (h.mem_consumerTable hc).1 hs
  have hsj : s ≠ j := by simpa using hne
  have hpath' : TransGen (c.Precedes groups) s j := by
    rcases reflTransGen_iff_eq_or_transGen.1 hpath with heq | hpath
    · exact absurd heq.symm hsj
    · exact hpath
  exact ⟨s, hprecedes.1.symm, hsj, .single hprecedes, hpath'⟩

/-- A merge that would create a cycle joins groups that are connected through a third one. -/
theorem Divides.between_of_createsCycle (h : c.Divides groups) (hc : c.Proper)
    (hcycle : createsCycle (c.consumerTable groups) i j = true) :
    c.Between groups i j ∨ c.Between groups j i :=
  (Bool.or_eq_true_iff.1 hcycle).imp (h.between_of_passesThird hc) (h.between_of_passesThird hc)

/-! ## The end of a pass -/

/-- Each merge makes one group less. -/
theorem length_of_bestMerge? {kind : MergeKind} {merged : List Group}
    (h : c.bestMerge? groups kind = some merged) : merged.length + 1 = groups.length := by
  obtain ⟨a, b, params, hab, hb, -, rfl⟩ := bestMerge?_eq_some h
  have ha : (c.candidate groups a b).second < (groups.set (c.candidate groups a b).first
      ⟨(c.candidate groups a b).exprs, (c.candidate groups a b).io, params⟩).length := by
    simpa [candidate] using hb
  rw [applyMerge, List.length_eraseIdx_of_lt ha, List.length_set]
  omega

/-- A pass ends when no merge is left. -/
theorem bestMerge?_mergePass {kind : MergeKind} {fuel : Nat} (hfuel : groups.length ≤ fuel) :
    c.bestMerge? (c.mergePass kind fuel groups) kind = none := by
  induction fuel generalizing groups with
  | zero =>
      cases hmerge : c.bestMerge? groups kind with
      | none => exact hmerge
      | some merged =>
          have hlength := length_of_bestMerge? hmerge
          omega
  | succ fuel ih =>
      unfold mergePass
      cases hmerge : c.bestMerge? groups kind with
      | none => exact hmerge
      | some merged =>
          have hlength := length_of_bestMerge? hmerge
          apply ih
          omega

/-- Where the last pass finds no merge, every pair is connected through a third group, saves
nothing, or is refused by every schedule. -/
theorem exhausted_of_bestMerge? (h : c.bestMerge? groups .final = none) (hij : i < j)
    (hj : j < groups.length) :
    createsCycle (c.consumerTable groups) i j = true ∨ (c.candidate groups i j).saving ≤ 0 ∨
      ∃ e, c.propose (c.candidate groups i j).exprs (c.candidate groups i j).io = .error e := by
  by_cases hcycle : createsCycle (c.consumerTable groups) i j = true
  · exact .inl hcycle
  by_cases hsaving : (c.candidate groups i j).saving ≤ 0
  · exact .inr (.inl hsaving)
  have hpair : (i, j) ∈ pairs groups.length := by
    simp only [pairs, List.mem_flatMap, List.mem_map, List.mem_filter, List.mem_range]
    exact ⟨i, by omega, j, ⟨hj, by simpa using hij⟩, rfl⟩
  have hmem : c.candidate groups i j ∈ c.candidates .final groups := by
    simp only [candidates, List.mem_mergeSort, List.mem_filter, List.mem_map]
    refine ⟨⟨(i, j), ⟨hpair, ?_⟩, rfl⟩, by simpa using hsaving⟩
    simpa [accepts] using hcycle
  have hnone := List.findSome?_eq_none_iff.1 h _ hmem
  cases hpropose : c.propose (c.candidate groups i j).exprs (c.candidate groups i j).io with
  | error e => exact .inr (.inr ⟨e, rfl⟩)
  | ok params => simp [hpropose] at hnone

/-- The expressions of two groups, in order. -/
def union (c : Context) (x y : Group) : List ExprId :=
  (x.exprs ++ y.exprs).mergeSort fun d e => c.order.idxOf d ≤ c.order.idxOf e

theorem union_perm (c : Context) (x y : Group) : (c.union x y).Perm (x.exprs ++ y.exprs) :=
  List.mergeSort_perm _ _

theorem mem_union {x y : Group} {e : ExprId} : e ∈ c.union x y ↔ e ∈ x.exprs ∨ e ∈ y.exprs := by
  rw [(union_perm c x y).mem_iff, List.mem_append]

theorem union_sorted (c : Context) (x y : Group) :
    (c.union x y).Pairwise fun d e => c.order.idxOf d ≤ c.order.idxOf e := by
  apply (List.pairwise_mergeSort (fun _ _ _ => ?_) (fun _ _ => ?_) _).imp
  · simp
  · simpa using Nat.le_trans
  · simpa using Nat.le_total _ _

/-- Two groups of a division have one union, whichever of them comes first. -/
theorem Divides.union_comm (h : c.Divides groups) {x y : Group} (hx : x ∈ groups)
    (hy : y ∈ groups) : c.union y x = c.union x y := by
  apply List.Perm.eq_of_pairwise _ (union_sorted c y x) (union_sorted c x y)
  · exact (union_perm c y x).trans (List.perm_append_comm.trans (union_perm c x y).symm)
  · intro d e hd _ hle hge
    have hmem : d ∈ c.order :=
      (mem_union.1 hd).elim (fun hd => h.mem_order hy hd) fun hd => h.mem_order hx hd
    exact (List.idxOf_inj hmem).1 (Nat.le_antisymm hle hge)

/-- Where the last pass finds no merge, groups are connected through a third one or no schedule
accepts their union. -/
theorem Divides.apart_of_bestMerge? (hdivides : c.Divides groups) (hc : c.Proper)
    (hfree : ∀ v, c.fusion.isTensor v = false → c.cost.tensorBytes v = 0)
    (h : c.bestMerge? groups .final = none) {x y : Group} (hij : i ≠ j)
    (hx : groups[i]? = some x) (hy : groups[j]? = some y) :
    c.Between groups i j ∨ c.Between groups j i ∨
      ∃ e, c.propose (c.union x y) (c.io (c.union x y)) = .error e := by
  wlog hlt : i < j generalizing i j x y
  · have hswap := this hij.symm hy hx (by omega)
    rw [hdivides.union_comm (List.mem_of_getElem? hx) (List.mem_of_getElem? hy)] at hswap
    tauto
  have hj : j < groups.length := (List.getElem?_eq_some_iff.1 hy).1
  have hcandidate : c.candidate groups i j = ⟨c.cost.mergeSaving (c.io x.exprs) (c.io y.exprs)
      (c.io (c.union x y)), i, j, c.union x y, c.io (c.union x y)⟩ := by
    simp [candidate, union, List.getD_eq_getElem?_getD, hx, hy,
      ← hdivides.io x (List.mem_of_getElem? hx), ← hdivides.io y (List.mem_of_getElem? hy)]
  rcases exhausted_of_bestMerge? h hlt hj with hcycle | hsaving | hrefused
  · have hbetween := hdivides.between_of_createsCycle hc hcycle
    tauto
  · have hsome : (kernelLaunchCost : Int) ≤
        c.cost.mergeSaving (c.io x.exprs) (c.io y.exprs) (c.io (c.union x y)) :=
      launchCost_le_mergeSaving hfree fun e => mem_union
    rw [hcandidate] at hsaving
    simp only [kernelLaunchCost] at hsome
    dsimp only at hsaving
    omega
  · rw [hcandidate] at hrefused
    exact .inr (.inr hrefused)

/-! ## The order of the groups does not matter -/

section Moved

variable {groups' : List Group} {σ : Nat → Nat}

theorem Divides.precedes_moved (h : c.Divides groups) (h' : c.Divides groups') (hc : c.Proper)
    (hmoved : ∀ k g, groups[k]? = some g → groups'[σ k]? = some g)
    (hij : c.Precedes groups i j) : c.Precedes groups' (σ i) (σ j) := by
  obtain ⟨hne, d, e, hd, he, hfeeds⟩ := hij
  obtain ⟨x, hx, hdx⟩ := (h.groupOf?_eq_some hc).1 hd
  obtain ⟨y, hy, hey⟩ := (h.groupOf?_eq_some hc).1 he
  refine ⟨fun heq => hne ?_, d, e, ?_, ?_, hfeeds⟩
  · -- at one place there is one group
    have hxy : some x = some y := by rw [← hmoved i x hx, ← hmoved j y hy, heq]
    cases hxy
    exact h.eq_of_mem hc hx hy hdx hdx
  · exact (h'.groupOf?_eq_some hc).2 ⟨x, hmoved i x hx, hdx⟩
  · exact (h'.groupOf?_eq_some hc).2 ⟨y, hmoved j y hy, hey⟩

theorem Divides.between_moved (h : c.Divides groups) (h' : c.Divides groups') (hc : c.Proper)
    (hmoved : ∀ k g, groups[k]? = some g → groups'[σ k]? = some g)
    (hinj : ∀ k l, k < groups.length → l < groups.length → σ k = σ l → k = l)
    (hi : i < groups.length) (hj : j < groups.length) (hij : c.Between groups i j) :
    c.Between groups' (σ i) (σ j) := by
  obtain ⟨k, hki, hkj, hik, hkj'⟩ := hij
  have hk : k < groups.length := by
    obtain ⟨l, -, -, -, e, -, he, -⟩ := TransGen.tail'_iff.1 hik
    exact lt_of_groupOf? he
  have hlift := fun i j => h.precedes_moved (i := i) (j := j) h' hc hmoved
  exact ⟨σ k, fun heq => hki (hinj k i hk hi heq), fun heq => hkj (hinj k j hk hj heq),
    hik.lift σ hlift, hkj'.lift σ hlift⟩

end Moved

/-- In a finished plan, groups that no merge joins are connected through a third one, or no
schedule accepts their union. -/
theorem Reached.finish_apart (h : c.Reached groups) (hc : c.Proper)
    (hfree : ∀ v, c.fusion.isTensor v = false → c.cost.tensorBytes v = 0)
    (hlast : c.bestMerge? groups .final = none) {x y : Group} (hij : i ≠ j)
    (hx : (c.finish groups).groups[i]? = some x) (hy : (c.finish groups).groups[j]? = some y) :
    c.Between (c.finish groups).groups i j ∨ c.Between (c.finish groups).groups j i ∨
      ∃ e, c.propose (c.union x y) (c.io (c.union x y)) = .error e := by
  obtain ⟨hdivides, hacyclic⟩ := h.acyclic hc
  have hdivides' := h.finish_divides hc
  obtain ⟨sorted, hgroups, hperm, -⟩ := finish_groups hacyclic hdivides hc
  rw [hgroups] at hx hy hdivides' ⊢
  have hnodup : sorted.Nodup := hperm.nodup_iff.2 List.nodup_range
  have hmem : ∀ k, k ∈ sorted ↔ k < groups.length := fun k => hperm.mem_iff.trans List.mem_range
  -- a group is found again where its old position is listed
  have hmoved : ∀ k g, groups[k]? = some g →
      (sorted.map (groups.getD · default))[sorted.idxOf k]? = some g := by
    intro k g hk
    have hks : k ∈ sorted := (hmem k).2 (List.getElem?_eq_some_iff.1 hk).1
    simp [List.getElem?_idxOf hks, List.getD_eq_getElem?_getD, hk]
  have hinj : ∀ k l, k < groups.length → l < groups.length → sorted.idxOf k = sorted.idxOf l →
      k = l :=
    fun k l hk _ heq => (List.idxOf_inj ((hmem k).2 hk)).1 heq
  have hold : ∀ {k g}, (sorted.map (groups.getD · default))[k]? = some g →
      ∃ a, sorted.idxOf a = k ∧ groups[a]? = some g := by
    intro k g hk
    obtain ⟨a, ha, hg⟩ := List.getElem?_map ▸ hk |> Option.map_eq_some_iff.1
    obtain ⟨hlt, rfl⟩ := List.getElem?_eq_some_iff.1 ha
    have halt : sorted[k] < groups.length := (hmem _).1 (List.getElem_mem hlt)
    refine ⟨sorted[k], hnodup.idxOf_getElem k hlt, ?_⟩
    rw [List.getElem?_eq_getElem halt, ← hg, List.getD_eq_getElem?_getD,
      List.getElem?_eq_getElem halt, Option.getD_some]
  obtain ⟨a, rfl, ha⟩ := hold hx
  obtain ⟨b, rfl, hb⟩ := hold hy
  have halt := (List.getElem?_eq_some_iff.1 ha).1
  have hblt := (List.getElem?_eq_some_iff.1 hb).1
  have hab : a ≠ b := by
    rintro rfl
    exact hij rfl
  rcases hdivides.apart_of_bestMerge? hc hfree hlast hab ha hb with hpath | hpath | hrefused
  · exact .inl (hdivides.between_moved hdivides' hc hmoved hinj halt hblt hpath)
  · exact .inr (.inl (hdivides.between_moved hdivides' hc hmoved hinj hblt halt hpath))
  · exact .inr (.inr hrefused)

/-- The context of a regular fusion. -/
theorem proper_of_make {f : Fusion} {args : Arguments} (hf : Fusion.Regular f)
    (h : Context.make f args = .ok c) : c.Proper := by
  unfold Context.make at h
  obtain ⟨b, -, h⟩ := Results.bind_eq_ok.1 h
  cases h
  exact ⟨rfl, hf.sound, hf.wired⟩

end Context

namespace Plan

open Fusion (Step performAll)

variable {f : Fusion} {args : Arguments} {p : Plan} {c : Context}

/-- A plan of several groups is finished when the last pass finds no merge. -/
theorem exists_last (hf : Fusion.Regular f) (hmake : Context.make f args = .ok c)
    (h : Plan.make f args = .ok p) (hmany : 1 < p.groups.length) :
    ∃ groups, c.Reached groups ∧ c.bestMerge? groups .final = none ∧ p = c.finish groups := by
  have hc := Context.proper_of_make hf hmake
  have hfusion : c.fusion = f ∧ c.args = args := by
    have hmake := hmake
    unfold Context.make at hmake
    obtain ⟨b, -, hmake⟩ := Results.bind_eq_ok.1 hmake
    cases hmake
    exact ⟨rfl, rfl⟩
  unfold Plan.make at h
  obtain ⟨c', hmake', h⟩ := Results.bind_eq_ok.1 h
  cases hmake.symm.trans hmake'
  split at h
  case h_1 params hparams =>
      cases h
      rw [← hfusion.1, ← hfusion.2] at hparams
      have hlength := ((Context.Reached.whole hparams).finish_perm hc).length_eq
      rw [← hfusion.1, hlength] at hmany
      simp at hmany
  case h_2 =>
      obtain ⟨groups, hgroups, h⟩ := Results.bind_eq_ok.1 h
      cases h
      refine ⟨_, (((Context.Reached.seed hgroups).mergePass _ _).mergePass _ _).mergePass _ _, ?_,
        rfl⟩
      exact Context.bestMerge?_mergePass (Nat.le_refl _)

/-- Dividing a fusion that calls, new axes and new tensors lead to stops only when nothing more can
be merged.  Merging any segments saves at least a launch, so that saving too little never keeps two
groups apart: if a plan has several groups, any two of them are connected by a path through a third
one or no schedule accepts their union. -/
theorem make_exhausted (steps : List Step)
    (hmake : Context.make (performAll steps {}) args = .ok c) :
    (∀ xs ys zs, (∀ e, e ∈ zs ↔ e ∈ xs ∨ e ∈ ys) →
      (kernelLaunchCost : Int) ≤ c.cost.mergeSaving (c.io xs) (c.io ys) (c.io zs)) ∧
    ∀ p, Plan.make (performAll steps {}) args = .ok p → 1 < p.groups.length →
      ∀ i j x y, i ≠ j → p.groups[i]? = some x → p.groups[j]? = some y →
        c.Between p.groups i j ∨ c.Between p.groups j i ∨
          ∃ e, c.propose (c.union x y) (c.io (c.union x y)) = .error e := by
  have hregular := Fusion.performAll_regular steps Fusion.regular_empty
  have hc := Context.proper_of_make hregular hmake
  have hfree := fun v => Context.free_of_make (v := v) hmake
  refine ⟨fun xs ys zs hunion => Context.launchCost_le_mergeSaving hfree hunion, ?_⟩
  intro p hp hmany i j x y hij hx hy
  obtain ⟨groups, hreached, hlast, rfl⟩ := exists_last hregular hmake hp hmany
  exact hreached.finish_apart hc hfree hlast hij hx hy

theorem negatedTwice_exhausted :
    ∃ c p x y, Context.make (performAll (negatedTwice.map .call) {})
        ⟨[(⟨0⟩, .contiguous .float [4])]⟩ = .ok c ∧
      Plan.make (performAll (negatedTwice.map .call) {}) ⟨[(⟨0⟩, .contiguous .float [4])]⟩ = .ok p ∧
      p.groups[0]? = some x ∧ p.groups[1]? = some y ∧
      (kernelLaunchCost : Int) ≤
        c.cost.mergeSaving (c.io x.exprs) (c.io y.exprs) (c.io (c.union x y)) ∧
      (c.Between p.groups 0 1 ∨ c.Between p.groups 1 0 ∨
        ∃ e, c.propose (c.union x y) (c.io (c.union x y)) = .error e) := by
  have hrun : (Plan.make (performAll (negatedTwice.map .call) {})
      ⟨[(⟨0⟩, .contiguous .float [4])]⟩).toOption.any (fun p => p.groups.length == 2) = true := by
    cbv
  obtain ⟨p, hp, hlength⟩ := (Option.any_eq_true _ _).1 hrun
  have hp := Results.ok_of_toOption hp
  have hlength : p.groups.length = 2 := by simpa using hlength
  obtain ⟨c, hmake, -⟩ := exists_reached hp
  have hmain := make_exhausted (negatedTwice.map .call) hmake
  refine ⟨c, p, p.groups[0], p.groups[1], hmake, hp, by simp [hlength], by simp [hlength], ?_, ?_⟩
  · exact hmain.1 _ _ _ fun e => Context.mem_union
  · exact hmain.2 p hp (by omega) 0 1 _ _ (by omega) (by simp [hlength]) (by simp [hlength])

end Plan
end Segment
end FusionCompiler
