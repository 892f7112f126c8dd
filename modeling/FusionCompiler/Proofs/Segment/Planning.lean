import Mathlib
import FusionCompiler.Proofs.Outcome
import FusionCompiler.Proofs.Schedule.ConsistentGraphs
import FusionCompiler.Proofs.Segment.GroupGraph

/-!
# Valid plans

A plan divides the tensor expressions of a fusion into groups.  It is valid if
the groups can be run one after the other: every tensor that a group reads and
that some expression computes is handed out by an earlier group.

Groups start as single expressions, and every merge keeps them a division whose
graph has no cycle.  In such a graph some pending group always has all its
producers behind it, so putting the groups in order never gets stuck.

Main results:

- Theorem `Segment.Context.Reached.acyclic`: whatever merges are taken, the graph
  of groups has no cycle.
- Theorem `Segment.Context.arrange_perm`: putting the groups of such a graph in
  order takes all of them, producers first.
- Theorem `Segment.Plan.make_valid`: every plan of a fusion that calls, new axes and
  new tensors lead to is valid, also after calls that failed.
-/

namespace FusionCompiler
namespace Segment

/-! ## Boundaries -/

section Boundary

variable {f : Fusion} {order exprs : List ExprId} {v : ValueId}

/-- A segment reads the tensors its expressions read and do not compute, and all scalar inputs. -/
theorem mem_boundary_inputs :
    v ∈ (boundary f order exprs).inputs ↔
      (f.isTensor v = true ∧ (∃ e ∈ exprs, v ∈ (f.expr e).inputs) ∧
        ∀ d ∈ exprs, f.definition v ≠ some d) ∨
      (v ∈ f.inputs ∧ f.isTensor v = false) := by
  have hinternal : isInternal f exprs v = false ↔ ∀ d ∈ exprs, f.definition v ≠ some d := by
    unfold isInternal
    cases hdef : f.definition v with
    | none => simp
    | some d =>
        simp only [List.contains_eq_mem, decide_eq_false_iff_not, ne_eq, Option.some.injEq]
        constructor
        · rintro hnot d' hmem rfl
          exact hnot hmem
        · exact fun h hmem => h d hmem rfl
  simp only [boundary, List.mem_append, Fusion.mem_foldl_addNew, List.not_mem_nil, false_or,
    List.mem_filter, List.mem_flatMap, Bool.and_eq_true, Bool.not_eq_true', hinternal]
  rw [← and_assoc, and_comm (a := ∃ e ∈ exprs, v ∈ (f.expr e).inputs), and_assoc]

/-- A segment hands out the tensors it computes that are outputs or read outside. -/
theorem mem_boundary_outputs :
    v ∈ (boundary f order exprs).outputs ↔
      f.isTensor v = true ∧ (∃ e ∈ exprs, v ∈ (f.expr e).outputs) ∧
        (v ∈ f.outputs ∨ ∃ u ∈ f.uses v, u ∈ order ∧ u ∉ exprs) := by
  simp only [boundary, escapes, Fusion.isOutput, Fusion.mem_foldl_addNew, List.not_mem_nil,
    false_or, List.mem_filter, List.mem_flatMap, Bool.and_eq_true, Bool.or_eq_true,
    List.contains_eq_mem, decide_eq_true_eq, List.any_eq_true, Bool.not_eq_true',
    decide_eq_false_iff_not]
  tauto

end Boundary

namespace Context

variable {c : Context} {groups : List Group} {i j : Nat}

/-! ## Groups that merges lead to -/

/-- The groups that dividing a fusion passes through: one group for a fusion that some schedule
accepts, or single expressions and whatever merges make of them. -/
inductive Reached (c : Context) : List Group → Prop where
  | whole {params : Heuristic.Params} (h : Heuristic.propose c.fusion c.args = .ok params) :
      Reached c [⟨c.fusion.tensorExprs, c.io c.fusion.tensorExprs, params⟩]
  | seed {groups : List Group} (h : c.seed = .ok groups) : Reached c groups
  | merge {groups merged : List Group} {kind : MergeKind} (h : Reached c groups)
      (hmerge : c.bestMerge? groups kind = some merged) : Reached c merged

/-- The candidate that is taken joins two groups and creates no cycle. -/
theorem bestMerge?_eq_some {kind : MergeKind} {merged : List Group}
    (h : c.bestMerge? groups kind = some merged) :
    ∃ a b params, a < b ∧ b < groups.length ∧
      createsCycle (c.consumerTable groups) a b = false ∧
      merged = applyMerge groups (c.candidate groups a b) params := by
  unfold bestMerge? at h
  obtain ⟨m, hm, hpropose⟩ := List.exists_of_findSome?_eq_some h
  unfold candidates at hm
  dsimp only at hm
  rw [List.mem_mergeSort] at hm
  obtain ⟨hm, -⟩ := List.mem_filter.1 hm
  obtain ⟨⟨a, b⟩, hpair, rfl⟩ := List.mem_map.1 hm
  obtain ⟨hpair, hlegal⟩ := List.mem_filter.1 hpair
  simp only [Bool.and_eq_true, Bool.not_eq_true'] at hlegal
  unfold pairs at hpair
  obtain ⟨a', -, hpair⟩ := List.mem_flatMap.1 hpair
  obtain ⟨b', hb, heq⟩ := List.mem_map.1 hpair
  cases heq
  obtain ⟨hb, hab⟩ := List.mem_filter.1 hb
  split at hpropose
  case h_1 params _ =>
      cases hpropose
      exact ⟨a, b, params, by simpa using hab, List.mem_range.1 hb, hlegal.2, rfl⟩
  case h_2 => cases hpropose

/-- One group for each tensor expression. -/
theorem seed_exprs (h : c.seed = .ok groups) :
    groups.map (·.exprs) = c.fusion.tensorExprs.map ([·]) ∧
      ∀ g ∈ groups, g.io = c.io g.exprs := by
  unfold seed at h
  generalize c.fusion.tensorExprs = l at h ⊢
  induction l generalizing groups with
  | nil =>
      cases h
      simp
  | cons e l ih =>
      rw [List.mapM_cons] at h
      obtain ⟨g, hg, h⟩ := Results.bind_eq_ok.1 h
      obtain ⟨rest, hrest, h⟩ := Results.bind_eq_ok.1 h
      obtain ⟨params, -, hg⟩ := Results.bind_eq_ok.1 hg
      cases h
      cases hg
      obtain ⟨hmap, hio⟩ := ih hrest
      refine ⟨by simp [hmap], fun g' hg' => ?_⟩
      rcases List.mem_cons.1 hg' with rfl | hg'
      · rfl
      · exact hio g' hg'

theorem seed_divides (hc : c.Proper) (h : c.seed = .ok groups) :
    c.Divides groups ∧ c.Acyclic groups := by
  obtain ⟨hmap, hio⟩ := seed_exprs h
  have hsingle : ∀ g ∈ groups, ∃ e, g.exprs = [e] := by
    intro g hg
    have hmem := List.mem_map_of_mem (f := (·.exprs)) hg
    rw [hmap] at hmem
    obtain ⟨e, -, he⟩ := List.mem_map.1 hmem
    exact ⟨e, he.symm⟩
  have hdivides : c.Divides groups := by
    refine ⟨?_, fun g hg => ?_, hio⟩
    · rw [List.flatMap_def, hmap, hc.order]
      refine List.Perm.of_eq ?_
      rw [← List.flatMap_def]
      simp
    · obtain ⟨e, he⟩ := hsingle g hg
      rw [he]
      exact List.pairwise_singleton _ _
  refine ⟨hdivides, ?_⟩
  -- the level of a group is that of its only expression
  obtain ⟨level, hlevel⟩ := hc.founded.exists_level
  refine ⟨fun i => level ((groups.getD i default).exprs.headD default), fun i j hij => ?_⟩
  obtain ⟨-, d, e, hd, he, hfeeds⟩ := hij
  have hhead : ∀ {k d}, groupOf? groups d = some k →
      (groups.getD k default).exprs.headD default = d := by
    intro k d hk
    obtain ⟨g, hg, hmem⟩ := (hdivides.groupOf?_eq_some hc).1 hk
    obtain ⟨x, hx⟩ := hsingle g (List.mem_of_getElem? hg)
    rw [hx, List.mem_singleton] at hmem
    rw [List.getD_eq_getElem?_getD, hg, Option.getD_some, hx, hmem]
    rfl
  dsimp only
  rw [hhead hd, hhead he]
  exact hlevel d e hfeeds

/-- Whatever merges are taken, the groups divide the expressions and their graph has no cycle. -/
theorem Reached.acyclic (hc : c.Proper) (h : c.Reached groups) :
    c.Divides groups ∧ c.Acyclic groups := by
  induction h with
  | @whole params hparams =>
      have hdivides : c.Divides [⟨c.fusion.tensorExprs, c.io c.fusion.tensorExprs, params⟩] := by
        refine ⟨by simp [hc.order], fun g hg => ?_, fun g hg => ?_⟩
        · rw [List.mem_singleton.1 hg, ← hc.order]
          exact List.pairwise_iff_getElem.2 fun i j hi hj hij => by
            rwa [hc.nodup.idxOf_getElem, hc.nodup.idxOf_getElem]
        · rw [List.mem_singleton.1 hg]
      refine ⟨hdivides, fun _ => 0, fun i j hij => ?_⟩
      obtain ⟨hne, d, e, hd, he, -⟩ := hij
      have hi := Divides.lt_of_groupOf? hd
      have hj := Divides.lt_of_groupOf? he
      simp only [List.length_singleton] at hi hj
      omega
  | seed hseed => exact seed_divides hc hseed
  | merge _ hmerge ih =>
      obtain ⟨a, b, params, hab, hb, hcycle, rfl⟩ := bestMerge?_eq_some hmerge
      exact ⟨ih.1.applyMerge hc hab hb, ih.2.applyMerge ih.1 hc hab hb hcycle⟩

theorem Reached.mergePass (h : c.Reached groups) (kind : MergeKind) (fuel : Nat) :
    c.Reached (c.mergePass kind fuel groups) := by
  induction fuel generalizing groups with
  | zero => exact h
  | succ fuel ih =>
      unfold Context.mergePass
      split
      case h_1 merged hmerge => exact ih (h.merge hmerge)
      case h_2 => exact h

/-! ## Putting groups in order -/

/-- The table of producers lists exactly the groups that precede a group. -/
theorem Divides.mem_producerTable (h : c.Divides groups) (hc : c.Proper) :
    j ∈ (c.producerTable groups).getD i [] ↔ c.Precedes groups j i := by
  unfold producerTable
  rw [Array.getD_eq_getD_getElem?, List.getElem?_toArray, List.getElem?_map, List.getElem?_zipIdx]
  cases hg : groups[i]? with
  | none =>
      simp only [Option.map_none, Option.getD_none, List.not_mem_nil, false_iff]
      rintro ⟨-, d, e, -, he, -⟩
      obtain ⟨g, hg', -⟩ := (h.groupOf?_eq_some hc).1 he
      rw [hg] at hg'
      cases hg'
  | some g =>
      have hmem := List.mem_of_getElem? hg
      simp only [Option.map_some, Option.getD_some, List.mem_filter, List.mem_filterMap,
        Nat.zero_add, bne_iff_ne, h.io g hmem, Option.bind_eq_some_iff]
      constructor
      · rintro ⟨⟨v, hv, d, hdef, hd⟩, hne⟩
        rcases mem_boundary_inputs.1 hv with ⟨-, ⟨e, he, hread⟩, -⟩ | ⟨hin, -⟩
        · exact ⟨hne, d, e, hd, (h.groupOf?_eq_some hc).2 ⟨g, hg, he⟩, v, hread, hdef⟩
        · rw [(hc.wired.inputs v hin).2] at hdef
          cases hdef
      · rintro ⟨hne, d, e, hd, he, v, hread, hdef⟩
        obtain ⟨g', hg', hmem'⟩ := (h.groupOf?_eq_some hc).1 he
        rw [hg] at hg'
        cases hg'
        refine ⟨⟨v, mem_boundary_inputs.2 (.inl ⟨?_, ⟨e, hmem', hread⟩, fun d' hd' heq => ?_⟩),
          d, hdef, hd⟩, hne⟩
        · exact hc.isTensor_of_definition (h.mem_order_of_groupOf? hc hd) hdef
        · rw [hdef] at heq
          cases heq
          have hi := (h.groupOf?_eq_some hc).2 ⟨g, hg, hd'⟩
          rw [hd] at hi
          cases hi
          exact hne rfl

/-- Every entry of a list comes after its producers. -/
def Arranged (producers : Array (List Nat)) (l : List Nat) : Prop :=
  ∀ pre g post, l = pre ++ g :: post → ∀ p ∈ producers.getD g [], p ∈ pre

theorem Arranged.snoc {producers : Array (List Nat)} {l : List Nat} {g : Nat}
    (h : Arranged producers l) (hg : ∀ p ∈ producers.getD g [], p ∈ l) :
    Arranged producers (l ++ [g]) := by
  intro pre k post heq p hp
  rcases List.append_eq_append_iff.1 heq with ⟨as, rfl, has⟩ | ⟨bs, rfl, hbs⟩
  · cases as with
    | nil =>
        cases has
        simpa using hg p hp
    | cons a as => simp at has
  · cases bs with
    | nil =>
        cases hbs
        simpa using hg p hp
    | cons b bs =>
        cases hbs
        exact h pre k bs rfl p hp

theorem exists_lowest (level : Nat → Nat) {l : List Nat} (h : l ≠ []) :
    ∃ g ∈ l, ∀ k ∈ l, level g ≤ level k := by
  induction l with
  | nil => exact absurd rfl h
  | cons x l ih =>
      by_cases hl : l = []
      · exact ⟨x, List.mem_cons_self, by simp [hl]⟩
      · obtain ⟨g, hg, hlow⟩ := ih hl
        by_cases hle : level x ≤ level g
        · refine ⟨x, List.mem_cons_self, fun k hk => ?_⟩
          rcases List.mem_cons.1 hk with rfl | hk
          · exact Nat.le_refl _
          · exact Nat.le_trans hle (hlow k hk)
        · refine ⟨g, List.mem_cons_of_mem x hg, fun k hk => ?_⟩
          rcases List.mem_cons.1 hk with rfl | hk
          · omega
          · exact hlow k hk

theorem foldl_earlier_mem (l : List Nat) (g : Nat) : l.foldl (c.earlier groups) g ∈ g :: l := by
  induction l generalizing g with
  | nil => exact List.mem_singleton_self g
  | cons k l ih =>
      rw [List.foldl_cons]
      have hchosen : c.earlier groups g k = k ∨ c.earlier groups g k = g := by
        unfold earlier
        dsimp only
        split
        · exact .inl rfl
        · exact .inr rfl
      rcases hchosen with heq | heq
      · rw [heq]
        exact List.mem_cons_of_mem g (ih k)
      · rw [heq]
        rcases List.mem_cons.1 (ih g) with h | h
        · rw [h]
          exact List.mem_cons_self
        · exact List.mem_cons_of_mem g (List.mem_cons_of_mem k h)

/-- Where levels grow from producers to consumers, some pending group has all its producers behind
it. -/
theorem exists_ready {producers : Array (List Nat)} {n : Nat} {level : Nat → Nat}
    (hlevel : ∀ g, ∀ p ∈ producers.getD g [], p < n ∧ level p < level g)
    {taken pending : List Nat} (hperm : (taken ++ pending).Perm (List.range n))
    (hpending : pending ≠ []) :
    ∃ g ∈ pending, (producers.getD g []).all taken.contains = true := by
  obtain ⟨low, hlow, hleast⟩ := exists_lowest level hpending
  refine ⟨low, hlow, List.all_eq_true.2 fun p hp => ?_⟩
  obtain ⟨hpn, hlt⟩ := hlevel low p hp
  rcases List.mem_append.1 (hperm.symm.subset (List.mem_range.2 hpn)) with hmem | hmem
  · simpa using hmem
  · exact absurd hlt (Nat.not_lt.2 (hleast p hmem))

/-- As long as some pending group has all its producers behind it, all groups are taken, producers
first. -/
theorem arrange_perm {producers : Array (List Nat)} {n : Nat}
    (hready : ∀ taken pending : List Nat, (taken ++ pending).Perm (List.range n) → pending ≠ [] →
      ∃ g ∈ pending, (producers.getD g []).all taken.contains = true) {fuel : Nat}
    {taken pending : List Nat} (hperm : (taken ++ pending).Perm (List.range n))
    (hfuel : pending.length ≤ fuel) (harranged : Arranged producers taken) :
    (c.arrange groups producers fuel taken pending).Perm (List.range n) ∧
      Arranged producers (c.arrange groups producers fuel taken pending) := by
  induction fuel generalizing taken pending with
  | zero =>
      obtain rfl := List.length_eq_zero_iff.1 (Nat.le_zero.1 hfuel)
      rw [List.append_nil] at hperm
      exact ⟨hperm, harranged⟩
  | succ fuel ih =>
      unfold arrange
      by_cases hnil : pending = []
      · subst hnil
        rw [List.append_nil] at hperm
        exact ⟨hperm, harranged⟩
      obtain ⟨low, hlow, hbehind⟩ := hready taken pending hperm hnil
      split
      case h_1 hnone =>
          have hmem : low ∈ pending.filter fun g => (producers.getD g []).all taken.contains :=
            List.mem_filter.2 ⟨hlow, hbehind⟩
          rw [hnone] at hmem
          cases hmem
      case h_2 g rest hsome =>
          have hnext : rest.foldl (c.earlier groups) g ∈
              pending.filter fun g => (producers.getD g []).all taken.contains := by
            rw [hsome]
            exact foldl_earlier_mem rest g
          generalize rest.foldl (c.earlier groups) g = next at hnext
          obtain ⟨hmem, hall⟩ := List.mem_filter.1 hnext
          have hnodup : (taken ++ pending).Nodup := hperm.nodup_iff.2 List.nodup_range
          have hpending := (List.nodup_append.1 hnodup).2.1
          have hsplit : pending.Perm (next :: pending.filter (· != next)) := by
            have herase := List.perm_cons_erase hmem
            rwa [hpending.erase_eq_filter] at herase
          refine ih ?_ ?_ (harranged.snoc fun p hp => ?_)
          · rw [List.append_assoc, List.singleton_append]
            exact (hsplit.symm.append_left taken).trans hperm
          · have hlength := hsplit.length_eq
            rw [List.length_cons] at hlength
            omega
          · have hcontains := List.all_eq_true.1 hall p hp
            simpa using hcontains

/-- Among groups without a cycle, some pending one is always ready. -/
theorem Acyclic.exists_ready (hacyclic : c.Acyclic groups) (h : c.Divides groups) (hc : c.Proper)
    {taken pending : List Nat} (hperm : (taken ++ pending).Perm (List.range groups.length))
    (hpending : pending ≠ []) :
    ∃ g ∈ pending, ((c.producerTable groups).getD g []).all taken.contains = true := by
  obtain ⟨level, hlevel⟩ := hacyclic
  have hbelow : ∀ g, ∀ p ∈ (c.producerTable groups).getD g [],
      p < groups.length ∧ level p < level g := by
    intro g p hp
    have hprecedes := (h.mem_producerTable hc).1 hp
    refine ⟨?_, hlevel p g hprecedes⟩
    obtain ⟨-, d, -, hd, -⟩ := hprecedes
    exact Divides.lt_of_groupOf? hd
  exact Context.exists_ready hbelow hperm hpending

/-! ## Finished plans -/

theorem Divides.perm {groups' : List Group} (h : c.Divides groups) (hperm : groups'.Perm groups) :
    c.Divides groups' :=
  ⟨(hperm.flatMap_right _).trans h.partition, fun g hg => h.sorted g (hperm.subset hg),
    fun g hg => h.io g (hperm.subset hg)⟩

theorem finish_complete (c : Context) (groups : List Group) :
    (c.finish groups).complete = c.fusion :=
  rfl

/-- A plan lists all groups, each behind its producers. -/
theorem finish_groups (hacyclic : c.Acyclic groups) (h : c.Divides groups) (hc : c.Proper) :
    ∃ sorted : List Nat, (c.finish groups).groups = sorted.map (groups.getD · default) ∧
      sorted.Perm (List.range groups.length) ∧ Arranged (c.producerTable groups) sorted := by
  have hstart : Arranged (c.producerTable groups) [] := fun pre g post heq => by simp at heq
  obtain ⟨hperm, harranged⟩ := arrange_perm
    (fun _ _ hperm hpending => hacyclic.exists_ready h hc hperm hpending)
    (List.Perm.refl (List.range groups.length)) (Nat.le_of_eq List.length_range) hstart
  exact ⟨_, rfl, hperm, harranged⟩

theorem map_getD_perm {sorted : List Nat} (hperm : sorted.Perm (List.range groups.length)) :
    (sorted.map (groups.getD · default)).Perm groups := by
  refine (hperm.map _).trans (List.Perm.of_eq ?_)
  refine List.ext_getElem (by simp) fun i h₁ h₂ => ?_
  simp [List.getD_eq_getElem?_getD, h₂]

/-- Groups that start as single expressions never become empty. -/
theorem Reached.exprs_ne_nil (h : c.Reached groups) (hsome : c.fusion.tensorExprs ≠ []) :
    ∀ g ∈ groups, g.exprs ≠ [] := by
  induction h with
  | whole _ =>
      intro g hg
      rw [List.mem_singleton.1 hg]
      exact hsome
  | seed hseed =>
      intro g hg
      have hmem := List.mem_map_of_mem (f := (·.exprs)) hg
      rw [(seed_exprs hseed).1] at hmem
      obtain ⟨e, -, he⟩ := List.mem_map.1 hmem
      rw [← he]
      exact List.cons_ne_nil e []
  | merge _ hmerge ih =>
      obtain ⟨a, b, params, hab, hb, -, rfl⟩ := bestMerge?_eq_some hmerge
      obtain ⟨x, y, rest, hx, -, hbefore, hafter, hexprs⟩ := applyMerge_perm c params hab hb
      intro g hg
      rcases List.mem_cons.1 (hafter.subset hg) with rfl | hmem
      · intro hnil
        dsimp only at hnil
        rw [hnil] at hexprs
        exact ih x (List.mem_of_getElem? hx) (List.append_eq_nil_iff.1 hexprs.nil_eq.symm).1
      · exact ih g (hbefore.symm.subset (by simp [hmem]))

end Context

/-- A plan that can be run group by group. -/
structure Plan.Valid (p : Plan) : Prop where
  /-- The groups divide the tensor expressions among them. -/
  partition : (p.groups.flatMap (·.exprs)).Perm p.complete.tensorExprs
  nodup : (p.groups.flatMap (·.exprs)).Nodup
  nonempty : ∀ g ∈ p.groups, g.exprs ≠ []
  /-- Inside a group, producers come first. -/
  ordered : ∀ g ∈ p.groups, ∀ pre e post, g.exprs = pre ++ e :: post →
    ∀ d ∈ g.exprs, p.complete.Feeds d e → d ∈ pre
  io : ∀ g ∈ p.groups, g.io = boundary p.complete p.complete.tensorExprs g.exprs
  /-- What a group reads is computed by nothing or handed out by an earlier group. -/
  inputs : ∀ pre g post, p.groups = pre ++ g :: post → ∀ v ∈ g.io.inputs,
    p.complete.isTensor v = true →
      p.complete.definition v = none ∨ ∃ g' ∈ pre, v ∈ g'.io.outputs
  /-- Every output that is computed is handed out by exactly one group. -/
  outputs : ∀ v ∈ p.complete.outputs, p.complete.definition v ≠ none →
    ∃! i : Nat, ∃ g : Group, p.groups[i]? = some g ∧ v ∈ g.io.outputs
  /-- The edges lead from the group that computes a tensor to the other groups that read it. -/
  edges : ∀ edge, edge ∈ p.edges ↔
    edge.source ≠ edge.target ∧ p.complete.isTensor edge.value = true ∧
      (∃ g, p.groups[edge.source]? = some g ∧
        ∃ d ∈ g.exprs, edge.value ∈ (p.complete.expr d).outputs) ∧
      ∃ g, p.groups[edge.target]? = some g ∧
        ∃ e ∈ g.exprs, edge.value ∈ (p.complete.expr e).inputs

namespace Context

variable {c : Context} {groups : List Group} {g : Group} {v : ValueId} {d e : ExprId}

/-- A group hands out what it computes if an expression outside reads it. -/
theorem Divides.mem_outputs_of_read (h : c.Divides groups) (hc : c.Proper) (hg : g ∈ groups)
    (hd : d ∈ g.exprs) (hdef : c.fusion.definition v = some d) (he : e ∈ c.order)
    (hread : v ∈ (c.fusion.expr e).inputs) (hout : e ∉ g.exprs) : v ∈ g.io.outputs := by
  obtain ⟨x, hx, hmem⟩ := hc.sound.defined v d hdef
  have hlive : c.fusion.isLive e = true :=
    hc.founded.isLive_of_mem (Fusion.mem_tensorExprs.1 (hc.order ▸ he)).1
  obtain ⟨y, hy⟩ := Option.isSome_iff_exists.1 hlive
  rw [h.io g hg]
  refine mem_boundary_outputs.2 ⟨hc.isTensor_of_definition (h.mem_order hg hd) hdef,
    ⟨d, hd, by rwa [Fusion.expr, hx]⟩, .inr ⟨e, ?_, he, hout⟩⟩
  rw [Fusion.expr, hy] at hread
  exact hc.wired.reads e y hy v hread

/-- What a group hands out is computed by one of its expressions. -/
theorem Divides.definition_of_mem_outputs (h : c.Divides groups) (hc : c.Proper) (hg : g ∈ groups)
    (hv : v ∈ g.io.outputs) : ∃ d ∈ g.exprs, c.fusion.definition v = some d := by
  rw [h.io g hg] at hv
  obtain ⟨-, ⟨d, hd, hmem⟩, -⟩ := mem_boundary_outputs.1 hv
  exact ⟨d, hd, hc.wired.definition_eq hmem⟩

theorem Divides.ordered (h : c.Divides groups) (hc : c.Proper) (hg : g ∈ groups)
    {pre post : List ExprId} (heq : g.exprs = pre ++ e :: post) (hd : d ∈ g.exprs)
    (hfeeds : c.fusion.Feeds d e) : d ∈ pre := by
  have he : e ∈ g.exprs := by simp [heq]
  have hlt := hc.idxOf_lt (h.mem_order hg hd) (h.mem_order hg he) hfeeds
  have hsorted := h.sorted g hg
  rw [heq] at hd hsorted
  rcases List.mem_append.1 hd with hd | hd
  · exact hd
  · have hpost := (List.pairwise_append.1 hsorted).2.1
    rcases List.mem_cons.1 hd with rfl | hd
    · exact absurd hlt (Nat.lt_irrefl _)
    · exact absurd hlt (Nat.lt_asymm ((List.pairwise_cons.1 hpost).1 d hd))

/-- Where groups are listed behind their producers, what a group reads is there. -/
theorem Divides.inputs_ready (h : c.Divides groups) (hc : c.Proper) {sorted : List Nat}
    (hsorted : Arranged (c.producerTable groups) sorted)
    (hperm : sorted.Perm (List.range groups.length)) {pre post : List Group}
    (heq : sorted.map (groups.getD · default) = pre ++ g :: post) (hv : v ∈ g.io.inputs)
    (ht : c.fusion.isTensor v = true) (hdef : c.fusion.definition v = some d) :
    ∃ g' ∈ pre, v ∈ g'.io.outputs := by
  obtain ⟨before, rest, hsplit, hbefore, hrest⟩ := List.map_eq_append_iff.1 heq
  obtain ⟨k, after, rfl, hk, -⟩ := List.map_eq_cons_iff.1 hrest
  have hklt : k < groups.length := List.mem_range.1 (hperm.subset (by simp [hsplit]))
  have hgk : groups[k]? = some g := by
    rw [List.getD_eq_getElem?_getD, List.getElem?_eq_getElem hklt, Option.getD_some] at hk
    rw [List.getElem?_eq_getElem hklt, hk]
  have hg := List.mem_of_getElem? hgk
  rw [h.io g hg] at hv
  rcases mem_boundary_inputs.1 hv with ⟨-, ⟨e, he, hread⟩, houtside⟩ | ⟨-, hscalar⟩
  · have heo := h.mem_order hg he
    have hd := (hc.mem_order_of_definition heo hread ht hdef).1
    obtain ⟨i, hi⟩ := h.exists_groupOf? hc hd
    obtain ⟨g', hg', hmem⟩ := (h.groupOf?_eq_some hc).1 hi
    have hne : i ≠ k := by
      rintro rfl
      rw [hgk] at hg'
      cases hg'
      exact houtside d hmem hdef
    have hprecedes : c.Precedes groups i k :=
      ⟨hne, d, e, hi, (h.groupOf?_eq_some hc).2 ⟨g, hgk, he⟩, v, hread, hdef⟩
    have hbehind := hsorted before k after hsplit i ((h.mem_producerTable hc).2 hprecedes)
    refine ⟨g', ?_, h.mem_outputs_of_read hc (List.mem_of_getElem? hg') hmem hdef heo hread ?_⟩
    · rw [← hbefore]
      refine List.mem_map.2 ⟨i, hbehind, ?_⟩
      rw [List.getD_eq_getElem?_getD, hg', Option.getD_some]
    · exact fun hmem' => hne (h.eq_of_mem hc hg' hgk hmem' he)
  · rw [hscalar] at ht
    cases ht

/-- Every output that is computed is handed out by exactly one group. -/
theorem Divides.existsUnique_outputs (h : c.Divides groups) (hc : c.Proper)
    (hv : v ∈ c.fusion.outputs) (hdef : c.fusion.definition v ≠ none) :
    ∃! i : Nat, ∃ g : Group, groups[i]? = some g ∧ v ∈ g.io.outputs := by
  obtain ⟨d, hd⟩ := Option.ne_none_iff_exists'.1 hdef
  have ht := hc.wired.outputs v hv
  have hmem : d ∈ c.order := by
    rw [hc.order]
    exact hc.founded.definition_mem_tensorExprs ht hd (hc.founded.definition_mem_liveExprs hv hd)
  obtain ⟨x, hx, hxv⟩ := hc.sound.defined v d hd
  obtain ⟨i, hi⟩ := h.exists_groupOf? hc hmem
  obtain ⟨g, hg, hdg⟩ := (h.groupOf?_eq_some hc).1 hi
  have hgm := List.mem_of_getElem? hg
  refine ⟨i, ⟨g, hg, ?_⟩, ?_⟩
  · rw [h.io g hgm]
    exact mem_boundary_outputs.2 ⟨ht, ⟨d, hdg, by rwa [Fusion.expr, hx]⟩, .inl hv⟩
  · rintro j ⟨g', hg', hv'⟩
    obtain ⟨d', hd', hdef'⟩ := h.definition_of_mem_outputs hc (List.mem_of_getElem? hg') hv'
    rw [hd] at hdef'
    cases hdef'
    exact h.eq_of_mem hc hg' hg hd' hdg

/-- The edges lead from the group that computes a tensor to the other groups that read it. -/
theorem Divides.mem_edges (h : c.Divides groups) (hc : c.Proper) {edge : Edge} :
    edge ∈ c.edges groups ↔
      edge.source ≠ edge.target ∧ c.fusion.isTensor edge.value = true ∧
        (∃ g, groups[edge.source]? = some g ∧
          ∃ d ∈ g.exprs, edge.value ∈ (c.fusion.expr d).outputs) ∧
        ∃ g, groups[edge.target]? = some g ∧
          ∃ e ∈ g.exprs, edge.value ∈ (c.fusion.expr e).inputs := by
  obtain ⟨source, target, value⟩ := edge
  simp only [edges, List.mem_flatMap, List.mem_filterMap, Prod.exists, List.mem_zipIdx_iff_getElem?,
    Option.bind_eq_bind, Option.bind_eq_some_iff]
  constructor
  · rintro ⟨g, i, hg, v, hv, d, hdef, j, hj, hedge⟩
    split at hedge
    case isTrue => cases hedge
    case isFalse hne =>
        cases hedge
        have hgm := List.mem_of_getElem? hg
        rw [h.io g hgm] at hv
        obtain ⟨g', hg', hd⟩ := (h.groupOf?_eq_some hc).1 hj
        obtain ⟨x, hx, hxv⟩ := hc.sound.defined value d hdef
        rcases mem_boundary_inputs.1 hv with ⟨ht, ⟨e, he, hread⟩, -⟩ | ⟨hin, -⟩
        · exact ⟨hne, ht, ⟨g', hg', d, hd, by rwa [Fusion.expr, hx]⟩, g, hg, e, he, hread⟩
        · rw [(hc.wired.inputs value hin).2] at hdef
          cases hdef
  · rintro ⟨hne, ht, ⟨g', hg', d, hd, hwrite⟩, g, hg, e, he, hread⟩
    have hdef := hc.wired.definition_eq hwrite
    have hgm := List.mem_of_getElem? hg
    refine ⟨g, target, hg, value, ?_, d, hdef, source, (h.groupOf?_eq_some hc).2 ⟨g', hg', hd⟩, ?_⟩
    · rw [h.io g hgm]
      refine mem_boundary_inputs.2 (.inl ⟨ht, ⟨e, he, hread⟩, fun d' hd' heq => ?_⟩)
      rw [hdef] at heq
      cases heq
      exact hne (h.eq_of_mem hc hg' hg hd hd')
    · rw [if_neg hne]

/-- The groups of a plan are those that merges lead to, in another order. -/
theorem Reached.finish_perm (h : c.Reached groups) (hc : c.Proper) :
    (c.finish groups).groups.Perm groups := by
  obtain ⟨hdivides, hacyclic⟩ := h.acyclic hc
  obtain ⟨sorted, hgroups, hperm, -⟩ := finish_groups hacyclic hdivides hc
  rw [hgroups]
  exact map_getD_perm hperm

theorem Reached.finish_divides (h : c.Reached groups) (hc : c.Proper) :
    c.Divides (c.finish groups).groups :=
  (h.acyclic hc).1.perm (h.finish_perm hc)

/-- The plan of groups that merges lead to is valid. -/
theorem Reached.finish_valid (h : c.Reached groups) (hc : c.Proper)
    (hsome : c.fusion.tensorExprs ≠ []) : (c.finish groups).Valid := by
  obtain ⟨hdivides, hacyclic⟩ := h.acyclic hc
  obtain ⟨sorted, hgroups, hperm, harranged⟩ := finish_groups hacyclic hdivides hc
  have hdivides' := h.finish_divides hc
  refine ⟨hc.order ▸ hdivides'.partition, hdivides'.partition.nodup_iff.2 hc.nodup,
    fun g hg => h.exprs_ne_nil hsome g ((h.finish_perm hc).subset hg),
    fun g hg pre e post heq d hd hfeeds => hdivides'.ordered hc hg heq hd hfeeds, fun g hg => ?_, fun pre g post heq v hv ht => ?_,
    fun v hv hdef => hdivides'.existsUnique_outputs hc hv hdef,
    fun edge => hdivides'.mem_edges hc⟩
  · rw [hdivides'.io g hg, io, hc.order]
    rfl
  · cases hdef : (c.finish groups).complete.definition v with
    | none => exact .inl rfl
    | some d =>
        rw [hgroups] at heq
        exact .inr (hdivides.inputs_ready hc harranged hperm heq hv ht hdef)

end Context

namespace Plan

open Fusion (Step performAll)

variable {f : Fusion} {args : Arguments} {p : Plan}

/-- A plan is finished from groups that merges lead to. -/
theorem exists_reached (h : Plan.make f args = .ok p) :
    ∃ c, Context.make f args = .ok c ∧ c.fusion = f ∧ c.order = f.tensorExprs ∧
      ∃ groups, c.Reached groups ∧ p = c.finish groups := by
  unfold Plan.make at h
  obtain ⟨c, hc, h⟩ := Results.bind_eq_ok.1 h
  have hmake := hc
  unfold Context.make at hmake
  obtain ⟨b, -, hmake⟩ := Results.bind_eq_ok.1 hmake
  cases hmake
  refine ⟨_, hc, rfl, rfl, ?_⟩
  split at h
  case h_1 params hparams =>
      cases h
      exact ⟨_, .whole hparams, rfl⟩
  case h_2 =>
      obtain ⟨groups, hgroups, h⟩ := Results.bind_eq_ok.1 h
      cases h
      exact ⟨_, (((Context.Reached.seed hgroups).mergePass _ _).mergePass _ _).mergePass _ _, rfl⟩

/-- Every plan of a fusion that calls, new axes and new tensors lead to is valid.  Whatever merges
were taken on the way to it, the graph of the groups had no cycle, so that putting them in order
never found all pending groups waiting. -/
theorem make_valid (steps : List Step) (hsome : (performAll steps {}).tensorExprs ≠ [])
    (h : Plan.make (performAll steps {}) args = .ok p) :
    p.complete = performAll steps {} ∧ p.Valid ∧
      ∃ c, Context.make (performAll steps {}) args = .ok c ∧
        (∃ groups, c.Reached groups ∧ p = c.finish groups) ∧
        ∀ groups, c.Reached groups → c.Acyclic groups ∧
          ∀ taken pending : List Nat, (taken ++ pending).Perm (List.range groups.length) →
            pending ≠ [] →
              ∃ g ∈ pending, ((c.producerTable groups).getD g []).all taken.contains = true := by
  have hregular := Fusion.performAll_regular steps Fusion.regular_empty
  obtain ⟨c, hmake, hfusion, horder, groups, hreached, rfl⟩ := exists_reached h
  have hc : c.Proper :=
    ⟨hfusion ▸ horder, hfusion ▸ hregular.sound, hfusion ▸ hregular.wired⟩
  refine ⟨hfusion, hreached.finish_valid hc (hfusion ▸ hsome), c, hmake,
    ⟨groups, hreached, rfl⟩, ?_⟩
  intro groups hreached
  obtain ⟨hdivides, hacyclic⟩ := hreached.acyclic hc
  exact ⟨hacyclic, fun _ _ hperm hpending => hacyclic.exists_ready hdivides hc hperm hpending⟩

/-- A vector negated, and a broadcast of the result negated again: outputs of different rank. -/
def negatedTwice : List Call :=
  [.tensor [4] [true] .float, .input ⟨0⟩, .unary .neg (.value ⟨0⟩), .output ⟨4⟩,
    .broadcast ⟨4⟩ [true, false], .unary .neg (.value ⟨8⟩), .output ⟨11⟩]

theorem negatedTwice_valid :
    ∃ p, (performAll (negatedTwice.map .call) {}).tensorExprs ≠ [] ∧
      Plan.make (performAll (negatedTwice.map .call) {}) ⟨[(⟨0⟩, .contiguous .float [4])]⟩ = .ok p ∧
      p.groups.length = 2 ∧ p.Valid := by
  have hrun : (!(performAll (negatedTwice.map .call) {}).tensorExprs.isEmpty &&
      (Plan.make (performAll (negatedTwice.map .call) {})
        ⟨[(⟨0⟩, .contiguous .float [4])]⟩).toOption.any fun p => p.groups.length == 2) = true := by
    cbv
  obtain ⟨hsome, hrun⟩ := Bool.and_eq_true_iff.1 hrun
  obtain ⟨p, hp, hlength⟩ := (Option.any_eq_true _ _).1 hrun
  have hsome : (performAll (negatedTwice.map .call) {}).tensorExprs ≠ [] := by simpa using hsome
  have hp := Results.ok_of_toOption hp
  exact ⟨p, hsome, hp, by simpa using hlength, (make_valid _ hsome hp).2.1⟩

end Plan
end Segment
end FusionCompiler
