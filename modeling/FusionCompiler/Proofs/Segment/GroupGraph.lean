import Mathlib.Data.List.Nodup
import Mathlib.Data.List.Perm.Subperm
import Mathlib.Logic.Relation
import FusionCompiler.Segment.Plan
import FusionCompiler.Proofs.Fusion.Ordering

/-!
# The graph of groups

One group precedes another if it computes something that the other reads.  A
merge is taken only if a search finds no path between the two groups that passes
through a third one, and then the graph of the merged groups has no cycle if the
graph before had none: the two groups move to one level, between everything they
read from and everything that reads from them.

Main results:

- Theorem `Segment.Context.passesThird_eq_false`: a search that finds nothing has
  missed nothing.
- Theorem `Segment.exists_joined_level`: two vertices of a graph without cycles
  that no path through a third one connects can be joined.
- Theorem `Segment.Context.Divides.mem_consumerTable`: the table of consumers
  lists exactly the groups that a group precedes.
- Theorems `Segment.Context.Divides.applyMerge` and
  `Segment.Context.Acyclic.applyMerge`: a legal merge leaves a division of the
  expressions whose graph has no cycle.
-/

namespace FusionCompiler

namespace Segment

open Relation

/-! ## Joining two vertices -/

/-- Two vertices of a graph without cycles that no path through a third one connects can be put on
one level. -/
theorem exists_joined_level {R : Nat → Nat → Prop} {n a b : Nat} {level : Nat → Nat}
    (hbound : ∀ i j, R i j → i < n) (hlevel : ∀ i j, R i j → level i < level j)
    (hab : ¬ ∃ s, R a s ∧ s ≠ b ∧ ReflTransGen R s b)
    (hba : ¬ ∃ s, R b s ∧ s ≠ a ∧ ReflTransGen R s a) :
    ∃ joined : Nat → Nat, joined a = joined b ∧
      ∀ i j, R i j → ¬ ((i = a ∨ i = b) ∧ (j = a ∨ j = b)) → joined i < joined j := by
  classical
  -- a path never leads to a lower level
  have hpath : ∀ {i j}, ReflTransGen R i j → level i ≤ level j := by
    intro i j h
    induction h with
    | refl => exact Nat.le_refl _
    | tail _ hstep ih => exact Nat.le_trans ih (Nat.le_of_lt (hlevel _ _ hstep))
  let Below (k : Nat) : Prop := ∃ s, (R a s ∨ R b s) ∧ s ≠ a ∧ s ≠ b ∧ ReflTransGen R s k
  have hnotA : ¬ Below a := by
    rintro ⟨s, hs | hs, hsa, hsb, h⟩
    · exact absurd (hlevel a s hs) (Nat.not_lt.2 (hpath h))
    · exact hba ⟨s, hs, hsa, h⟩
  have hnotB : ¬ Below b := by
    rintro ⟨s, hs | hs, hsa, hsb, h⟩
    · exact hab ⟨s, hs, hsb, h⟩
    · exact absurd (hlevel b s hs) (Nat.not_lt.2 (hpath h))
  have hstep : ∀ {i j}, R i j → Below i → Below j := by
    rintro i j hij ⟨s, hs, hsa, hsb, h⟩
    exact ⟨s, hs, hsa, hsb, h.tail hij⟩
  obtain ⟨top, htop⟩ : ∃ top, ∀ i, i < n → level i < top := by
    clear hbound
    induction n with
    | zero => exact ⟨0, by omega⟩
    | succ n ih =>
        obtain ⟨top, htop⟩ := ih
        refine ⟨max top (level n + 1), fun i hi => ?_⟩
        by_cases hin : i < n
        · exact Nat.lt_of_lt_of_le (htop i hin) (Nat.le_max_left _ _)
        · obtain rfl : i = n := by omega
          omega
  refine ⟨fun k => if k = a ∨ k = b then top else if Below k then top + 1 + level k else level k,
    by simp, fun i j hij hnot => ?_⟩
  have hi := htop i (hbound i j hij)
  have hlt := hlevel i j hij
  by_cases hia : i = a ∨ i = b
  · have hja : ¬ (j = a ∨ j = b) := fun h => hnot ⟨hia, h⟩
    have hbelow : Below j := by
      refine ⟨j, ?_, fun h => hja (.inl h), fun h => hja (.inr h), .refl⟩
      rcases hia with rfl | rfl
      · exact .inl hij
      · exact .inr hij
    simp only [if_pos hia, if_neg hja, if_pos hbelow]
    omega
  · by_cases hja : j = a ∨ j = b
    · have hbelow : ¬ Below i := fun h => by
        rcases hja with rfl | rfl
        · exact hnotA (hstep hij h)
        · exact hnotB (hstep hij h)
      simp only [if_neg hia, if_pos hja, if_neg hbelow]
      exact hi
    · by_cases hbi : Below i
      · simp only [if_neg hia, if_neg hja, if_pos hbi, if_pos (hstep hij hbi)]
        omega
      · by_cases hbj : Below j
        · simp only [if_neg hia, if_neg hja, if_neg hbi, if_pos hbj]
          omega
        · simp only [if_neg hia, if_neg hja, if_neg hbi, if_neg hbj]
          exact hlt

namespace Context

/-! ## The search for a path -/

section Search

variable {table : Array (List Nat)} {goal : Nat}

/-- The number of entries of a table that a search has not put on its work list yet. -/
def unlisted (table : Array (List Nat)) (seen : List Nat) : Nat :=
  (((List.range table.size).filter (· ∉ seen)).flatMap fun g => table.getD g []).length

/-- Listing a row takes its entries from those that are not listed. -/
theorem length_unlisted_cons {seen : List Nat} {g : Nat} (hg : g ∉ seen) (row : Nat → List Nat)
    {n : Nat} (hout : n ≤ g → row g = []) :
    (((List.range n).filter (· ∉ g :: seen)).flatMap row).length + (row g).length =
      (((List.range n).filter (· ∉ seen)).flatMap row).length := by
  induction n with
  | zero => simp [hout (Nat.zero_le g)]
  | succ n ih =>
      simp only [List.range_succ, List.filter_append, List.flatMap_append, List.length_append,
        List.filter_cons, List.filter_nil]
      by_cases hgn : g = n
      · subst hgn
        have hsame : (List.range g).filter (fun k => decide (k ∉ g :: seen)) =
            (List.range g).filter fun k => decide (k ∉ seen) := by
          refine List.filter_congr fun k hk => ?_
          have hlt := List.mem_range.1 hk
          simp [Nat.ne_of_lt hlt]
        rw [hsame]
        simp [hg]
      · have hrest := ih fun h => hout (by omega)
        by_cases hn : n ∈ seen
        · have hn' : n ∈ g :: seen := List.mem_cons_of_mem g hn
          simp only [hn, hn', not_true_eq_false, decide_false, Bool.false_eq_true, if_false,
            List.flatMap_nil, List.length_nil, Nat.add_zero]
          exact hrest
        · have hn' : n ∉ g :: seen := by simp [Ne.symm hgn, hn]
          simp only [hn, hn', not_false_eq_true, decide_true, if_true, List.flatMap_singleton]
          omega

/-- Listing a row of the table. -/
theorem unlisted_cons {seen : List Nat} {g : Nat} (hg : g ∉ seen) :
    unlisted table (g :: seen) + (table.getD g []).length = unlisted table seen := by
  refine length_unlisted_cons hg (fun g => table.getD g []) fun h => ?_
  rw [Array.getD_eq_getD_getElem?, Array.getElem?_eq_none h]
  rfl

/-- A search that finds nothing ends with a set that is closed under successors and holds all it
started from. -/
theorem exists_closed_of_reaches {fuel : Nat} {seen work : List Nat} (hgoal : goal ∉ seen)
    (hseen : ∀ g ∈ seen, ∀ k ∈ table.getD g [], k ∈ seen ∨ k ∈ work)
    (hfuel : work.length + unlisted table seen < fuel)
    (h : reaches table goal fuel seen work = false) :
    ∃ closed : List Nat, (∀ g ∈ seen, g ∈ closed) ∧ (∀ g ∈ work, g ∈ closed) ∧ goal ∉ closed ∧
      ∀ g ∈ closed, ∀ k ∈ table.getD g [], k ∈ closed := by
  induction fuel generalizing seen work with
  | zero => omega
  | succ fuel ih =>
      cases work with
      | nil =>
          refine ⟨seen, fun g hg => hg, by simp, hgoal, fun g hg k hk => ?_⟩
          simpa using hseen g hg k hk
      | cons g rest =>
          unfold reaches at h
          split at h
          · cases h
          case isFalse hne =>
              rw [List.length_cons] at hfuel
              split at h
              case isTrue hmem =>
                  have hg : g ∈ seen := by simpa using hmem
                  obtain ⟨closed, hold, hwork, hnot, hclosed⟩ :=
                    ih hgoal (fun k hk j hj => by
                      rcases hseen k hk j hj with h | h
                      · exact .inl h
                      · rcases List.mem_cons.1 h with rfl | h
                        · exact .inl hg
                        · exact .inr h) (by omega) h
                  refine ⟨closed, hold, fun k hk => ?_, hnot, hclosed⟩
                  rcases List.mem_cons.1 hk with rfl | hk
                  · exact hold k hg
                  · exact hwork k hk
              case isFalse hmem =>
                  have hg : g ∉ seen := by simpa using hmem
                  have hsteps : unlisted table (g :: seen) + (table.getD g []).length =
                      unlisted table seen := unlisted_cons hg
                  have hgoal' : goal ∉ g :: seen := fun hmem =>
                    (List.mem_cons.1 hmem).elim (fun h => hne h.symm) hgoal
                  have hseen' : ∀ k ∈ g :: seen, ∀ j ∈ table.getD k [],
                      j ∈ g :: seen ∨ j ∈ table.getD g [] ++ rest := by
                    intro k hk j hj
                    rw [List.mem_append, List.mem_cons]
                    rcases List.mem_cons.1 hk with rfl | hk
                    · exact .inr (.inl hj)
                    · rcases hseen k hk j hj with h | h
                      · exact .inl (.inr h)
                      · rcases List.mem_cons.1 h with rfl | h
                        · exact .inl (.inl rfl)
                        · exact .inr (.inr h)
                  obtain ⟨closed, hold, hwork, hnot, hclosed⟩ := ih hgoal' hseen' (by
                    rw [List.length_append]
                    omega) h
                  refine ⟨closed, fun k hk => hold k (List.mem_cons_of_mem g hk), fun k hk => ?_,
                    hnot, hclosed⟩
                  rcases List.mem_cons.1 hk with rfl | hk
                  · exact hold k List.mem_cons_self
                  · exact hwork k (List.mem_append_right _ hk)

/-- The fuel of a search is what there is to list. -/
theorem searchFuel_eq (table : Array (List Nat)) :
    table.foldl (fun n l => n + l.length + 1) 1 = 1 + unlisted table [] + table.size := by
  have hfold : ∀ (l : List (List Nat)) (n : Nat),
      l.foldl (fun n l => n + l.length + 1) n = n + l.flatten.length + l.length := by
    intro l
    induction l with
    | nil => simp
    | cons x l ih =>
        intro n
        rw [List.foldl_cons, ih, List.flatten_cons, List.length_append, List.length_cons]
        omega
  have hmap : (List.range table.size).map (fun g => table.getD g []) = table.toList := by
    refine List.ext_getElem (by simp) fun i h₁ h₂ => ?_
    have hi : i < table.size := by simpa using h₁
    simp [Array.getD, hi]
  unfold unlisted List.flatMap
  rw [← Array.foldl_toList, hfold]
  simp only [List.not_mem_nil, not_false_eq_true, decide_true, List.filter_true, hmap,
    Array.length_toList]

/-- A search that finds no path through a third vertex has missed none. -/
theorem passesThird_eq_false {source : Nat} (hnodup : (table.getD source []).Nodup)
    (hbound : ∀ k ∈ table.getD source [], k < table.size)
    (h : passesThird table source goal = false) :
    ¬ ∃ s, s ∈ table.getD source [] ∧ s ≠ goal ∧
      ReflTransGen (fun i j => j ∈ table.getD i []) s goal := by
  have hlength : ((table.getD source []).filter (· != goal)).length ≤ table.size := by
    have hsub : (table.getD source []) ⊆ List.range table.size := fun k hk =>
      List.mem_range.2 (hbound k hk)
    have hle := (List.subperm_of_subset hnodup hsub).length_le
    rw [List.length_range] at hle
    exact Nat.le_trans (List.length_filter_le _ _) hle
  unfold passesThird at h
  rw [searchFuel_eq] at h
  obtain ⟨closed, -, hwork, hgoal, hclosed⟩ := exists_closed_of_reaches (by simp) (by simp)
    (by omega) h
  have hreached : ∀ {s k}, s ∈ closed → ReflTransGen (fun i j => j ∈ table.getD i []) s k →
      k ∈ closed := by
    intro s k hs hpath
    induction hpath with
    | refl => exact hs
    | tail _ hstep ih => exact hclosed _ ih _ hstep
  rintro ⟨s, hs, hne, hpath⟩
  exact hgoal (hreached (hwork s (List.mem_filter.2 ⟨hs, by simpa using hne⟩)) hpath)

end Search

/-! ## Divisions of the tensor expressions -/

/-- The context of a wired fusion, with its tensor expressions in order. -/
structure Proper (c : Context) : Prop where
  order : c.order = c.fusion.tensorExprs
  sound : Fusion.Sound c.fusion
  wired : Fusion.Wired c.fusion

/-- The groups divide the tensor expressions; each lists its own in order, with its boundary. -/
structure Divides (c : Context) (groups : List Group) : Prop where
  partition : (groups.flatMap (·.exprs)).Perm c.order
  sorted : ∀ g ∈ groups, g.exprs.Pairwise fun d e => c.order.idxOf d < c.order.idxOf e
  io : ∀ g ∈ groups, g.io = c.io g.exprs

/-- One group computes something that another group reads. -/
def Precedes (c : Context) (groups : List Group) (i j : Nat) : Prop :=
  i ≠ j ∧ ∃ d e, groupOf? groups d = some i ∧ groupOf? groups e = some j ∧ c.fusion.Feeds d e

/-- Some level of the groups grows from those that compute to those that read. -/
def Acyclic (c : Context) (groups : List Group) : Prop :=
  ∃ level : Nat → Nat, ∀ i j, c.Precedes groups i j → level i < level j

variable {c : Context} {groups : List Group} {d e : ExprId} {i j : Nat} {v : ValueId}

namespace Proper

/-- The definitions of a proper fusion are founded. -/
theorem founded (hc : c.Proper) : Fusion.Founded c.fusion :=
  hc.wired.founded hc.sound

/-- No expression comes twice in the order. -/
theorem nodup (hc : c.Proper) : c.order.Nodup := by
  rw [hc.order]
  exact hc.founded.tensorExprs_nodup

/-- All results of a tensor expression are tensors. -/
theorem isTensor_of_mem_outputs (hc : c.Proper) (he : e ∈ c.order)
    (hv : v ∈ (c.fusion.expr e).outputs) : c.fusion.isTensor v = true := by
  rw [hc.order, Fusion.mem_tensorExprs] at he
  obtain ⟨-, u, hu, ht⟩ := he
  have hdef := hc.wired.definition_eq hu
  obtain ⟨x, hx, hmem⟩ := hc.sound.defined u e hdef
  rw [Fusion.expr, hx] at hv
  exact (hc.sound.exprs e x hx).isTensor_outputs (.inr hmem) ht v hv

/-- An operand of a tensor expression that another one computes is a tensor. -/
theorem isTensor_of_definition (hc : c.Proper) (hd : d ∈ c.order)
    (hdef : c.fusion.definition v = some d) : c.fusion.isTensor v = true := by
  obtain ⟨x, hx, hmem⟩ := hc.sound.defined v d hdef
  refine hc.isTensor_of_mem_outputs hd ?_
  rw [Fusion.expr, hx]
  exact hmem

/-- The definition of a tensor operand comes earlier. -/
theorem mem_order_of_definition (hc : c.Proper) (he : e ∈ c.order)
    (hv : v ∈ (c.fusion.expr e).inputs) (ht : c.fusion.isTensor v = true)
    (hdef : c.fusion.definition v = some d) :
    d ∈ c.order ∧ c.order.idxOf d < c.order.idxOf e := by
  obtain ⟨pre, post, heq, hnot⟩ := List.eq_append_cons_of_mem he
  have hmem : d ∈ pre :=
    hc.founded.tensorExprs_inOrder (hc.order ▸ heq) hv ht hdef
  rw [heq]
  refine ⟨List.mem_append_left _ hmem, ?_⟩
  rw [List.idxOf_append_of_mem hmem, List.idxOf_append_of_notMem hnot, List.idxOf_cons_self]
  exact List.idxOf_lt_length_of_mem hmem

/-- What feeds a tensor expression comes earlier, if it is a tensor expression. -/
theorem idxOf_lt (hc : c.Proper) (hd : d ∈ c.order) (he : e ∈ c.order)
    (hfeeds : c.fusion.Feeds d e) : c.order.idxOf d < c.order.idxOf e := by
  obtain ⟨v, hv, hdef⟩ := hfeeds
  exact (hc.mem_order_of_definition he hv (hc.isTensor_of_definition hd hdef) hdef).2

/-- Expressions feed exactly those that their results note as uses. -/
theorem feeds_iff (hc : c.Proper) :
    c.fusion.Feeds d e ↔ ∃ v ∈ (c.fusion.expr d).outputs, e ∈ c.fusion.uses v := by
  constructor
  · rintro ⟨v, hv, hdef⟩
    obtain ⟨x, hx, hmem⟩ := hc.sound.defined v d hdef
    refine ⟨v, by rwa [Fusion.expr, hx], ?_⟩
    unfold Fusion.expr at hv
    cases hy : c.fusion.expr? e with
    | none =>
        rw [hy] at hv
        cases hv
    | some y =>
        rw [hy, Option.getD_some] at hv
        exact hc.wired.reads e y hy v hv
  · rintro ⟨v, hv, huse⟩
    obtain ⟨y, hy, hmem⟩ := hc.sound.used v e huse
    exact ⟨v, by rwa [Fusion.expr, hy], hc.wired.definition_eq hv⟩

end Proper

namespace Divides

/-- The expressions of groups are in the order. -/
theorem mem_order (h : c.Divides groups) {g : Group} (hg : g ∈ groups) (he : e ∈ g.exprs) :
    e ∈ c.order :=
  h.partition.subset (List.mem_flatMap.2 ⟨g, hg, he⟩)

/-- No expression is in two groups. -/
theorem eq_of_mem (h : c.Divides groups) (hc : c.Proper) {g g' : Group}
    (hi : groups[i]? = some g) (hj : groups[j]? = some g') (he : e ∈ g.exprs)
    (he' : e ∈ g'.exprs) : i = j := by
  have hnodup := h.partition.nodup_iff.2 hc.nodup
  have hapart := List.pairwise_iff_getElem.1 (List.nodup_flatMap.1 hnodup).2
  obtain ⟨hi', rfl⟩ := List.getElem?_eq_some_iff.1 hi
  obtain ⟨hj', rfl⟩ := List.getElem?_eq_some_iff.1 hj
  rcases Nat.lt_trichotomy i j with hlt | heq | hlt
  · exact absurd he' (List.disjoint_left.1 (hapart i j hi' hj' hlt) he)
  · exact heq
  · exact absurd he (List.disjoint_left.1 (hapart j i hj' hi' hlt) he')

/-- An expression is found in the group that has it. -/
theorem groupOf?_eq_some (h : c.Divides groups) (hc : c.Proper) :
    groupOf? groups e = some i ↔ ∃ g, groups[i]? = some g ∧ e ∈ g.exprs := by
  unfold groupOf?
  rw [List.findIdx?_eq_some_iff_getElem]
  constructor
  · rintro ⟨hi, he, -⟩
    exact ⟨groups[i], List.getElem?_eq_getElem hi, by simpa using he⟩
  · rintro ⟨g, hg, he⟩
    obtain ⟨hi, rfl⟩ := List.getElem?_eq_some_iff.1 hg
    refine ⟨hi, by simpa using he, fun j hj hmem => ?_⟩
    have hlt : j < groups.length := Nat.lt_trans hj hi
    exact Nat.ne_of_lt hj
      (h.eq_of_mem hc (List.getElem?_eq_getElem hlt) hg (by simpa using hmem) he)

/-- Each expression in the order has a group. -/
theorem exists_groupOf? (h : c.Divides groups) (hc : c.Proper) (he : e ∈ c.order) :
    ∃ i, groupOf? groups e = some i := by
  obtain ⟨g, hg, hmem⟩ := List.mem_flatMap.1 (h.partition.symm.subset he)
  obtain ⟨i, hi⟩ := List.mem_iff_getElem?.1 hg
  exact ⟨i, (h.groupOf?_eq_some hc).2 ⟨g, hi, hmem⟩⟩

/-- The group that is found is one of the groups. -/
theorem lt_of_groupOf? (he : groupOf? groups e = some i) : i < groups.length :=
  (List.findIdx?_eq_some_iff_getElem.1 he).1

/-- An expression with a group is in the order. -/
theorem mem_order_of_groupOf? (h : c.Divides groups) (hc : c.Proper)
    (he : groupOf? groups e = some i) : e ∈ c.order := by
  obtain ⟨g, hg, hmem⟩ := (h.groupOf?_eq_some hc).1 he
  exact h.mem_order (List.mem_of_getElem? hg) hmem

/-- The table of consumers lists exactly the groups that a group precedes. -/
theorem mem_consumerTable (h : c.Divides groups) (hc : c.Proper) :
    j ∈ (c.consumerTable groups).getD i [] ↔ c.Precedes groups i j := by
  unfold consumerTable Precedes
  rw [Array.getD_eq_getD_getElem?, List.getElem?_toArray, List.getElem?_map, List.getElem?_zipIdx]
  cases hg : groups[i]? with
  | none =>
      simp only [Option.map_none, Option.getD_none, List.not_mem_nil, false_iff]
      rintro ⟨-, d, e, hd, -⟩
      obtain ⟨g, hg', -⟩ := (h.groupOf?_eq_some hc).1 hd
      rw [hg] at hg'
      cases hg'
  | some g =>
      simp only [Option.map_some, Option.getD_some, Fusion.mem_foldl_addNew, List.not_mem_nil,
        false_or, List.mem_filter, List.mem_filterMap, List.mem_flatMap, Nat.zero_add, bne_iff_ne]
      constructor
      · rintro ⟨⟨e, ⟨v, ⟨d, hd, hv⟩, huse⟩, he⟩, hne⟩
        refine ⟨Ne.symm hne, d, e, (h.groupOf?_eq_some hc).2 ⟨g, hg, hd⟩, he, ?_⟩
        exact hc.feeds_iff.2 ⟨v, hv, huse⟩
      · rintro ⟨hne, d, e, hd, he, hfeeds⟩
        obtain ⟨g', hg', hmem⟩ := (h.groupOf?_eq_some hc).1 hd
        rw [hg] at hg'
        cases hg'
        obtain ⟨v, hv, huse⟩ := hc.feeds_iff.1 hfeeds
        exact ⟨⟨e, ⟨v, ⟨d, hmem, hv⟩, huse⟩, he⟩, Ne.symm hne⟩

/-- The consumers of a group are listed once. -/
theorem consumerTable_nodup : ((c.consumerTable groups).getD i []).Nodup := by
  unfold consumerTable
  rw [Array.getD_eq_getD_getElem?, List.getElem?_toArray, List.getElem?_map, List.getElem?_zipIdx]
  cases groups[i]? with
  | none => simp
  | some g => exact Fusion.nodup_foldl_addNew List.nodup_nil

/-- There is a row for each group. -/
theorem size_consumerTable : (c.consumerTable groups).size = groups.length := by
  simp [consumerTable]

/-- A merge that creates no cycle joins groups that no path through a third one connects. -/
theorem apart_of_createsCycle (h : c.Divides groups) (hc : c.Proper) {a b : Nat}
    (hcycle : createsCycle (c.consumerTable groups) a b = false) :
    (¬ ∃ s, c.Precedes groups a s ∧ s ≠ b ∧ ReflTransGen (c.Precedes groups) s b) ∧
      ¬ ∃ s, c.Precedes groups b s ∧ s ≠ a ∧ ReflTransGen (c.Precedes groups) s a := by
  have hrelation : (fun i j => j ∈ (c.consumerTable groups).getD i []) = c.Precedes groups := by
    funext i j
    exact propext (h.mem_consumerTable hc)
  have hone : ∀ {x y : Nat}, passesThird (c.consumerTable groups) x y = false →
      ¬ ∃ s, c.Precedes groups x s ∧ s ≠ y ∧ ReflTransGen (c.Precedes groups) s y := by
    intro x y hxy
    have hnone := passesThird_eq_false consumerTable_nodup (fun k hk => by
      rw [size_consumerTable]
      obtain ⟨-, d, e, -, he, -⟩ := (h.mem_consumerTable hc).1 hk
      exact lt_of_groupOf? he) hxy
    rw [hrelation] at hnone
    rintro ⟨s, hs, hne, hpath⟩
    exact hnone ⟨s, (h.mem_consumerTable hc).2 hs, hne, hpath⟩
  rw [createsCycle, Bool.or_eq_false_iff] at hcycle
  exact ⟨hone hcycle.1, hone hcycle.2⟩

end Divides

/-! ## Merging -/

/-- The position of a group after the group at `b` has been merged into the group at `a`. -/
def mergedPosition (a b k : Nat) : Nat :=
  if k = b then a else if b < k then k - 1 else k

section Merge

variable {a b : Nat} {params : Heuristic.Params}

/-- The groups after a merge, by position. -/
theorem getElem?_applyMerge (hab : a < b) (hb : b < groups.length) (k : Nat) :
    (applyMerge groups (c.candidate groups a b) params)[mergedPosition a b k]? =
      if k = a ∨ k = b then
        some ⟨(c.candidate groups a b).exprs, (c.candidate groups a b).io, params⟩
      else groups[k]? := by
  unfold applyMerge mergedPosition candidate
  dsimp only
  have ha : a < groups.length := Nat.lt_trans hab hb
  by_cases hkb : k = b
  · subst hkb
    rw [if_pos rfl, if_pos (.inr rfl), List.getElem?_eraseIdx, if_pos hab,
      List.getElem?_set_self ha]
  · rw [if_neg hkb]
    by_cases hlt : b < k
    · have hka : k ≠ a := by omega
      rw [if_pos hlt, if_neg (by omega), List.getElem?_eraseIdx, if_neg (by omega),
        List.getElem?_set_ne (by omega)]
      congr 1
      omega
    · rw [if_neg hlt, List.getElem?_eraseIdx, if_pos (by omega)]
      by_cases hka : k = a
      · subst hka
        rw [if_pos (.inl rfl), List.getElem?_set_self ha]
      · rw [if_neg (by omega), List.getElem?_set_ne (Ne.symm hka)]

/-- The two groups and the others, before and after a merge. -/
theorem applyMerge_perm (c : Context) (params : Heuristic.Params) (hab : a < b)
    (hb : b < groups.length) :
    ∃ x y rest, groups[a]? = some x ∧ groups[b]? = some y ∧ groups.Perm (x :: y :: rest) ∧
      (applyMerge groups (c.candidate groups a b) params).Perm
        (⟨(c.candidate groups a b).exprs, (c.candidate groups a b).io, params⟩ :: rest) ∧
      (c.candidate groups a b).exprs.Perm (x.exprs ++ y.exprs) := by
  have ha : a < groups.length := Nat.lt_trans hab hb
  have hlength : (groups.eraseIdx b).length = groups.length - 1 := List.length_eraseIdx_of_lt hb
  have ha' : a < (groups.eraseIdx b).length := by omega
  have hget : (groups.eraseIdx b)[a] = groups[a] := by
    rw [List.getElem_eraseIdx_of_lt ha' hab]
  refine ⟨groups[a], groups[b], (groups.eraseIdx b).eraseIdx a, List.getElem?_eq_getElem ha,
    List.getElem?_eq_getElem hb, ?_, ?_, ?_⟩
  · have hfirst := List.getElem_cons_eraseIdx_perm hb
    have hsecond := List.getElem_cons_eraseIdx_perm ha'
    rw [hget] at hsecond
    exact (hfirst.symm.trans (hsecond.symm.cons _)).trans (.swap _ _ _)
  · have hmerge : applyMerge groups (c.candidate groups a b) params = (groups.eraseIdx b).set a
        ⟨(c.candidate groups a b).exprs, (c.candidate groups a b).io, params⟩ :=
      List.eraseIdx_set_gt hab
    have hset := List.getElem_cons_eraseIdx_perm (l := (groups.eraseIdx b).set a
      ⟨(c.candidate groups a b).exprs, (c.candidate groups a b).io, params⟩) (n := a)
      (by simpa using ha')
    rw [List.getElem_set_self, List.eraseIdx_set_eq, ← hmerge] at hset
    exact hset.symm
  · unfold candidate
    dsimp only
    rw [List.getD_eq_getElem?_getD, List.getD_eq_getElem?_getD, List.getElem?_eq_getElem ha,
      List.getElem?_eq_getElem hb]
    exact List.mergeSort_perm _ _

/-- A merge leaves a division of the expressions. -/
theorem Divides.applyMerge (h : c.Divides groups) (hc : c.Proper) (hab : a < b)
    (hb : b < groups.length) :
    c.Divides (applyMerge groups (c.candidate groups a b) params) := by
  obtain ⟨x, y, rest, hx, hy, hbefore, hafter, hexprs⟩ :=
    applyMerge_perm c params hab hb
  have hflat : (groups.flatMap (·.exprs)).Perm
      ((x.exprs ++ y.exprs) ++ rest.flatMap (·.exprs)) := by
    refine (hbefore.flatMap_right _).trans ?_
    simp
  have hnodup : (x.exprs ++ y.exprs).Nodup :=
    (List.nodup_append.1 (hflat.nodup_iff.1 (h.partition.nodup_iff.2 hc.nodup))).1
  refine ⟨?_, fun g hg => ?_, fun g hg => ?_⟩
  · refine (hafter.flatMap_right _).trans (List.Perm.trans ?_ (hflat.symm.trans h.partition))
    rw [List.flatMap_cons]
    exact hexprs.append_right _
  · rcases List.mem_cons.1 (hafter.subset hg) with rfl | hmem
    · -- sorted by position, and positions are distinct
      have hsorted : (c.candidate groups a b).exprs.Pairwise
          fun d e => c.order.idxOf d ≤ c.order.idxOf e := by
        unfold candidate
        dsimp only
        refine (List.pairwise_mergeSort (fun _ _ _ => ?_) (fun _ _ => ?_) _).imp fun hle => ?_
        · simpa using Nat.le_trans
        · simpa using Nat.le_total _ _
        · simpa using hle
      refine (hsorted.and (hexprs.nodup_iff.2 hnodup)).imp_of_mem fun hd _ hboth => ?_
      refine Nat.lt_of_le_of_ne hboth.1 fun heq => hboth.2 ?_
      have hmem : _ ∈ c.order := h.partition.subset (hflat.symm.subset
        (List.mem_append_left _ (hexprs.subset hd)))
      exact (List.idxOf_inj hmem).1 heq
    · exact h.sorted g (hbefore.symm.subset (by simp [hmem]))
  · rcases List.mem_cons.1 (hafter.subset hg) with rfl | hmem
    · rfl
    · exact h.io g (hbefore.symm.subset (by simp [hmem]))

/-- The group of an expression after a merge. -/
theorem Divides.groupOf?_applyMerge (h : c.Divides groups) (hc : c.Proper) (hab : a < b)
    (hb : b < groups.length) {k : Nat} (he : groupOf? groups e = some k) :
    groupOf? (Context.applyMerge groups (c.candidate groups a b) params) e =
      some (mergedPosition a b k) := by
  obtain ⟨g, hg, hmem⟩ := (h.groupOf?_eq_some hc).1 he
  rw [(h.applyMerge hc hab hb).groupOf?_eq_some hc, getElem?_applyMerge hab hb]
  by_cases hk : k = a ∨ k = b
  · rw [if_pos hk]
    refine ⟨_, rfl, ?_⟩
    obtain ⟨x, y, -, hx, hy, -, -, hexprs⟩ := applyMerge_perm c params hab hb
    refine hexprs.symm.subset (List.mem_append.2 ?_)
    rcases hk with rfl | rfl
    · cases hx.symm.trans hg
      exact .inl hmem
    · cases hy.symm.trans hg
      exact .inr hmem
  · rw [if_neg hk]
    exact ⟨g, hg, hmem⟩

/-- A merge that creates no cycle keeps the graph of groups free of cycles. -/
theorem Acyclic.applyMerge (hacyclic : c.Acyclic groups) (h : c.Divides groups) (hc : c.Proper)
    (hab : a < b) (hb : b < groups.length)
    (hcycle : createsCycle (c.consumerTable groups) a b = false) :
    c.Acyclic (Context.applyMerge groups (c.candidate groups a b) params) := by
  obtain ⟨level, hlevel⟩ := hacyclic
  obtain ⟨hpath, hpath'⟩ := h.apart_of_createsCycle hc hcycle
  obtain ⟨joined, heq, hjoined⟩ := exists_joined_level (n := groups.length)
    (fun i j hij => by
      obtain ⟨-, d, e, hd, -⟩ := hij
      exact Divides.lt_of_groupOf? hd) hlevel hpath hpath'
  have hposition : ∀ k, joined (if mergedPosition a b k < b then mergedPosition a b k
      else mergedPosition a b k + 1) = joined k := by
    intro k
    unfold mergedPosition
    by_cases hkb : k = b
    · rw [if_pos hkb, if_pos hab, hkb, heq]
    · rw [if_neg hkb]
      by_cases hlt : b < k
      · rw [if_pos hlt, if_neg (by omega)]
        congr 1
        omega
      · rw [if_neg hlt, if_pos (by omega)]
  have hdivides : c.Divides (Context.applyMerge groups (c.candidate groups a b) params) :=
    h.applyMerge hc hab hb
  refine ⟨fun i => joined (if i < b then i else i + 1), fun i' j' hij => ?_⟩
  -- every expression has a group before the merge, at a position that determines the new one
  obtain ⟨hne, d, e, hd, he, hfeeds⟩ := hij
  obtain ⟨i, hi⟩ := h.exists_groupOf? hc (hdivides.mem_order_of_groupOf? hc hd)
  obtain ⟨j, hj⟩ := h.exists_groupOf? hc (hdivides.mem_order_of_groupOf? hc he)
  rw [h.groupOf?_applyMerge hc hab hb hi] at hd
  rw [h.groupOf?_applyMerge hc hab hb hj] at he
  cases hd
  cases he
  dsimp only
  rw [hposition i, hposition j]
  refine hjoined i j ⟨?_, d, e, hi, hj, hfeeds⟩ ?_
  · rintro rfl
    exact hne rfl
  · rintro ⟨rfl | rfl, rfl | rfl⟩ <;> simp [mergedPosition, Nat.ne_of_lt hab, Nat.lt_asymm hab] at hne

end Merge

end Context
end Segment
end FusionCompiler
