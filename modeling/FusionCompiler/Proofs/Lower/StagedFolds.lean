import Mathlib.Data.List.Perm.Lattice
import FusionCompiler.Proofs.Lower.LoopNests

/-!
# Folds in two stages

A reduction folds all elements of its operand that belong to one element of the
result.  The loops over its leaves compute this fold, whatever transforms lead to
the leaves, as long as they meet every element once.

A fold in two stages first folds along some of the axes, into partial results, and
then folds the partial results.  Both stages start from the same initial value, so
it enters once for every partial result and once more.  The outcome is that of a
single fold if combining the initial value with itself gives it back.

Main results:

- Theorem `Fusion.Balanced.fold_eq`: loops that meet every element once fold all
  elements.
- Theorem `Fusion.Balanced.fold_fold`: so do loops over the partial results of
  other loops.
-/

namespace FusionCompiler

open Fusion

/-! ## Folds of folds -/

section Folds

variable {op : Int → Int → Int} [Std.Commutative op] [Std.Associative op] {init : Int}

/-- Results of folds that start from an initial value are folded like all their operands, if the
initial value does not change what it is combined with twice. -/
theorem foldl_map_foldl {β : Type} (hinit : op init init = init) (l : List β) (m : β → List Int) :
    (l.map fun b => (m b).foldl op init).foldl op init = (l.flatMap m).foldl op init := by
  have hrun : ∀ (l : List β) (acc : Int), op acc init = acc →
      (l.map fun b => (m b).foldl op init).foldl op acc = (l.flatMap m).foldl op acc := by
    intro l
    induction l with
    | nil => exact fun _ _ => rfl
    | cons b l ih =>
        intro acc hacc
        have hassoc : ∀ a c : Int, op a ((m b).foldl op c) = (m b).foldl op (op a c) :=
          fun _ _ => List.foldl_assoc.symm
        have hcomm : ∀ a c : Int, op a c = op c a := Std.Commutative.comm
        rw [List.map_cons, List.foldl_cons, List.flatMap_cons, List.foldl_append, hassoc, hacc]
        apply ih
        rw [hcomm, hassoc, hcomm, hacc]
  exact hrun l init hinit

end Folds

/-- Members of one of two kinds that exclude each other. -/
theorem filter_append_filter_perm {α : Type} (l : List α) (p q : α → Bool)
    (h : ∀ a ∈ l, ¬ (p a = true ∧ q a = true)) :
    (l.filter p ++ l.filter q).Perm (l.filter fun a => p a || q a) := by
  induction l with
  | nil => simp
  | cons a l ih =>
      have hrest := ih fun b hb => h b (List.mem_cons_of_mem a hb)
      have ha := h a List.mem_cons_self
      by_cases hp : p a = true
      · have hq : q a = false := by simpa [hp] using ha
        simpa [List.filter_cons, hp, hq] using hrest
      · by_cases hq : q a = true
        · simp only [List.filter_cons, hp, hq, Bool.false_or]
          exact List.perm_middle.trans (hrest.cons a)
        · simpa [List.filter_cons, hp, hq] using hrest

/-- Going through keys and taking the members with each of them takes every member with one of the
keys. -/
theorem flatMap_filter_perm {α κ : Type} [DecidableEq κ] (l : List α) (key : α → κ) {keys : List κ}
    (h : keys.Nodup) : (keys.flatMap fun k => l.filter fun a => key a = k).Perm
      (l.filter fun a => key a ∈ keys) := by
  induction keys with
  | nil => simp
  | cons k keys ih =>
      obtain ⟨hnot, hkeys⟩ := List.nodup_cons.1 h
      rw [List.flatMap_cons]
      refine ((ih hkeys).append_left _).trans ?_
      refine (filter_append_filter_perm l _ _ fun a _ hboth => ?_).trans (.of_eq ?_)
      · simp only [decide_eq_true_eq] at hboth
        exact hnot (hboth.1 ▸ hboth.2)
      · simp [List.mem_cons]

/-! ## Loops that fold -/

/-- The fold of all elements of the operand that belong to one element of the result. -/
def foldElements (root : List AxisId) (e : AxisId → Int) (op : Int → Int → Int) (init : Int)
    (shape : List AxisId) (read : List Int → Int) (i : List Int) : Int :=
  (((tuples (root.map e)).filter fun ρ => shape.map (assign root ρ) = i).map read).foldl op init

namespace Fusion.Balanced

variable {f : Fusion} {e : AxisId → Int} {root leaf : List AxisId} {ts : List TransformId}
  {op : Int → Int → Int} [Std.Commutative op] [Std.Associative op] {init : Int}
  {shape : List AxisId} {read : List Int → Int} {i : List Int}

/-- The loops of a nest that stays inside, over positive extents that are exact. -/
structure Meets (f : Fusion) (e : AxisId → Int) (root : List AxisId) (ts : List TransformId)
    (leaf : List AxisId) : Prop where
  balanced : f.Balanced root ts leaf
  pos : ∀ a ∈ root, 0 < e a
  exact : ∀ t ∈ ts, Exact e (f.transform t)
  confined : (nest f root ts leaf).Confined e

theorem Meets.perm (hf : Sound f) (h : Meets f e root ts leaf) :
    (((nest f root ts leaf).passing e).map ((nest f root ts leaf).element e)).Perm
      (tuples (root.map e)) :=
  h.balanced.passing_perm hf h.pos h.exact h.confined

/-- Indices that stay inside at the leaves, and below the extents at the root, stay inside. -/
theorem Meets.inside_of_traced {x : AxisId → Int} (hf : Sound f) (h : Meets f e root ts leaf)
    (hx : ∀ s ∈ ts, Traced e x (f.transform s)) (hleaf : ∀ a ∈ leaf, Inside e x a)
    (hroot : ∀ a ∈ root, x a < e a) : ∀ a ∈ root ++ f.outputsOf ts, Inside e x a := by
  intro a ha
  have hinside := h.confined _ (h.balanced.map_mem_passing hf hx hleaf hroot) a (axes_nest ▸ ha)
  rwa [Inside, h.balanced.point_eq hf hx a ha] at hinside

theorem map_assign_element {l : List AxisId} (hl : ∀ a ∈ l, a ∈ root) (t : List Int) :
    l.map (assign root ((nest f root ts leaf).element e t)) =
      l.map ((nest f root ts leaf).point e t) :=
  List.map_congr_left fun a ha => assign_map (hl a ha)

/-- What the tuples that belong to one element of the result read are the elements that belong to
it. -/
theorem Meets.filter_perm (hf : Sound f) (h : Meets f e root ts leaf)
    (hshape : ∀ a ∈ shape, a ∈ root) :
    ((((nest f root ts leaf).passing e).filter
        fun t => shape.map ((nest f root ts leaf).point e t) = i).map
      ((nest f root ts leaf).element e)).Perm
        ((tuples (root.map e)).filter fun ρ => shape.map (assign root ρ) = i) := by
  refine List.Perm.trans (.of_eq ?_) ((h.perm hf).filter _)
  rw [List.filter_map]
  congr 1
  refine List.filter_congr fun t _ => ?_
  simp only [Function.comp_apply, map_assign_element hshape]

/-- Loops that meet every element once fold all elements. -/
theorem Meets.fold_eq (hf : Sound f) (h : Meets f e root ts leaf)
    (hshape : ∀ a ∈ shape, a ∈ root) :
    (nest f root ts leaf).fold e op init shape read i =
      foldElements root e op init shape read i := by
  unfold LoopNest.fold foldElements
  apply List.Perm.foldl_op_eq
  have hperm := (h.filter_perm (i := i) hf hshape).map read
  rwa [List.map_map] at hperm

/-- Loops over the partial results of other loops fold all elements that these loops read. -/
theorem Meets.fold_fold (hf : Sound f) (h : Meets f e root ts leaf) {root' leaf' : List AxisId}
    {ts' : List TransformId} (h' : Meets f e root' ts' leaf')
    (hroot' : ∀ a ∈ root', a ∈ root ++ f.outputsOf ts) (hshape' : ∀ a ∈ shape, a ∈ root')
    (hshape : ∀ a ∈ shape, a ∈ root) (hinit : op init init = init) :
    (nest f root' ts' leaf').fold e op init shape
        ((nest f root ts leaf).fold e op init root' read) i =
      foldElements root e op init shape read i := by
  set outer := nest f root' ts' leaf'
  set inner := nest f root ts leaf
  -- the partial results that belong to the element, by their indices
  set keys := ((outer.passing e).filter fun t => shape.map (outer.point e t) = i).map
    (outer.element e) with hkeys
  have hkeysPerm := h'.filter_perm (i := i) hf hshape'
  have hnodup : keys.Nodup := hkeysPerm.nodup_iff.2 ((nodup_tuples _).filter _)
  have hmem : ∀ t ∈ inner.passing e,
      root'.map (inner.point e t) ∈ keys ↔ shape.map (inner.point e t) = i := by
    intro t ht
    have hassign : shape.map (assign root' (root'.map (inner.point e t))) =
        shape.map (inner.point e t) :=
      List.map_congr_left fun a ha => assign_map (hshape' a ha)
    rw [hkeysPerm.mem_iff, List.mem_filter, hassign, map_mem_tuples]
    simp only [decide_eq_true_eq, and_iff_right_iff_imp]
    intro _ a ha
    exact h.confined t ht a (axes_nest ▸ hroot' a ha)
  have hfold : outer.fold e op init shape (inner.fold e op init root' read) i =
      (keys.map fun k => (((inner.passing e).filter
        fun t => root'.map (inner.point e t) = k).map fun t => read (inner.element e t)).foldl
          op init).foldl op init := by
    rw [hkeys, List.map_map]
    rfl
  rw [hfold, foldl_map_foldl hinit, ← List.map_flatMap]
  unfold foldElements
  apply List.Perm.foldl_op_eq
  have hall : (keys.flatMap fun k => (inner.passing e).filter
      fun t => root'.map (inner.point e t) = k).Perm
        ((inner.passing e).filter fun t => shape.map (inner.point e t) = i) :=
    (flatMap_filter_perm _ _ hnodup).trans
      (.of_eq (List.filter_congr fun t ht => by simp only [hmem t ht]))
  refine (hall.map _).trans ?_
  have hperm := (h.filter_perm (i := i) hf hshape).map read
  rwa [List.map_map] at hperm

end Fusion.Balanced
end FusionCompiler
