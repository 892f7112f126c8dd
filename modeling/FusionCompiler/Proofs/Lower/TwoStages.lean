import FusionCompiler.Proofs.Integers
import FusionCompiler.Proofs.Lower.CopiedNests
import FusionCompiler.Proofs.Lower.StagedFolds
import FusionCompiler.Proofs.Schedule.Calls
import FusionCompiler.Proofs.Schedule.Stages

/-!
# Reductions in two stages

A reduction computes, for every element of its result, the fold of the elements of
its operand that belong to it.  Factoring it makes two reductions of it, with the
same operator and the same initial value: the first one folds the chosen axes, the
second one the others.

Over integers, what the two reductions compute one after the other is compared
with the single fold.  Both start from the initial value, so an initial value that
changes what it is combined with enters too often.

Main results:

- Theorem `Schedule.Stage.looped_eq`: the loops of a stage fold what the loops over
  the history that it repeats fold.
- Theorem `Schedule.Factoring.Splits.second_confined`: the loops of the second stage
  stay inside.
- Theorem `Fusion.rfactor_reduced`: factoring a reduction does not change what it
  computes, if its initial value combined with itself gives it back.
- Theorem `Fusion.sumFromOne_not_reduced`: a sum that starts from one is not what
  its two stages compute.
-/

namespace FusionCompiler

namespace Fusion

/-- The values of the scalars that are known; others count as zero. -/
def constSizes (f : Fusion) (v : ValueId) : Int :=
  (f.constInt? v).getD 0

/-- An element of a reduction: the fold of all elements of the operand that belong to it. -/
def reduced (f : Fusion) (size : ValueId → Int) (v : ValueId) (read : List Int → Int)
    (i : List Int) : Int :=
  match f.definingExpr? v with
  | some ⟨.reduction op (.int init), _, _⟩ =>
    foldElements (f.view v).domain.root (f.extentBy size) op.onInts init (f.shape v) read i
  | _ => 0

/-- What the loops of a reduction compute for an element. -/
def looped (f : Fusion) (size : ValueId → Int) (v : ValueId) (read : List Int → Int)
    (i : List Int) : Int :=
  match f.definingExpr? v with
  | some ⟨.reduction op (.int init), _, _⟩ =>
    (f.loopNest v).fold (f.extentBy size) op.onInts init (f.shape v) read i
  | _ => 0

/-- The scalars have the values that the extents of all transformed axes are worked out to. -/
def WorkedOut (f : Fusion) (size : ValueId → Int) : Prop :=
  ∀ x ∈ f.transforms.toList, Exact (f.extentBy size) x

instance (f : Fusion) (size : ValueId → Int) : Decidable (f.WorkedOut size) :=
  inferInstanceAs (Decidable (∀ x ∈ f.transforms.toList, Exact (f.extentBy size) x))

theorem WorkedOut.exact {f : Fusion} {size : ValueId → Int} (h : f.WorkedOut size) {t : TransformId}
    (ht : f.HasTransform t) : Exact (f.extentBy size) (f.transform t) := by
  refine h _ ?_
  rw [transform, Array.getD_eq_getD_getElem?, Array.getElem?_eq_getElem ht]
  exact Array.getElem_mem_toList ht

/-- Fewer axes keep their extents. -/
theorem WorkedOut.of_extends {f f' : Fusion} {size : ValueId → Int} (hf : Sound f)
    (h : f'.WorkedOut size) (hext : Extends f f') {t : TransformId} (ht : f.HasTransform t) :
    Exact (f.extentBy size) (f.transform t) := by
  have hexact : Exact (f'.extentBy size) (f.transform t) :=
    hext.transform t ht ▸ h.exact (hext.hasTransform ht)
  refine hexact.congr fun a ha => ?_
  have hrecorded := hf.recorded t ht
  have hhas : f.HasAxis a := by
    rcases List.mem_append.1 ha with ha | ha
    · exact hrecorded.hasAxis_input ha
    · exact hrecorded.hasAxis_output ha
  exact congrArg size (hext.extent a hhas).symm

end Fusion

open Fusion

namespace Schedule

open Fusion.Balanced

variable {f f₁ : Fusion} {size : ValueId → Int} {v : ValueId} {root logical leaf : List AxisId}
  {ts ts' : List TransformId} {m : AxisMap} {reduces : AxisId → Bool} {read : List Int → Int}
  {i : List Int}

/-! ## The loops of a stage -/

section Loops

variable (h : Stage f f₁ (f₁.view v).domain m root logical leaf ts ts' reduces)

include h

theorem Stage.loopNest_eq (hf₁ : Sound f₁) :
    f₁.loopNest v = nest f₁ (root.map (imageOf m)) ts' (leaf.map (imageOf m)) := by
  have hhistory : f₁.history v = ts' := by
    have htarget := h.renamed.target.transformsBetween_eq hf₁
    rw [← h.root_eq, ← h.leaf_eq] at htarget
    exact htarget
  unfold loopNest Fusion.leaf TensorView.leaf
  rw [hhistory, h.root_eq, h.leaf_eq]
  rfl

theorem Stage.shape_eq :
    f₁.shape v = (logical.filter fun a => !reduces a).map (imageOf m) := by
  unfold shape
  rw [h.logical_eq, List.filter_map]
  congr 1
  refine List.filter_congr fun a ha => ?_
  rw [Function.comp_apply, (h.reduces a ha).2]

/-- The loops of a stage fold what the loops over the history that it repeats fold. -/
theorem Stage.looped_eq {op : BinaryOp} {init : Int} {ins outs : List ValueId} (hf : Sound f)
    (hf₁ : Sound f₁) (hdef : f₁.definingExpr? v = some ⟨.reduction op (.int init), ins, outs⟩)
    (hexact : ∀ t ∈ ts, Exact (f.extentBy size) (f.transform t)) (hsize : f₁.WorkedOut size)
    (hlogical : ∀ a ∈ logical, a ∈ root ++ f.outputsOf ts) :
    f₁.looped size v read i = (nest f root ts leaf).fold (f.extentBy size) op.onInts init
      (logical.filter fun a => !reduces a) read i := by
  have hextents := h.renamed.extents_eq hf hf₁ hexact
    (fun t ht => hsize.exact (h.renamed.target.has t ht)) fun a ha => (h.extent a ha).2
  unfold looped
  rw [hdef]
  dsimp only
  rw [h.loopNest_eq hf₁, h.shape_eq]
  exact h.renamed.fold_eq hf hf₁ hextents (fun a ha => hlogical a (List.mem_filter.1 ha).1) _ _ _ _

end Loops

/-! ## The loops of the second stage -/

/-- A transform of axes at the index zero. -/
theorem traced_zero {e x : AxisId → Int} {s : Transform}
    (h : ∀ a ∈ s.inputs ++ s.outputs, x a = 0) : Traced e x s := by
  cases s with
  | split a o i k innerSplit =>
      simp only [Transform.inputs, Transform.outputs, List.cons_append, List.nil_append,
        List.mem_cons, List.not_mem_nil, or_false, forall_eq_or_imp, forall_eq] at h
      simp [Traced, h]
  | merge o i out =>
      simp only [Transform.inputs, Transform.outputs, List.cons_append, List.nil_append,
        List.mem_cons, List.not_mem_nil, or_false, forall_eq_or_imp, forall_eq] at h
      simp [Traced, h]

/-- Where the loops of a reduction stay inside, so do those of its second stage. -/
theorem Factoring.Splits.second_confined {p : Factoring} {tensor : ValueId} {e : AxisId → Int}
    (hf : Sound f) (hp : p.Splits f tensor)
    (hs : Separable f p.domain.root p.history p.domain.leaf)
    (h : Meets f e p.domain.root p.history p.domain.leaf) :
    (nest f (p.between f) (p.history.filter (sparesReductions f))
      (p.domain.leaf.filter fun a => !p.chosen.contains a)).Confined e := by
  have hsecond := hp.second_balanced hf hs
  have hpos := h.balanced.extent_pos hf h.pos h.exact
  intro t ht
  obtain ⟨htuple, hguard⟩ := mem_passing.1 ht
  have htraced := hsecond.point_traced (e := e) hf t
  have hleaf : ∀ a ∈ p.domain.leaf.filter (fun a => !p.chosen.contains a), Inside e
      ((nest f (p.between f) (p.history.filter (sparesReductions f))
        (p.domain.leaf.filter fun a => !p.chosen.contains a)).point e t) a := by
    intro a ha
    rw [Inside, hsecond.point_leaf t a ha]
    exact (inside_assign hsecond.leaf_nodup htuple).2 a ha
  generalize (nest f (p.between f) (p.history.filter (sparesReductions f))
    (p.domain.leaf.filter fun a => !p.chosen.contains a)).point e t = y at hguard htraced hleaf ⊢
  -- the first tuple of the first stage that leads to these partial results
  set x : AxisId → Int := fun a => if (f.axis a).isReduction then 0 else y a
  have hzero : ∀ a, (f.axis a).isReduction = true → x a = 0 := fun a hred => if_pos hred
  have hsame : ∀ a, (f.axis a).isReduction = false → x a = y a := fun a hred =>
    if_neg (by simp [hred])
  have hinside : ∀ a ∈ p.domain.root ++ f.outputsOf p.history, Inside e x a := by
    refine h.inside_of_traced hf (fun s hmem => ?_) (fun a ha => ?_) fun a ha => ?_
    · cases hspares : sparesReductions f s with
      | false =>
          exact traced_zero fun a ha => hzero a (by rw [hs.isReduction_eq hmem ha, hspares]; rfl)
      | true =>
          exact (htraced s (List.mem_filter.2 ⟨hmem, hspares⟩)).congr fun a ha =>
            hsame a (by rw [hs.isReduction_eq hmem ha, hspares]; rfl)
    · cases hred : (f.axis a).isReduction with
      | true =>
          rw [Inside, hzero a hred]
          exact ⟨Int.le_refl 0, hpos a (h.balanced.leaf_mem_axes ha)⟩
      | false =>
          rw [Inside, hsame a hred]
          refine hleaf a (List.mem_filter.2 ⟨ha, ?_⟩)
          have hchosen : a ∉ p.chosen := fun hmem => by
            rw [(hp.chosen a hmem).2] at hred
            cases hred
          simpa using hchosen
    · cases hred : (f.axis a).isReduction with
      | true =>
          rw [hzero a hred]
          exact h.pos a ha
      | false =>
          rw [hsame a hred]
          exact hguard a ((hp.mem_between hf hs).2 (.inr ⟨ha, hred⟩))
  intro a ha
  rw [axes_nest] at ha
  have hplain : (f.axis a).isReduction = false → a ∈ p.domain.root ++ f.outputsOf p.history →
      Inside e y a := fun hred hmem => by
    have hin := hinside a hmem
    rwa [Inside, hsame a hred] at hin
  rcases List.mem_append.1 ha with hbetween | hout
  · rcases (hp.mem_between hf hs).1 hbetween with hkept | ⟨hroot, hred⟩
    · obtain ⟨hmem, -, hchosen⟩ := Factoring.mem_kept.1 hkept
      exact hleaf a (List.mem_filter.2 ⟨hmem, by simpa using hchosen⟩)
    · exact hplain hred (List.mem_append_left _ hroot)
  · rw [mem_outputsOf,
      hs.exists_spared_iff Transform.outputs fun _ _ => List.mem_append_right _] at hout
    exact hplain hout.2 (List.mem_append_right _ (mem_outputsOf.2 hout.1))

end Schedule

namespace Fusion

open Fusion.Balanced

/-- Over integers, factoring a reduction does not change what it computes, if the operator combines
the initial value with itself to itself again. -/
theorem rfactor_reduced {f f' : Fusion} {size : ValueId → Int} {v out : ValueId} {axes : List Int}
    {op : BinaryOp} {init : Int} {ins : List ValueId} (hf : Sound f)
    (h : (Schedule.rfactor v axes).Returns f out f')
    (hdef : f.definingExpr? v = some ⟨.reduction op (.int init), ins, [v]⟩)
    (hop : op ∈ [.add, .mul, .max, .min]) (hinit : op.onInts init init = init)
    (hs : Schedule.Separable f (f.view v).domain.root (f.history v) (f.leaf v))
    (hpos : ∀ a ∈ (f.view v).domain.root, 0 < f.extentBy size a) (hsize : f'.WorkedOut size)
    (hconfined : (f.loopNest v).Confined (f.extentBy size)) (read : List Int → Int)
    (i : List Int) :
    f'.looped size v (f'.looped size out read) i = f.reduced size v read i := by
  have hf' := (Schedule.rfactor_keeps hf h).sound
  have hext := (Schedule.rfactor_keeps hf h).ext
  obtain ⟨hnew, hdef', p, hp, ⟨m₁, ts₁, h₁⟩, ⟨m₂, ts₂, h₂⟩⟩ :=
    Schedule.rfactor_stages hf hdef hs h
  have hs' : Schedule.Separable f p.domain.root p.history p.domain.leaf := by
    rw [hp.domain, hp.history]
    exact hs
  have hexact : ∀ t ∈ p.history, Exact (f.extentBy size) (f.transform t) :=
    fun t ht => hsize.of_extends hf hext (hs'.balanced.has t ht)
  have hfirst : Meets f (f.extentBy size) p.domain.root p.history p.domain.leaf := by
    refine ⟨hs'.balanced, hp.domain ▸ hpos, hexact, ?_⟩
    rw [hp.domain, hp.history]
    exact hconfined
  have haxes : ∀ a ∈ p.between f, a ∈ p.domain.root ++ f.outputsOf p.history :=
    fun a ha => hp.frontier_mem_axes hf hs' (List.mem_filter.1 ha).1
  have hpositive := hfirst.balanced.extent_pos hf hfirst.pos hexact
  have hsecond : Meets f (f.extentBy size) (p.between f)
      (p.history.filter (Schedule.sparesReductions f))
      (p.domain.leaf.filter fun a => !p.chosen.contains a) :=
    ⟨hp.second_balanced hf hs', fun a ha => hpositive a (haxes a ha),
      fun t ht => hexact t (List.mem_filter.1 ht).1, hp.second_confined hf hs' hfirst⟩
  have hbetween : (p.frontier f).filter (fun a =>
      !(!p.rfactored.contains a && (f.axis a).isReduction)) = p.between f :=
    List.filter_congr fun a _ => by rw [Bool.not_and, Bool.not_not]
  have hpartial : ∀ i, f'.looped size out read i = (nest f p.domain.root p.history
      p.domain.leaf).fold (f.extentBy size) op.onInts init (p.between f) read i := by
    intro i
    rw [h₁.looped_eq hf hf' hnew hexact hsize fun a ha => hp.frontier_mem_axes hf hs' ha, hbetween]
  have hmem : ∀ a ∈ f.shape v, a ∈ p.between f ∧ a ∈ p.domain.root := by
    intro a ha
    rw [← hp.filter_between hf hs'] at ha
    obtain ⟨ha, hred⟩ := List.mem_filter.1 ha
    exact ⟨ha, hp.mem_root_of_frontier hf hs' (List.mem_filter.1 ha).1 (by simpa using hred)⟩
  have := BinaryOp.commutative_onInts hop
  have := BinaryOp.associative_onInts hop
  rw [h₂.looped_eq hf hf' hdef' (fun t ht => hexact t (List.mem_filter.1 ht).1) hsize
    fun a ha => List.mem_append_left _ ha, funext hpartial, hp.filter_between hf hs',
    hfirst.fold_fold hf hsecond haxes (fun a ha => (hmem a ha).1) (fun a ha => (hmem a ha).2) hinit]
  unfold reduced
  rw [hdef, hp.domain]

/-- The parts of a reduction of integers: operator, initial value, operands and results. -/
def integerReduction? (f : Fusion) (v : ValueId) :
    Option (BinaryOp × Int × List ValueId × List ValueId) :=
  match f.definingExpr? v with
  | some ⟨.reduction op (.int init), ins, outs⟩ => some (op, init, ins, outs)
  | _ => none

theorem definingExpr?_of_integerReduction? {f : Fusion} {v : ValueId} {op : BinaryOp}
    {init : Int} {ins outs : List ValueId} (h : f.integerReduction? v = some (op, init, ins, outs)) :
    f.definingExpr? v = some ⟨.reduction op (.int init), ins, outs⟩ := by
  unfold integerReduction? at h
  split at h
  case h_1 hdef =>
      cases h
      exact hdef
  case h_2 => cases h

/-- The sums of two rows of five numbers, in blocks of two. -/
def rowSums : List Call :=
  [.tensor [2, 5] [true, true] .int64, .input ⟨0⟩, .reduceFrom .add [1] (.int 0) ⟨0⟩, .output ⟨7⟩,
    .split ⟨7⟩ 1 (.const 2) true]

/-- The sum of the sums of the blocks of a row is the sum of the row, whatever its numbers are. -/
theorem rowSums_reduced :
    ∃ f f', applyAll Schedule.replay rowSums {} = some f ∧
      (Schedule.rfactor ⟨7⟩ [2]).Returns f ⟨11⟩ f' ∧ ∀ read i,
        f'.looped f'.constSizes ⟨7⟩ (f'.looped f'.constSizes ⟨11⟩ read) i =
          f.reduced f'.constSizes ⟨7⟩ read i := by
  have hrun : ((applyAll Schedule.replay rowSums {}).any fun f =>
      f.integerReduction? ⟨7⟩ == some (.add, 0, [⟨0⟩], [⟨7⟩]) &&
        match (Schedule.rfactor ⟨7⟩ [2]).run.run f with
        | (.ok ⟨11⟩, f') =>
          decide (Schedule.Separable f (f.view ⟨7⟩).domain.root (f.history ⟨7⟩) (f.leaf ⟨7⟩) ∧
            (∀ a ∈ (f.view ⟨7⟩).domain.root, 0 < f.extentBy f'.constSizes a) ∧
              f'.WorkedOut f'.constSizes ∧ (f.loopNest ⟨7⟩).Confined (f.extentBy f'.constSizes))
        | _ => false) = true := by
    decide +kernel
  obtain ⟨f, hf, h⟩ := (Option.any_eq_true _ _).1 hrun
  obtain ⟨hdef, h⟩ := Bool.and_eq_true_iff.1 h
  split at h
  case h_2 => cases h
  case h_1 f' hfactored =>
      obtain ⟨hs, hpos, hsize, hconfined⟩ := of_decide_eq_true h
      exact ⟨f, f', hf, hfactored, rfactor_reduced (applyAll_sound hf) hfactored
        (definingExpr?_of_integerReduction? (beq_iff_eq.1 hdef)) (by decide) (by decide) hs hpos
        hsize hconfined⟩

/-- The sum of four numbers and one, in two blocks. -/
def sumFromOne : List Call :=
  [.tensor [4] [true] .int64, .input ⟨0⟩, .reduceFrom .add [0] (.int 1) ⟨0⟩, .output ⟨4⟩,
    .split ⟨4⟩ 0 (.const 2) true]

/-- The numbers one to four. -/
def oneToFour (t : List Int) : Int :=
  t.sum + 1

/-- The sum of the blocks starts from one as the sum of all numbers does, but so does the sum of
each block. -/
theorem sumFromOne_not_reduced :
    ∃ f f', applyAll Schedule.replay sumFromOne {} = some f ∧
      (Schedule.rfactor ⟨4⟩ [1]).Returns f ⟨8⟩ f' ∧ f.reduced f.constSizes ⟨4⟩ oneToFour [] = 11 ∧
      f'.looped f'.constSizes ⟨4⟩ (f'.looped f'.constSizes ⟨8⟩ oneToFour) [] = 13 := by
  have hrun : ((applyAll Schedule.replay sumFromOne {}).any fun f =>
      match (Schedule.rfactor ⟨4⟩ [1]).run.run f with
      | (.ok ⟨8⟩, f') => decide (f.reduced f.constSizes ⟨4⟩ oneToFour [] = 11 ∧
          f'.looped f'.constSizes ⟨4⟩ (f'.looped f'.constSizes ⟨8⟩ oneToFour) [] = 13)
      | _ => false) = true := by
    decide +kernel
  obtain ⟨f, hf, h⟩ := (Option.any_eq_true _ _).1 hrun
  split at h
  case h_2 => cases h
  case h_1 f' hfactored =>
      obtain ⟨hreduced, hlooped⟩ := of_decide_eq_true h
      exact ⟨f, f', hf, hfactored, hreduced, hlooped⟩

end Fusion
end FusionCompiler
