import Mathlib
import FusionCompiler.Proofs.Lower.Promotion

/-!
# Threads that hold valid values

A reduction over a launch type leaves its result in the threads at index zero of
that type.  What is computed from the result is valid in these threads only,
until a broadcast along the type spreads it.  Lowering follows this along the
expressions in order and restricts each one to the threads that can compute it.

An expression that binds an axis of its own to such a type loses work: the
threads at other indices are the ones that should have computed the rest of the
axis.  Nothing in the checks of a schedule rules this out, but a schedule that
binds the axes of producers and consumers alike cannot run into it, since no
launch type may bind two axes of one tensor.

Main results:

- Theorem `ThreadValidity.build_expr_iff`: an expression is restricted along the
  types at whose index zero one of its operands is held, and along no others.
- Theorem `Lowered.losesNoWork_iff`: a kernel loses no work if and only if no
  expression binds an axis to a type along which it reads a value held at index
  zero, and so if producers and consumers are bound alike.
-/

namespace FusionCompiler

/-! ## Sets of parallel types -/

namespace ParallelSet

variable (s s' : ParallelSet) (t : ParallelType)

/-- Membership in a set given by a test. -/
@[simp]
theorem contains_ofPred (q : ParallelType → Bool) : (ofPred q).contains t = q t := by
  have hall : t ∈ ParallelType.all := by cases t <;> decide
  rw [Bool.eq_iff_iff]
  simp [contains, ofPred, hall]

/-- The empty set has no types. -/
@[simp]
theorem contains_empty : (∅ : ParallelSet).contains t = false :=
  rfl

/-- Membership in a set given by a list. -/
@[simp]
theorem contains_ofList (l : List ParallelType) : (ofList l).contains t = l.contains t :=
  contains_ofPred t _

/-- Membership in a union. -/
@[simp]
theorem contains_union : (s.union s').contains t = (s.contains t || s'.contains t) :=
  contains_ofPred t _

/-- Membership in an intersection. -/
@[simp]
theorem contains_inter : (s.inter s').contains t = (s.contains t && s'.contains t) :=
  contains_ofPred t _

/-- Membership in a difference. -/
@[simp]
theorem contains_diff : (s.diff s').contains t = (s.contains t && !s'.contains t) :=
  contains_ofPred t _

/-- What is in a union of sets. -/
theorem contains_foldl_union {α : Type} (g : α → ParallelSet) (l : List α) :
    (l.foldl (fun s x => s.union (g x)) s).contains t = true ↔
      s.contains t = true ∨ ∃ x ∈ l, (g x).contains t = true := by
  induction l generalizing s with
  | nil => simp
  | cons x l ih =>
      rw [List.foldl_cons, ih]
      simp [or_assoc]

end ParallelSet

/-! ## Values held at index zero -/

namespace LoopPlan

open Fusion

variable {p : LoopPlan} {t : ParallelType} {e : ExprId} {u v : ValueId}

/-- The broadcast `e` makes a new axis that is bound to `t`. -/
def Spreads (p : LoopPlan) (e : ExprId) (t : ParallelType) : Prop :=
  ∃ flags, (p.fusion.expr e).kind = .broadcast flags ∧
    (ThreadValidity.newAxisTypes p (p.fusion.expr e).output flags).contains t = true

/-- Only the threads at index zero along `t` hold the tensor: it is reduced over `t`, or computed
from such a tensor and not spread along `t`. -/
inductive HeldAtZero (p : LoopPlan) (t : ParallelType) : ValueId → Prop where
  | reduced {e : ExprId} {v : ValueId} (he : e ∈ p.fusion.tensorExprs)
      (hv : v ∈ p.fusion.tensorOutputs e) (hkind : (p.fusion.expr e).kind.isReduction = true)
      (ht : (p.groups.reducedTypes p.fusion v).contains t = true) : HeldAtZero p t v
  | inherited {e : ExprId} {u v : ValueId} (he : e ∈ p.fusion.tensorExprs)
      (hv : v ∈ p.fusion.tensorOutputs e) (hu : u ∈ p.fusion.tensorInputs e)
      (hheld : HeldAtZero p t u) (hspread : ¬ p.Spreads e t) : HeldAtZero p t v

/-- The reduced types of a tensor are the launch types of its reduced leaves. -/
theorem contains_reducedTypes : (p.groups.reducedTypes p.fusion v).contains t = true ↔
    (∃ a ∈ p.fusion.leaf v, (p.fusion.axis a).isReduction = true ∧ p.groups.parallel a = t) ∧
      t.isLaunch = true := by
  simp [LoopGroups.reducedTypes, and_assoc]

/-- What only the first thread holds is computed. -/
theorem HeldAtZero.computed (h : p.HeldAtZero t v) (hw : Wired p.fusion) :
    p.fusion.definition v ≠ none := by
  cases h with
  | reduced _ hv => simp [hw.definition_eq (List.mem_filter.1 hv).1]
  | inherited _ hv => simp [hw.definition_eq (List.mem_filter.1 hv).1]

/-- Only launch types have a first thread. -/
theorem HeldAtZero.isLaunch (h : p.HeldAtZero t v) : t.isLaunch = true := by
  induction h with
  | reduced _ _ _ ht => exact (contains_reducedTypes.1 ht).2
  | inherited _ _ _ _ _ ih => exact ih

/-- The tensors that an expression computes. -/
theorem mem_tensorOutputs {f : Fusion} : v ∈ f.tensorOutputs e ↔
    v ∈ (f.expr e).outputs ∧ f.isTensor v = true :=
  List.mem_filter

/-- The tensors that an expression reads. -/
theorem mem_tensorInputs {f : Fusion} : v ∈ f.tensorInputs e ↔
    v ∈ (f.expr e).inputs ∧ f.isTensor v = true := by
  simp [Fusion.tensorInputs, Fusion.mem_foldl_addNew]

end LoopPlan

namespace ThreadValidity

open LoopPlan Fusion

variable {p : LoopPlan} {t : ParallelType} {e : ExprId} {v : ValueId} {m : ThreadValidity}
  {done rest : List ExprId}

/-! ## One expression -/

/-- An expression takes over the types along which one of its operands is held. -/
theorem expr_addExpr (p : LoopPlan) (m : ThreadValidity) (e e' : ExprId) (t : ParallelType) :
    ((addExpr p m e).expr e').contains t = true ↔
      if e' = e then ∃ u ∈ p.fusion.tensorInputs e, (m.tensor u).contains t = true
      else (m.expr e').contains t = true := by
  unfold addExpr ThreadValidity.expr
  dsimp only
  rw [List.lookup_cons]
  by_cases h : e' = e
  · simp [h, ParallelSet.contains_foldl_union]
  · simp [h, beq_eq_false_iff_ne.2 h]

/-- A search among entries that were put in front. -/
theorem lookup_map_append {β : Type} (g : ValueId → β) (l : List ValueId)
    (entries : List (ValueId × β)) (v : ValueId) :
    (l.map (fun u => (u, g u)) ++ entries).lookup v =
      if v ∈ l then some (g v) else entries.lookup v := by
  induction l with
  | nil => rfl
  | cons u l ih =>
      rw [List.map_cons, List.cons_append, List.lookup_cons]
      by_cases h : v = u
      · simp [h]
      · simp [beq_eq_false_iff_ne.2 h, h, ih]

/-- What an expression passes on: the types it reduces over, and those of its operands that it does
not spread along. -/
theorem tensor_addExpr (p : LoopPlan) (m : ThreadValidity) (e : ExprId) (v : ValueId)
    (t : ParallelType) :
    ((addExpr p m e).tensor v).contains t = true ↔
      if v ∈ p.fusion.tensorOutputs e then
        ((p.fusion.expr e).kind.isReduction = true ∧
          (p.groups.reducedTypes p.fusion v).contains t = true) ∨
        (∃ u ∈ p.fusion.tensorInputs e, (m.tensor u).contains t = true) ∧ ¬ p.Spreads e t
      else (m.tensor v).contains t = true := by
  have hinherited := ParallelSet.contains_foldl_union ∅ t m.tensor (p.fusion.tensorInputs e)
  simp only [ParallelSet.contains_empty, Bool.false_eq_true, false_or] at hinherited
  unfold addExpr Spreads
  dsimp only
  generalize (p.fusion.tensorInputs e).foldl (fun s u => ParallelSet.union s (m.tensor u)) ∅ =
    inherited at hinherited ⊢
  rw [← hinherited, ThreadValidity.tensor, lookup_map_append]
  split
  case isFalse => rfl
  case isTrue =>
      rw [Option.getD_some]
      cases hkind : (p.fusion.expr e).kind with
      | reduction op init | welford => simp [ExprKind.isReduction, or_comm]
      | broadcast flags =>
          simp only [ExprKind.isReduction, Bool.false_eq_true, if_false, false_and, false_or,
            ParallelSet.contains_diff, ParallelSet.contains_inter, Bool.and_eq_true,
            Bool.not_eq_true', Bool.and_eq_false_iff, ExprKind.broadcast.injEq, exists_eq_left']
          grind
      | unary op | binary op | select => simp [ExprKind.isReduction]

/-! ## All expressions in order -/

section Built

variable (hw : Wired p.fusion) (hf : Founded p.fusion)

include hw in
/-- The first thread alone holds a result just if the expression reduces along the type, or it reads
such a tensor and has no loop of the type. -/
theorem heldAtZero_iff (he : e ∈ p.fusion.tensorExprs) (hv : v ∈ p.fusion.tensorOutputs e) :
    p.HeldAtZero t v ↔
      ((p.fusion.expr e).kind.isReduction = true ∧
          (p.groups.reducedTypes p.fusion v).contains t = true) ∨
        (∃ u ∈ p.fusion.tensorInputs e, p.HeldAtZero t u) ∧ ¬ p.Spreads e t := by
  have hdef := hw.definition_eq (mem_tensorOutputs.1 hv).1
  constructor
  · intro h
    cases h with
    | reduced he' hv' hkind ht =>
        have hdef' := hw.definition_eq (mem_tensorOutputs.1 hv').1
        rw [hdef] at hdef'
        cases hdef'
        exact .inl ⟨hkind, ht⟩
    | inherited he' hv' hu hheld hspread =>
        have hdef' := hw.definition_eq (mem_tensorOutputs.1 hv').1
        rw [hdef] at hdef'
        cases hdef'
        exact .inr ⟨⟨_, hu, hheld⟩, hspread⟩
  · rintro (⟨hkind, ht⟩ | ⟨⟨u, hu, hheld⟩, hspread⟩)
    · exact .reduced he hv hkind ht
    · exact .inherited he hv hu hheld hspread

/-- What is recorded after some of the expressions is right for all tensors computed so far. -/
structure Describes (p : LoopPlan) (done : List ExprId) (m : ThreadValidity) : Prop where
  tensor : ∀ e ∈ done, ∀ v ∈ p.fusion.tensorOutputs e, ∀ t,
    (m.tensor v).contains t = true ↔ p.HeldAtZero t v
  pending : ∀ v, (∀ e ∈ done, v ∉ p.fusion.tensorOutputs e) → ∀ t, (m.tensor v).contains t = false
  expr : ∀ e ∈ done, ∀ t,
    (m.expr e).contains t = true ↔ ∃ u ∈ p.fusion.tensorInputs e, p.HeldAtZero t u

include hw hf

/-- The operands of the next expression are all recorded. -/
theorem Describes.operand (h : Describes p done m) (heq : p.fusion.tensorExprs = done ++ e :: rest)
    (hv : v ∈ p.fusion.tensorInputs e) : (m.tensor v).contains t = true ↔ p.HeldAtZero t v := by
  obtain ⟨hread, htensor⟩ := mem_tensorInputs.1 hv
  cases hdef : p.fusion.definition v with
  | some d =>
      obtain ⟨x, hx, hmem⟩ := hf.defined v d hdef
      refine h.tensor d (hf.tensorExprs_inOrder heq hread htensor hdef) v ?_ t
      exact mem_tensorOutputs.2 ⟨by rwa [Fusion.expr, hx], htensor⟩
  | none =>
      have hnone : ∀ d, v ∉ p.fusion.tensorOutputs d := by
        intro d hd
        rw [hw.definition_eq (mem_tensorOutputs.1 hd).1] at hdef
        cases hdef
      rw [h.pending v (fun d _ => hnone d) t]
      constructor
      · intro h
        cases h
      · intro h
        cases h with
        | reduced _ hd => exact absurd hd (hnone _)
        | inherited _ hd => exact absurd hd (hnone _)

/-- One more expression. -/
theorem Describes.step (h : Describes p done m) (heq : p.fusion.tensorExprs = done ++ e :: rest) :
    Describes p (done ++ [e]) (addExpr p m e) := by
  have hoperands : ∀ t, (∃ u ∈ p.fusion.tensorInputs e, (m.tensor u).contains t = true) ↔
      ∃ u ∈ p.fusion.tensorInputs e, p.HeldAtZero t u := fun t =>
    exists_congr fun u => and_congr_right fun hu => h.operand hw hf heq hu
  have he : e ∈ p.fusion.tensorExprs := by simp [heq]
  have hnew : e ∉ done := by
    have hnodup := hf.tensorExprs_nodup
    rw [heq, List.nodup_append] at hnodup
    exact fun hmem => hnodup.2.2 e hmem e List.mem_cons_self rfl
  refine ⟨fun d hd v hv t => ?_, fun v hv t => ?_, fun d hd t => ?_⟩
  · rw [tensor_addExpr]
    split
    case isTrue hout => rw [heldAtZero_iff hw he hout, hoperands]
    case isFalse hout =>
        rcases List.mem_append.1 hd with hd | hd
        · exact h.tensor d hd v hv t
        · rw [List.mem_singleton.1 hd] at hv
          exact absurd hv hout
  · rw [Bool.eq_false_iff, Ne, tensor_addExpr, if_neg (hv e (by simp))]
    simp [h.pending v fun d hd => hv d (List.mem_append_left _ hd)]
  · rw [expr_addExpr]
    split
    case isTrue heq => rw [heq, hoperands]
    case isFalse hne =>
        rcases List.mem_append.1 hd with hd | hd
        · exact h.expr d hd t
        · exact absurd (List.mem_singleton.1 hd) hne

/-- An expression is restricted along the types at whose index zero one of its operands is held. -/
theorem build_expr_iff (he : e ∈ p.fusion.tensorExprs) :
    ((build p).expr e).contains t = true ↔ ∃ u ∈ p.fusion.tensorInputs e, p.HeldAtZero t u := by
  have hrun : ∀ rest done : List ExprId, ∀ m, p.fusion.tensorExprs = done ++ rest →
      Describes p done m → Describes p p.fusion.tensorExprs (rest.foldl (addExpr p) m) := by
    intro rest
    induction rest with
    | nil =>
        intro done m heq h
        rw [heq, List.append_nil]
        exact h
    | cons e rest ih =>
        intro done m heq h
        exact ih (done ++ [e]) _ (by simpa using heq) (h.step hw hf heq)
  refine (hrun _ [] {} rfl ⟨?_, ?_, ?_⟩).expr e he t
  · simp
  · exact fun v _ t => rfl
  · simp

end Built

end ThreadValidity

/-! ## Bindings of producers and consumers -/

namespace LoopPlan

open Fusion

variable {p : LoopPlan} {t : ParallelType} {v : ValueId}

/-- No two leaves of a tensor are bound to one launch type, broadcasts aside. -/
def BindsOnce (p : LoopPlan) (v : ValueId) : Prop :=
  ∀ a ∈ p.fusion.leaf v, ∀ b ∈ p.fusion.leaf v, (p.fusion.axis a).isBroadcast = false →
    (p.fusion.axis b).isBroadcast = false → (p.groups.parallel a).isLaunch = true →
      p.groups.parallel a = p.groups.parallel b → a = b

/-- Types without a repetition. -/
theorem firstRepeated_eq_none {seen l : List ParallelType} (h : firstRepeated seen l = none) :
    l.Nodup ∧ ∀ t ∈ l, t ∉ seen := by
  induction l generalizing seen with
  | nil => simp
  | cons t l ih =>
      rw [firstRepeated] at h
      split at h
      · cases h
      case isFalse hnew =>
          obtain ⟨hnodup, hrest⟩ := ih h
          have ht : t ∉ seen := by simpa using hnew
          refine ⟨List.nodup_cons.2 ⟨fun hmem => ?_, hnodup⟩, fun u hu => ?_⟩
          · exact hrest t hmem List.mem_cons_self
          · rcases List.mem_cons.1 hu with rfl | hu
            · exact ht
            · exact fun hseen => hrest u hu (List.mem_cons_of_mem t hseen)

/-- If the check passes, no tensor binds a type to two leaves. -/
theorem bindsOnce_of_checkLeafBindings (h : p.checkLeafBindings = .ok ())
    (hv : v ∈ p.fusion.allTensors) : p.BindsOnce v := by
  have hcheck := Results.of_forM h hv
  dsimp only at hcheck
  split at hcheck
  · cases hcheck
  case h_2 hnone =>
      have hnodup := (firstRepeated_eq_none hnone).1
      rw [List.filter_map] at hnodup
      intro a ha b hb hca hcb hlaunch heq
      refine List.inj_on_of_nodup_map hnodup ?_ ?_ heq
      · simp [ha, hca, hlaunch]
      · simp [hb, hcb, ← heq, hlaunch]

/-- No expression binds an axis to a launch type at whose index zero one of its operands is held. -/
def ReadsHeld (p : LoopPlan) : Prop :=
  ∀ e ∈ p.fusion.tensorExprs, (p.fusion.expr e).kind.isBroadcast = false →
    ∀ v ∈ p.fusion.tensorOutputs e, ∀ a ∈ p.fusion.leaf v, (p.fusion.axis a).isBroadcast = false →
      ∀ u ∈ p.fusion.tensorInputs e, ¬ p.HeldAtZero (p.groups.parallel a) u

/-- Axes that producers and consumers bind to the launch are bound alike: where an expression binds
an axis to a launch type, so do the tensors that it reads and that are computed before it. -/
def BoundAlike (p : LoopPlan) : Prop :=
  ∀ e ∈ p.fusion.tensorExprs, ∀ v ∈ p.fusion.tensorOutputs e, ∀ a ∈ p.fusion.leaf v,
    (p.fusion.axis a).isBroadcast = false → (p.groups.parallel a).isLaunch = true →
      ∀ u ∈ p.fusion.tensorInputs e, p.fusion.definition u ≠ none →
        ∃ b ∈ p.fusion.leaf u, (p.fusion.axis b).isBroadcast = false ∧
          (p.fusion.axis b).isReduction = false ∧ p.groups.parallel b = p.groups.parallel a

instance (p : LoopPlan) : Decidable p.BoundAlike :=
  inferInstanceAs (Decidable (∀ e ∈ p.fusion.tensorExprs, ∀ v ∈ p.fusion.tensorOutputs e,
    ∀ a ∈ p.fusion.leaf v, _ → _ → ∀ u ∈ p.fusion.tensorInputs e, _ → ∃ b ∈ p.fusion.leaf u, _))

section BoundAlike

variable (h : p.BoundAlike) (hw : Wired p.fusion)
  (honce : ∀ v ∈ p.fusion.allTensors, p.BindsOnce v)

include h hw honce

/-- A tensor that is only held at index zero along a type has no axis of its own there. -/
theorem BoundAlike.not_heldAtZero {b : AxisId} (hb : b ∈ p.fusion.leaf v)
    (hiter : (p.fusion.axis b).isBroadcast = false ∧ (p.fusion.axis b).isReduction = false)
    (hbound : p.groups.parallel b = t) : ¬ p.HeldAtZero t v := by
  intro hheld
  have ht := hheld.isLaunch
  induction hheld generalizing b with
  | @reduced e v he hv hkind hred =>
      -- the reduced axis and the axis `b` would both be bound to `t`
      obtain ⟨⟨r, hr, hreduction, hbind⟩, -⟩ := contains_reducedTypes.1 hred
      obtain ⟨hout, htensor⟩ := mem_tensorOutputs.1 hv
      have hall : v ∈ p.fusion.allTensors :=
        mem_allTensors.2 ⟨.inr ⟨e, (mem_tensorExprs.1 he).1, .inr hout⟩, htensor⟩
      have hrb : (p.fusion.axis r).isBroadcast = false := by
        unfold Axis.isReduction at hreduction
        unfold Axis.isBroadcast
        rw [eq_of_beq hreduction]
        rfl
      have heq := honce v hall r hr b hb hrb hiter.1 (hbind ▸ ht) (hbind.trans hbound.symm)
      rw [heq, hiter.2] at hreduction
      cases hreduction
  | @inherited e u v he hv hu hheld hspread ih =>
      obtain ⟨c, hc, hcb, hcr, hbind⟩ :=
        h e he v hv b hb hiter.1 (hbound ▸ ht) u hu (hheld.computed hw)
      exact ih hc ⟨hcb, hcr⟩ (hbind.trans hbound)

/-- Loops that are bound alike read what is held. -/
theorem BoundAlike.readsHeld : p.ReadsHeld := by
  intro e he _ v hv a ha hiter u hu hheld
  obtain ⟨b, hb, hbroadcast, hreduction, hbound⟩ :=
    h e he v hv a ha hiter hheld.isLaunch u hu (hheld.computed hw)
  exact h.not_heldAtZero hw honce hb ⟨hbroadcast, hreduction⟩ hbound hheld

end BoundAlike

end LoopPlan

/-! ## Lost work -/

namespace Lowered

open Fusion LoopPlan

variable {calls : List Call} {f : Fusion} {l : Lowered}

/-- What an expression is restricted to index zero of is bound to no axis that it computes. -/
def LosesNoWork (l : Lowered) : Prop :=
  ∀ e ∈ l.plan.fusion.tensorExprs, (l.plan.fusion.expr e).kind.isBroadcast = false →
    ∀ t, (l.validity.expr e).contains t = true →
      ∀ v ∈ l.plan.fusion.tensorOutputs e, ∀ a ∈ l.plan.fusion.leaf v,
        (l.plan.fusion.axis a).isBroadcast = false → l.plan.groups.parallel a ≠ t

/-- No work is lost just if all readers of what the first thread holds can read it. -/
theorem losesNoWork_iff_readsHeld (hw : Wired l.plan.fusion) (hf : Founded l.plan.fusion)
    (hvalidity : l.validity = ThreadValidity.build l.plan) :
    l.LosesNoWork ↔ l.plan.ReadsHeld := by
  unfold LosesNoWork
  rw [hvalidity]
  constructor
  · intro h e he hkind v hv a ha hiter u hu hheld
    exact h e he hkind _ ((ThreadValidity.build_expr_iff hw hf he).2 ⟨u, hu, hheld⟩) v hv a ha
      hiter rfl
  · intro h e he hkind t ht v hv a ha hiter heq
    obtain ⟨u, hu, hheld⟩ := (ThreadValidity.build_expr_iff hw hf he).1 ht
    exact h e he hkind v hv a ha hiter u hu (heq ▸ hheld)

/-- A kernel loses no work if and only if every expression reads, in all threads that compute it,
values that these threads hold, and so if producers and consumers are bound alike. -/
theorem losesNoWork_iff (h : applyAll Schedule.replay calls {} = some f) (hl : make f = .ok l) :
    (l.LosesNoWork ↔ l.plan.ReadsHeld) ∧ (l.plan.BoundAlike → l.LosesNoWork) := by
  obtain ⟨groups, -, -, hleaf, hvalidity⟩ := make_cases hl
  obtain ⟨hsound, hw⟩ := plan_sound h hl
  have hiff := losesNoWork_iff_readsHeld hw (hw.founded hsound) hvalidity
  refine ⟨hiff, fun halike => hiff.2 (halike.readsHeld hw fun v hv => ?_)⟩
  exact bindsOnce_of_checkLeafBindings hleaf hv

/-- Row sums with one block for each row and one thread for each column, negated by the blocks. -/
def negatedRowSums : List Call :=
  [.tensor [3, 4] [true, true] .float, .input ⟨0⟩, .reduce .add ⟨0⟩ [1],
    .unary .neg (.value ⟨7⟩), .output ⟨9⟩, .parallelize ⟨7⟩ 0 .blockX, .parallelize ⟨7⟩ 1 .threadX,
    .parallelize ⟨9⟩ 0 .blockX]

/-- The negated sums of rows lose no work. -/
theorem negatedRowSums_losesNoWork :
    ∃ f l, applyAll Schedule.replay negatedRowSums {} = some f ∧ make f = .ok l ∧
      (∃ e ∈ l.plan.fusion.tensorExprs, (l.validity.expr e).contains .threadX = true) ∧
      l.LosesNoWork := by
  have hrun : ((applyAll Schedule.replay negatedRowSums {}).any fun f =>
      (make f).toOption.any fun l => decide (l.plan.BoundAlike ∧
        ∃ e ∈ l.plan.fusion.tensorExprs, (l.validity.expr e).contains .threadX = true)) = true := by
    decide +kernel
  obtain ⟨f, hf, hl⟩ := (Option.any_eq_true _ _).1 hrun
  obtain ⟨l, hl, hchecks⟩ := (Option.any_eq_true _ _).1 hl
  obtain ⟨halike, hrestricted⟩ := of_decide_eq_true hchecks
  have hmake := Results.ok_of_toOption hl
  exact ⟨f, l, hf, hmake, hrestricted, (losesNoWork_iff hf hmake).2 halike⟩

/-- The same sums negated by the threads: each thread is to negate the sum of one row, but the sums
are held by the first thread. -/
def threadedNegation : List Call :=
  [.tensor [3, 4] [true, true] .float, .input ⟨0⟩, .reduce .add ⟨0⟩ [1],
    .unary .neg (.value ⟨7⟩), .output ⟨9⟩, .parallelize ⟨7⟩ 1 .threadX,
    .parallelize ⟨9⟩ 0 .threadX]

/-- A negation in all threads of what the first one holds loses work. -/
theorem threadedNegation_not_losesNoWork :
    ∃ f l, applyAll Schedule.replay threadedNegation {} = some f ∧ make f = .ok l ∧
      ¬ l.LosesNoWork := by
  have hrun : ((applyAll Schedule.replay threadedNegation {}).any fun f =>
      (make f).toOption.any fun l => decide (∃ e ∈ l.plan.fusion.tensorExprs,
        (l.plan.fusion.expr e).kind.isBroadcast = false ∧
        (l.validity.expr e).contains .threadX = true ∧
        ∃ v ∈ l.plan.fusion.tensorOutputs e, ∃ a ∈ l.plan.fusion.leaf v,
          (l.plan.fusion.axis a).isBroadcast = false ∧ l.plan.groups.parallel a = .threadX)) =
            true := by
    decide +kernel
  obtain ⟨f, hf, hl⟩ := (Option.any_eq_true _ _).1 hrun
  obtain ⟨l, hl, hchecks⟩ := (Option.any_eq_true _ _).1 hl
  obtain ⟨e, he, hkind, ht, v, hv, a, ha, hiter, hbound⟩ := of_decide_eq_true hchecks
  refine ⟨f, l, hf, Results.ok_of_toOption hl, fun hnone => ?_⟩
  exact hnone e he hkind .threadX ht v hv a ha hiter hbound

end Lowered
end FusionCompiler
