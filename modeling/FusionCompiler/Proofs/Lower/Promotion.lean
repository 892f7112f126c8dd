import FusionCompiler.Lower.Lowered
import FusionCompiler.Proofs.Fusion.Ordering
import FusionCompiler.Proofs.Schedule.Calls

/-!
# Plans of lowered fusions

Lowering works on a plan in which register tensors of a size unknown at compile
time have moved to global memory.  The plan's fusion is the scheduled one in
everything else, so what holds of a fusion that calls lead to holds of it too.

Main results:

- Theorem `Lowered.make_cases`: what a lowered fusion was made from and which
  checks it has passed.
- Theorem `Lowered.plan_sound`: the fusion of the plan is sound and wired.
-/

namespace FusionCompiler

namespace Fusion

variable {f f' f'' : Fusion}

/-- The later fusion differs from the earlier one in where its tensors live only. -/
structure Relocated (f f' : Fusion) : Prop where
  graph : SameGraph f f'
  flow : SameFlow f f'
  domain : ∀ v, (f'.view v).domain = (f.view v).domain
  computeAt : ∀ v, (f'.view v).computeAt = (f.view v).computeAt

namespace Relocated

protected theorem refl (f : Fusion) : Relocated f f :=
  ⟨.refl f, .refl f, fun _ => rfl, fun _ => rfl⟩

protected theorem trans (h : Relocated f f') (h' : Relocated f' f'') : Relocated f f'' :=
  ⟨h.graph.trans h'.graph, h.flow.trans h'.flow, fun v => (h'.domain v).trans (h.domain v),
    fun v => (h'.computeAt v).trans (h.computeAt v)⟩

theorem setMemory (f : Fusion) (v : ValueId) (memory : MemoryType) :
    Relocated f (f.modifyView v ({ · with memory })) := by
  refine ⟨.modifyView f v _, .modifyView f v _, fun w => ?_, fun w => ?_⟩
  · rw [view_modifyView]
    split
    case isTrue hw => rw [hw.1]
    case isFalse => rfl
  · rw [view_modifyView]
    split
    case isTrue hw => rw [hw.1]
    case isFalse => rfl

theorem sound (h : Relocated f f') (hf : Sound f) (hw : Wired f) : Sound f' ∧ Wired f' := by
  obtain ⟨hsound, hext⟩ := hf.sameGraph h.graph fun v a ha => by
    rw [h.domain] at ha
    exact hf.domains v a ha
  exact ⟨hsound, hw.sameFlow h.flow hext⟩

theorem leaf (h : Relocated f f') (v : ValueId) : f'.leaf v = f.leaf v := by
  unfold Fusion.leaf TensorView.leaf
  rw [h.domain]

theorem expr (h : Relocated f f') (e : ExprId) : f'.expr e = f.expr e :=
  h.flow.expr e

theorem tensorInputs (h : Relocated f f') (e : ExprId) : f'.tensorInputs e = f.tensorInputs e := by
  unfold Fusion.tensorInputs
  rw [h.expr, funext h.graph.isTensor]

theorem tensorOutputs (h : Relocated f f') (e : ExprId) :
    f'.tensorOutputs e = f.tensorOutputs e := by
  unfold Fusion.tensorOutputs
  rw [h.expr, funext h.graph.isTensor]

theorem tensorExprs (h : Relocated f f') : f'.tensorExprs = f.tensorExprs :=
  h.flow.tensorExprs h.graph.isTensor

end Relocated
end Fusion

open Fusion

theorem LoopPlan.promoteDynamicRegisters_relocated (p : LoopPlan) :
    Relocated p.fusion p.promoteDynamicRegisters.fusion :=
  List.foldlRecOn (motive := Relocated p.fusion) _ _ (.refl _) fun g hg v _ =>
    hg.trans (.setMemory g v .global)

namespace Lowered

variable {calls : List Call} {f : Fusion} {l : Lowered}

/-- What a plan was made from and which checks it has passed. -/
theorem planOf_cases {p : LoopPlan} (h : planOf f = .ok p) :
    ∃ groups, LoopGroups.build f = .ok groups ∧
      p = LoopPlan.promoteDynamicRegisters ⟨f, groups⟩ ∧ p.checkLeafBindings = .ok () ∧
      p.checkParallelization = .ok () := by
  obtain ⟨_, -, h⟩ := Results.bind_eq_ok.1 h
  obtain ⟨groups, hgroups, h⟩ := Results.bind_eq_ok.1 h
  obtain ⟨_, hleaf, h⟩ := Results.bind_eq_ok.1 h
  obtain ⟨_, hparallel, h⟩ := Results.bind_eq_ok.1 h
  obtain ⟨_, -, h⟩ := Results.bind_eq_ok.1 h
  cases h
  exact ⟨groups, hgroups, rfl, hleaf, hparallel⟩

/-- A lowered fusion has a plan and the threads that are valid in it. -/
theorem make_planned (h : make f = .ok l) :
    planOf f = .ok l.plan ∧ l.validity = ThreadValidity.build l.plan := by
  obtain ⟨plan, hplan, h⟩ := Results.bind_eq_ok.1 h
  obtain ⟨vectorized, -, h⟩ := Results.bind_eq_ok.1 h
  obtain ⟨trees, -, h⟩ := Results.bind_eq_ok.1 h
  obtain ⟨body, -, h⟩ := Results.bind_eq_ok.1 h
  obtain ⟨draft, -, h⟩ := Results.bind_eq_ok.1 h
  cases h
  exact ⟨hplan, rfl⟩

/-- What a lowered fusion was made from and which checks it has passed. -/
theorem make_cases (h : make f = .ok l) :
    ∃ groups, LoopGroups.build f = .ok groups ∧
      l.plan = LoopPlan.promoteDynamicRegisters ⟨f, groups⟩ ∧
      l.plan.checkLeafBindings = .ok () ∧ l.validity = ThreadValidity.build l.plan := by
  obtain ⟨hplan, hvalidity⟩ := make_planned h
  obtain ⟨groups, hgroups, hpromoted, hleaf, -⟩ := planOf_cases hplan
  exact ⟨groups, hgroups, hpromoted, hleaf, hvalidity⟩

theorem plan_relocated (h : make f = .ok l) : Relocated f l.plan.fusion := by
  obtain ⟨groups, -, hplan, -⟩ := make_cases h
  rw [hplan]
  exact LoopPlan.promoteDynamicRegisters_relocated ⟨f, groups⟩

/-- The fusion of the plan is sound and wired. -/
theorem plan_sound (hf : applyAll Schedule.replay calls {} = some f) (h : make f = .ok l) :
    Sound l.plan.fusion ∧ Wired l.plan.fusion :=
  (plan_relocated h).sound (applyAll_sound hf) (applyAll_wired hf)

end Lowered
end FusionCompiler
