import FusionCompiler.Lower.Guard
import FusionCompiler.Proofs.Schedule.Cut

/-!
# Carrying indices along a history

Index arithmetic walks the transforms of a tensor in both directions: backward
from the leaves to the root, forward from the root to the leaves.  Each step only
writes the axes it computes, so in the end every transform relates the indices of
what it consumes and what it produces.

Main results:

- Theorem `LoopPlan.carriedBack_linked`: carrying leaf indices back gives every axis
  an index, and each transform computes those of its inputs from those of its
  outputs.
- Theorem `LoopPlan.carriedForth_linked`: carrying root indices forward, each
  transform computes the indices of its outputs from those of its inputs.
-/

namespace FusionCompiler
namespace LoopPlan

open Fusion

variable {f : Fusion} {p : LoopPlan} {m : AxisIndices} {t : Transform} {a : AxisId}
  {root leaf : List AxisId} {ts : List TransformId}

/-! ## Backward -/

theorem backwardStep_get?_of_not_mem (h : a ∉ t.inputs) :
    (p.backwardStep t m).get? a = m.get? a := by
  cases t with
  | split b o i k innerSplit =>
      have hb : a ≠ b := by simpa [Transform.inputs] using h
      unfold backwardStep
      dsimp only
      split
      · rw [AxisIndices.get?_set, if_neg hb]
      · rfl
  | merge o i out =>
      have hoi : a ≠ o ∧ a ≠ i := by simpa [Transform.inputs] using h
      unfold backwardStep
      dsimp only
      split
      · rw [AxisIndices.get?_set, if_neg hoi.2, AxisIndices.get?_set, if_neg hoi.1]
      · rfl

/-- The indices of the inputs of a transform are computed from those of its outputs. -/
def BackLinked (p : LoopPlan) (m : AxisIndices) : Transform → Prop
  | .split a o i _ _ => ∃ so si, m.get? o = some so ∧ m.get? i = some si ∧
      m.get? a = some ((so.mul (p.concreteExtent i)).add si)
  | .merge o i out => ∃ s, m.get? out = some s ∧ m.get? o = some (s.div (p.concreteExtent i)) ∧
      m.get? i = some (s.rem (p.concreteExtent i))

/-- A transform only looks at its own axes. -/
theorem BackLinked.congr {m' : AxisIndices} (h : BackLinked p m t)
    (hsame : ∀ a ∈ t.inputs ++ t.outputs, m'.get? a = m.get? a) : BackLinked p m' t := by
  cases t with
  | split a o i k innerSplit =>
      simp only [Transform.inputs, Transform.outputs, List.cons_append, List.nil_append,
        List.mem_cons, List.not_mem_nil, or_false, forall_eq_or_imp, forall_eq] at hsame
      obtain ⟨ha, ho, hi⟩ := hsame
      simpa only [BackLinked, ha, ho, hi] using h
  | merge o i out =>
      simp only [Transform.inputs, Transform.outputs, List.cons_append, List.nil_append,
        List.mem_cons, List.not_mem_nil, or_false, forall_eq_or_imp, forall_eq] at hsame
      obtain ⟨ho, hi, hout⟩ := hsame
      simpa only [BackLinked, ho, hi, hout] using h

/-- A step backward links its transform if its outputs have indices. -/
theorem backwardStep_linked (hnodup : (t.inputs ++ t.outputs).Nodup)
    (hout : ∀ a ∈ t.outputs, ∃ s, m.get? a = some s) : BackLinked p (p.backwardStep t m) t := by
  cases t with
  | split a o i k innerSplit =>
      obtain ⟨so, ho⟩ := hout o (by simp [Transform.outputs])
      obtain ⟨si, hi⟩ := hout i (by simp [Transform.outputs])
      have hne : a ≠ o ∧ a ≠ i := by
        simp only [Transform.inputs, Transform.outputs, List.cons_append, List.nil_append,
          List.nodup_cons, List.mem_cons, List.not_mem_nil, or_false, not_or] at hnodup
        exact hnodup.1
      refine ⟨so, si, ?_, ?_, ?_⟩ <;> simp only [backwardStep, ho, hi, AxisIndices.get?_set]
      · rw [if_neg hne.1.symm]
      · rw [if_neg hne.2.symm]
      · exact if_pos trivial
  | merge o i out =>
      obtain ⟨s, hs⟩ := hout out (by simp [Transform.outputs])
      have hne : (o ≠ i ∧ o ≠ out) ∧ i ≠ out := by
        simp only [Transform.inputs, Transform.outputs, List.cons_append, List.nil_append,
          List.nodup_cons, List.mem_cons, List.not_mem_nil, or_false, not_or] at hnodup
        exact ⟨hnodup.1, hnodup.2.1⟩
      refine ⟨s, ?_, ?_, ?_⟩ <;> simp only [backwardStep, hs, AxisIndices.get?_set]
      · rw [if_neg hne.2.symm, if_neg hne.1.2.symm]
      · rw [if_neg hne.1.1]
        exact if_pos trivial
      · exact if_pos trivial

/-- Indices carried back through a list of transforms. -/
def carriedBack (p : LoopPlan) (ts : List TransformId) (leaves : AxisIndices) : AxisIndices :=
  ts.foldr (fun t m => p.backwardStep (p.fusion.transform t) m) leaves

theorem carriedBack_get?_of_not_mem (h : a ∉ p.fusion.inputsOf ts) :
    (p.carriedBack ts m).get? a = m.get? a := by
  induction ts with
  | nil => rfl
  | cons t ts ih =>
      have hmem : a ∉ (p.fusion.transform t).inputs ∧ a ∉ p.fusion.inputsOf ts := by
        simpa [inputsOf] using h
      unfold carriedBack
      rw [List.foldr_cons, backwardStep_get?_of_not_mem hmem.1]
      exact ih hmem.2

/-- Carrying leaf indices back gives every axis an index, and each transform computes those of its
inputs from those of its outputs. -/
theorem carriedBack_linked (hf : Sound p.fusion) (h : p.fusion.Balanced root ts leaf)
    (hleaf : ∀ a ∈ leaf, ∃ s, m.get? a = some s) :
    (∀ a ∈ root ++ p.fusion.outputsOf ts, ∃ s, (p.carriedBack ts m).get? a = some s) ∧
      ∀ t ∈ ts, BackLinked p (p.carriedBack ts m) (p.fusion.transform t) := by
  induction ts generalizing root with
  | nil =>
      refine ⟨fun a ha => hleaf a ?_, by simp⟩
      simpa [inputsOf] using (h.perm.mem_iff (a := a)).1 ha
  | cons t ts ih =>
      obtain ⟨rest, -, hrest, hnext, hnodup⟩ := h.step hf
      obtain ⟨hall, hlinked⟩ := ih hnext
      have hcons : p.carriedBack (t :: ts) m =
          p.backwardStep (p.fusion.transform t) (p.carriedBack ts m) := rfl
      -- the step of `t` writes none of the axes from the next cut on
      have hkeep : ∀ a ∈ rest ++ (p.fusion.transform t).outputs ++ p.fusion.outputsOf ts,
          (p.carriedBack (t :: ts) m).get? a = (p.carriedBack ts m).get? a := by
        intro a ha
        rw [hcons]
        refine backwardStep_get?_of_not_mem fun hin => ?_
        exact (List.nodup_append.1 hnodup).2.2 a hin a ha rfl
      have hself : BackLinked p (p.carriedBack (t :: ts) m) (p.fusion.transform t) := by
        rw [hcons]
        refine backwardStep_linked ?_ fun a ha => ?_
        · refine hnodup.sublist (List.Sublist.append_left ?_ _)
          exact (List.sublist_append_right rest _).trans (List.sublist_append_left _ _)
        · exact hall a (List.mem_append_left _ (List.mem_append_right rest ha))
      have hin : ∀ a ∈ (p.fusion.transform t).inputs,
          ∃ s, (p.carriedBack (t :: ts) m).get? a = some s := by
        intro a ha
        cases ht : p.fusion.transform t with
        | split b o i k innerSplit =>
            rw [ht] at hself ha
            obtain ⟨so, si, -, -, hs⟩ := hself
            rw [List.mem_singleton.1 ha]
            exact ⟨_, hs⟩
        | merge o i out =>
            rw [ht] at hself ha
            obtain ⟨s, -, ho, hi⟩ := hself
            rcases List.mem_pair.1 ha with rfl | rfl
            · exact ⟨_, ho⟩
            · exact ⟨_, hi⟩
      refine ⟨fun a ha => ?_, fun s hs => ?_⟩
      · have hcases : a ∈ (p.fusion.transform t).inputs ∨
            a ∈ rest ++ (p.fusion.transform t).outputs ++ p.fusion.outputsOf ts := by
          rw [List.append_assoc]
          have hout : p.fusion.outputsOf (t :: ts) =
              (p.fusion.transform t).outputs ++ p.fusion.outputsOf ts := rfl
          rw [hout] at ha
          rcases List.mem_append.1 ha with ha | ha
          · rcases List.mem_append.1 (hrest.mem_iff.1 ha) with ha | ha
            · exact .inl ha
            · exact .inr (List.mem_append_left _ ha)
          · exact .inr (List.mem_append_right rest ha)
        rcases hcases with ha | ha
        · exact hin a ha
        · rw [hkeep a ha]
          exact hall a ha
      · rcases List.mem_cons.1 hs with rfl | hs
        · exact hself
        · refine (hlinked s hs).congr fun a ha => hkeep a ?_
          rcases List.mem_append.1 ha with ha | ha
          · rcases hnext.mem_of_consumed (.inr ⟨s, hs, ha⟩) with ha | ⟨u, hu, ha⟩
            · exact List.mem_append_left _ ha
            · exact List.mem_append_right _ (mem_outputsOf.2 ⟨u, hu, ha⟩)
          · exact List.mem_append_right _ (mem_outputsOf.2 ⟨s, hs, ha⟩)

/-! ## Forward -/

theorem forwardStep_get?_of_not_mem (h : a ∉ t.outputs) :
    (forwardStep f t m).get? a = m.get? a := by
  cases t with
  | split b o i k innerSplit =>
      have hoi : a ≠ o ∧ a ≠ i := by simpa [Transform.outputs] using h
      unfold forwardStep
      dsimp only
      split
      · rw [AxisIndices.get?_set, if_neg hoi.2, AxisIndices.get?_set, if_neg hoi.1]
      · rfl
  | merge o i out =>
      have hout : a ≠ out := by simpa [Transform.outputs] using h
      unfold forwardStep
      dsimp only
      split
      · rw [AxisIndices.get?_set, if_neg hout]
      · rfl

/-- The indices of the outputs of a transform are computed from those of its inputs. -/
def ForthLinked (f : Fusion) (m : AxisIndices) : Transform → Prop
  | .split a o i _ _ => ∃ s, m.get? a = some s ∧ m.get? o = some (s.div (f.ownExtent i)) ∧
      m.get? i = some (s.rem (f.ownExtent i))
  | .merge o i out => ∃ so si, m.get? o = some so ∧ m.get? i = some si ∧
      m.get? out = some ((so.mul (f.ownExtent i)).add si)

/-- A transform only looks at its own axes. -/
theorem ForthLinked.congr {m' : AxisIndices} (h : ForthLinked f m t)
    (hsame : ∀ a ∈ t.inputs ++ t.outputs, m'.get? a = m.get? a) : ForthLinked f m' t := by
  cases t with
  | split a o i k innerSplit =>
      simp only [Transform.inputs, Transform.outputs, List.cons_append, List.nil_append,
        List.mem_cons, List.not_mem_nil, or_false, forall_eq_or_imp, forall_eq] at hsame
      obtain ⟨ha, ho, hi⟩ := hsame
      simpa only [ForthLinked, ha, ho, hi] using h
  | merge o i out =>
      simp only [Transform.inputs, Transform.outputs, List.cons_append, List.nil_append,
        List.mem_cons, List.not_mem_nil, or_false, forall_eq_or_imp, forall_eq] at hsame
      obtain ⟨ho, hi, hout⟩ := hsame
      simpa only [ForthLinked, ho, hi, hout] using h

/-- A step forward links its transform if its inputs have indices. -/
theorem forwardStep_linked (hnodup : (t.inputs ++ t.outputs).Nodup)
    (hin : ∀ a ∈ t.inputs, ∃ s, m.get? a = some s) : ForthLinked f (forwardStep f t m) t := by
  cases t with
  | split a o i k innerSplit =>
      obtain ⟨s, hs⟩ := hin a (by simp [Transform.inputs])
      have hne : (a ≠ o ∧ a ≠ i) ∧ o ≠ i := by
        simp only [Transform.inputs, Transform.outputs, List.cons_append, List.nil_append,
          List.nodup_cons, List.mem_cons, List.not_mem_nil, or_false, not_or] at hnodup
        exact ⟨hnodup.1, hnodup.2.1⟩
      refine ⟨s, ?_, ?_, ?_⟩ <;> simp only [forwardStep, hs, AxisIndices.get?_set]
      · rw [if_neg hne.1.2, if_neg hne.1.1]
      · rw [if_neg hne.2]
        exact if_pos trivial
      · exact if_pos trivial
  | merge o i out =>
      obtain ⟨so, ho⟩ := hin o (by simp [Transform.inputs])
      obtain ⟨si, hi⟩ := hin i (by simp [Transform.inputs])
      have hne : o ≠ out ∧ i ≠ out := by
        simp only [Transform.inputs, Transform.outputs, List.cons_append, List.nil_append,
          List.nodup_cons, List.mem_cons, List.not_mem_nil, or_false, not_or] at hnodup
        exact ⟨hnodup.1.2, hnodup.2.1⟩
      refine ⟨so, si, ?_, ?_, ?_⟩ <;>
        simp only [forwardStep, ho, hi, Option.some_or, AxisIndices.get?_set]
      · rw [if_neg hne.1]
      · rw [if_neg hne.2]
      · exact if_pos trivial

/-- Indices carried forward through a list of transforms. -/
def carriedForth (f : Fusion) (ts : List TransformId) (roots : AxisIndices) : AxisIndices :=
  ts.foldl (fun m t => forwardStep f (f.transform t) m) roots

theorem carriedForth_get?_of_not_mem (h : a ∉ f.outputsOf ts) :
    (carriedForth f ts m).get? a = m.get? a := by
  induction ts generalizing m with
  | nil => rfl
  | cons t ts ih =>
      have hmem : a ∉ (f.transform t).outputs ∧ a ∉ f.outputsOf ts := by
        simpa [outputsOf] using h
      unfold carriedForth
      rw [List.foldl_cons]
      exact (ih hmem.2).trans (forwardStep_get?_of_not_mem hmem.1)

/-- Carrying root indices forward, each transform computes the indices of its outputs from those of
its inputs. -/
theorem carriedForth_linked (hf : Sound f) (h : f.Balanced root ts leaf)
    (hroot : ∀ a ∈ root, ∃ s, m.get? a = some s) :
    ∀ t ∈ ts, ForthLinked f (carriedForth f ts m) (f.transform t) := by
  induction ts generalizing root m with
  | nil => simp
  | cons t ts ih =>
      obtain ⟨rest, -, hrest, hnext, hnodup⟩ := h.step hf
      have hcons : carriedForth f (t :: ts) m =
          carriedForth f ts (forwardStep f (f.transform t) m) := rfl
      have hpair : ((f.transform t).inputs ++ (f.transform t).outputs).Nodup := by
        refine hnodup.sublist (List.Sublist.append_left ?_ _)
        exact (List.sublist_append_right rest _).trans (List.sublist_append_left _ _)
      have hself : ForthLinked f (forwardStep f (f.transform t) m) (f.transform t) :=
        forwardStep_linked hpair fun a ha =>
          hroot a (hrest.mem_iff.2 (List.mem_append_left rest ha))
      have hcut : ∀ a ∈ rest ++ (f.transform t).outputs,
          ∃ s, (forwardStep f (f.transform t) m).get? a = some s := by
        intro a ha
        by_cases hout : a ∈ (f.transform t).outputs
        · cases ht : f.transform t with
          | split b o i k innerSplit =>
              rw [ht] at hself hout
              obtain ⟨s, -, ho, hi⟩ := hself
              rcases List.mem_pair.1 hout with rfl | rfl
              · exact ⟨_, ho⟩
              · exact ⟨_, hi⟩
          | merge o i out =>
              rw [ht] at hself hout
              obtain ⟨so, si, -, -, hs⟩ := hself
              rw [List.mem_singleton.1 hout]
              exact ⟨_, hs⟩
        · rw [forwardStep_get?_of_not_mem hout]
          rcases List.mem_append.1 ha with ha | ha
          · exact hroot a (hrest.mem_iff.2 (List.mem_append_right _ ha))
          · exact absurd ha hout
      intro s hs
      rw [hcons]
      rcases List.mem_cons.1 hs with rfl | hs
      · -- the later steps write none of the axes of `s`
        refine hself.congr fun a ha => carriedForth_get?_of_not_mem fun hlater => ?_
        rw [List.append_assoc] at hnodup
        rcases List.mem_append.1 ha with ha | ha
        · refine (List.nodup_append.1 hnodup).2.2 a ha a ?_ rfl
          exact List.mem_append_right _ (List.mem_append_right _ hlater)
        · have hright := (List.nodup_append.1 (List.nodup_append.1 hnodup).2.1).2.1
          exact (List.nodup_append.1 hright).2.2 a ha a hlater rfl
      · exact ih hnext hcut s hs

end LoopPlan
end FusionCompiler
