import FusionCompiler.Proofs.Schedule.Calls
import FusionCompiler.Proofs.Schedule.FrozenStaging

/-!
# Frozen leaves over sequences of calls

A call that fails leaves what it has done until then.  Every call freezes what is
frozen, whether it succeeds or fails, and so does every sequence of calls.

Main results:

- Theorem `Call.attempt_freezes`: one call.
- Theorem `Fusion.attemptAll_freezes`: a sequence of calls.
- Theorem `Fusion.attemptAll_keeps_frozen`: over every sequence of calls,
  positions grow, stay within the leaves, and leave their leaves where they are.
-/

namespace FusionCompiler

open Fusion

namespace Call

variable {f f' : Fusion} {c : Call} {replayer : Schedule.Replayer}

/-- The fusion after a call that succeeds or fails.  A call with an unknown operand is not made. -/
def attempt (c : Call) (f : Fusion) : Fusion :=
  if c.operands.all fun x => decide (Build.Known f x) then
    ((c.perform Schedule.replay).run.run f).2
  else f

/-- A building call only adds. -/
theorem perform_adding (hscope : c.scope = .building) : EditE.Adding (c.perform replayer) := by
  cases c with
  | scalar t => exact .discard (.lift (Edit.newValue_adding fun x hx => by cases hx))
  | constant c => exact .discard (.lift (Edit.newConst_adding c))
  | constantTyped c t => exact .discard (.lift (Edit.newConstTyped_adding c t))
  | tensor sizes contiguity t => exact .discard (.lift (Build.declareTensor_adding _ _ _))
  | unary op x => exact .discard (.mapError (Build.unaryOp_adding op x))
  | copy x => exact .discard (.mapError (Build.copy_adding x))
  | cast x t => exact .discard (.mapError (Build.cast_adding x t))
  | binary op x y => exact .discard (.mapError (Build.binaryOp_adding op x y))
  | select x y z => exact .discard (.mapError (Build.select_adding x y z))
  | reduceFrom op axes init tensor =>
      exact .discard (.mapError (Build.reductionOp_adding op axes init tensor))
  | reduce op tensor axes => exact .discard (.mapError (Build.reduce_adding op tensor axes))
  | welford tensor axes => exact .discard (.mapError (Build.welford_adding tensor axes))
  | broadcast tensor flags => exact .discard (.mapError (Build.broadcast_adding tensor flags))
  | input v => exact .mapError (Build.addInput_adding v)
  | output v => exact .mapError (Build.addOutput_adding v)
  | removeInput v => exact .modify fun f => (Adds.refl f).ofValues rfl rfl
  | removeOutput v => exact .modify fun f => (Adds.refl f).ofValues rfl rfl
  | aliasing out into => exact .mapError (Build.addAlias_adding out into)
  | _ => cases hscope

/-- A building call that fails has added the values of literal operands at most. -/
theorem fails_addsLiterals (hscope : c.scope = .building) (h : (c.perform replayer).Fails f f') :
    Build.AddsLiterals f f' := by
  have hatomic : ∀ {α : Type} {x : Build α}, EditE.Atomic x → x.Fails f f' →
      Build.AddsLiterals f f' := fun hx => Build.FailsEarly.ofAtomic hx f f'
  cases c with
  | scalar t | constant c | constantTyped c t | tensor sizes contiguity t | removeInput v
  | removeOutput v => simp [perform] at h
  | unary op x => exact Build.unaryOp_fails op x f f' (by simpa [perform, Schedule.build] using h)
  | copy x => exact Build.copy_fails x f f' (by simpa [perform, Schedule.build] using h)
  | cast x t => exact Build.cast_fails x t f f' (by simpa [perform, Schedule.build] using h)
  | binary op x y =>
      exact Build.binaryOp_fails op x y f f' (by simpa [perform, Schedule.build] using h)
  | select x y z =>
      exact Build.select_fails x y z f f' (by simpa [perform, Schedule.build] using h)
  | reduceFrom op axes init tensor =>
      exact hatomic (Build.reductionOp_atomic op axes init tensor)
        (by simpa [perform, Schedule.build] using h)
  | reduce op tensor axes =>
      exact hatomic (Build.reduce_atomic op tensor axes) (by simpa [perform, Schedule.build] using h)
  | welford tensor axes =>
      exact hatomic (Build.welford_atomic tensor axes) (by simpa [perform, Schedule.build] using h)
  | broadcast tensor flags =>
      exact hatomic (Build.broadcast_atomic tensor flags)
        (by simpa [perform, Schedule.build] using h)
  | input v => exact hatomic (Build.addInput_atomic v) (EditE.fails_mapError.1 h)
  | output v => exact hatomic (Build.addOutput_atomic v) (EditE.fails_mapError.1 h)
  | aliasing out into => exact hatomic (Build.addAlias_atomic out into) (EditE.fails_mapError.1 h)
  | _ => cases hscope

/-- A building call freezes what is frozen. -/
theorem perform_building_freezes (hscope : c.scope = .building) (hf : Regular f)
    (hknown : ∀ x ∈ c.operands, Build.Known f x) (h : (c.perform replayer).Leaves f f') :
    Freezes f f' := by
  have hadds := perform_adding hscope f f' h
  obtain ⟨u, h⟩ | h := EditE.leaves_iff.1 h
  · exact .ofAdds hf (perform_builds hscope hf.sound hknown h).keeps hadds
  · exact .ofAdds hf ((fails_addsLiterals hscope h).builds hf.sound).keeps hadds

/-- A scheduling call freezes what is frozen. -/
theorem perform_scheduling_freezes (hscope : c.scope ≠ .building) (hf : Regular f)
    (h : (c.perform Schedule.replay).Leaves f f') : Freezes f f' := by
  cases c with
  | split tensor axis factor innerSplit => exact Schedule.split_freezes hf h
  | merge tensor outer inner => exact Schedule.merge_freezes hf h
  | reorder tensor moves => exact Schedule.reorder_freezes hf h
  | computeAt producer consumer pos => exact Schedule.computeAt_freezes hf h
  | propagate reference => exact Schedule.propagateTransforms_freezes hf h
  | replayProducer roots producer consumer pos mode =>
      exact Schedule.replayOntoProducer_freezes hf (EditE.leaves_discard.1 h)
  | replayConsumer roots consumer producer pos mode =>
      exact Schedule.replayOntoConsumer_freezes hf (EditE.leaves_discard.1 h)
  | parallelize tensor axis parallel => exact Schedule.parallelize_freezes hf h
  | parallelizeLike reference vs types => exact Schedule.parallelizeLike_freezes hf h
  | rfactor tensor axes => exact Schedule.rfactor_freezes hf (EditE.leaves_discard.1 h)
  | cacheAfter tensor => exact Schedule.cacheAfter_freezes hf (EditE.leaves_discard.1 h)
  | cacheBefore tensor => exact Schedule.cacheBefore_freezes hf (EditE.leaves_discard.1 h)
  | cacheFork tensor => exact Schedule.cacheFork_freezes hf (EditE.leaves_discard.1 h)
  | setMemory tensor memory => exact Schedule.setMemory_freezes hf h
  | _ => exact absurd rfl hscope

/-- Every call freezes what is frozen, whether it succeeds or fails. -/
theorem attempt_freezes (c : Call) (hf : Regular f) : Freezes f (c.attempt f) := by
  unfold attempt
  split
  case isTrue hknown =>
      by_cases hscope : c.scope = .building
      · exact perform_building_freezes hscope hf (by simpa using hknown) rfl
      · exact perform_scheduling_freezes hscope hf rfl
  case isFalse => exact .refl hf

end Call

namespace Fusion

variable {f : Fusion}

/-- The fusion after a sequence of calls, each of which succeeds or fails. -/
def attemptAll (calls : List Call) (f : Fusion) : Fusion :=
  calls.foldl (fun f c => c.attempt f) f

theorem attemptAll_freezes (calls : List Call) (hf : Regular f) :
    Freezes f (attemptAll calls f) := by
  induction calls generalizing f with
  | nil => exact .refl hf
  | cons c calls ih =>
      have hone := c.attempt_freezes hf
      exact hone.trans (ih hone.regular)

theorem regular_empty : Regular {} := by
  refine ⟨sound_empty, wired_empty, fun v => Nat.zero_le _, fun v hv => ?_⟩
  cases hv

/-- Over every sequence of calls, positions never fall and stay within the leaves, and leaves that
are frozen once are the first leaves at every later moment. -/
theorem attemptAll_keeps_frozen (before after : List Call) (v : ValueId) :
    let f := attemptAll before {}
    let f' := attemptAll after f
    (f.view v).computeAt ≤ (f'.view v).computeAt ∧
      (f.view v).maxProducer ≤ (f'.view v).maxProducer ∧
      (f'.view v).computeAt ≤ (f'.leaf v).length ∧
      (f'.view v).maxProducer ≤ (f'.leaf v).length ∧
      (f'.leaf v).take (f.view v).fixedPosition = (f.leaf v).take (f.view v).fixedPosition := by
  intro f f'
  have hf : Regular f := (attemptAll_freezes before regular_empty).regular
  have hlater : Freezes f f' := attemptAll_freezes after hf
  have hcontinues := hlater.continues v
  have hwithin := Nat.max_le.1 (hlater.regular.within v)
  have hfirst := List.prefix_iff_eq_take.1 hcontinues.frozen
  rw [hf.length_frozen] at hfirst
  exact ⟨hcontinues.computeAt, hcontinues.maxProducer, hwithin.1, hwithin.2, hfirst.symm⟩

end Fusion
end FusionCompiler
