import FusionCompiler.Proofs.Schedule.FrozenCalls
import FusionCompiler.Proofs.Schedule.RootedStages

/-!
# Calls that fail

A call about one tensor, or about one producer and one consumer, records
transforms long before it can find a conflict.  It writes into tensors, memory or
expressions only after its last check, so what a failed call leaves behind is new
scalars, axes and transforms that nothing of before knows of.  That all images of
a factored reduction are new needs a rooted fusion, which every sequence of calls
leads to, failed calls included.

Main results:

- Theorem `Fusion.attemptAll_rooted`: every sequence of calls leads to a rooted
  fusion.
- Theorem `Call.fails_appends`: in a rooted fusion, a call that fails has only
  appended.
- Theorem `Fusion.attemptAll_fails_appends`: after every sequence of calls, a call
  that fails changes nothing that there was.
-/

namespace FusionCompiler

open Fusion

namespace Call

variable {f f' : Fusion} {c : Call}

/-! ## Calls and rooted fusions -/

/-- A building call keeps a fusion rooted, whether it succeeds or fails. -/
theorem perform_building_rooted (hscope : c.scope = .building) (hf : Rooted f)
    (hknown : ∀ x ∈ c.operands, Build.Known f x)
    (h : (c.perform Schedule.replay).Leaves f f') : Rooted f' := by
  obtain ⟨u, h⟩ | h := EditE.leaves_iff.1 h
  · have hb := perform_builds hscope hf.sound hknown h
    have hown := perform_building_owns Schedule.replay hscope f u f' [] h hf.own
    exact hf.advance hb.keeps hown (hf.grounded.builds hb)
  · have hliterals := fails_addsLiterals hscope h
    exact hliterals.appends.rooted (hliterals.builds hf.sound).keeps hf

/-- A scheduling call keeps a fusion rooted, whether it succeeds or fails. -/
theorem perform_scheduling_rooted (hscope : c.scope ≠ .building) :
    Schedule.Preserves Rooted (c.perform Schedule.replay) := by
  cases c with
  | split tensor axis factor innerSplit => exact fun _ _ => Schedule.split_rooted
  | merge tensor outer inner => exact fun _ _ => Schedule.merge_rooted
  | reorder tensor moves => exact fun _ _ => Schedule.reorder_rooted
  | computeAt producer consumer pos => exact Schedule.replays_rooted.computeAt _ _ _
  | propagate reference => exact Schedule.replays_rooted.propagateTransforms _
  | replayProducer roots producer consumer pos mode =>
      exact Schedule.Preserves.discard fun _ _ => Schedule.replayOntoProducer_rooted
  | replayConsumer roots consumer producer pos mode =>
      exact Schedule.Preserves.discard fun _ _ => Schedule.replayOntoConsumer_rooted
  | parallelize tensor axis parallel => exact Schedule.parallelize_rooted _ _ _
  | parallelizeLike reference vs types => exact Schedule.parallelizeLike_rooted _ _ _
  | rfactor tensor axes => exact (Schedule.rfactor_rooted _ _).discard
  | cacheAfter tensor => exact (Schedule.cacheAfter_rooted _).discard
  | cacheBefore tensor => exact (Schedule.cacheBefore_rooted _).discard
  | cacheFork tensor => exact (Schedule.cacheFork_rooted _).discard
  | setMemory tensor memory => exact Schedule.setMemory_rooted _ _
  | _ => exact absurd rfl hscope

/-- A call keeps a fusion rooted, whether it succeeds or fails. -/
theorem attempt_rooted (c : Call) (hf : Rooted f) : Rooted (c.attempt f) := by
  unfold attempt
  split
  case isTrue hknown =>
      by_cases hscope : c.scope = .building
      · exact perform_building_rooted hscope hf (by simpa using hknown) rfl
      · exact perform_scheduling_rooted hscope _ _ hf rfl
  case isFalse => exact hf

/-! ## Failed calls -/

/-- The scheduling calls that are about one tensor, or about one producer and one consumer. -/
def isSingle : Call → Bool
  | .split .. | .merge .. | .reorder .. | .parallelize .. | .setMemory .. | .cacheAfter ..
  | .cacheBefore .. | .cacheFork .. | .rfactor .. | .replayProducer .. | .replayConsumer .. => true
  | _ => false

/-- A call that fails has only appended. -/
theorem fails_appends (hc : c.isSingle = true) (hf : Rooted f)
    (h : (c.perform Schedule.replay).Fails f f') : Appends f f' := by
  have hatomic : ∀ {α : Type} {x : Schedule α}, EditE.Atomic x → x.Fails f f' → Appends f f' := by
    intro α x hx h
    rw [← hx f f' h]
    exact .refl f
  cases c with
  | split tensor axis factor innerSplit => exact Schedule.fails_split_appends h
  | merge tensor outer inner => exact hatomic (Schedule.merge_atomic _ _ _) h
  | reorder tensor moves => exact hatomic (Schedule.reorder_atomic _ _) h
  | parallelize tensor axis parallel => exact hatomic (Schedule.parallelize_atomic _ _ _) h
  | setMemory tensor memory => exact hatomic (Schedule.setMemory_atomic _ _) h
  | cacheAfter tensor =>
      exact hatomic (Schedule.cacheAfter_atomic _) (EditE.fails_discard.1 h)
  | cacheBefore tensor =>
      exact hatomic (Schedule.cacheBefore_atomic _) (EditE.fails_discard.1 h)
  | cacheFork tensor => exact hatomic (Schedule.cacheFork_atomic _) (EditE.fails_discard.1 h)
  | rfactor tensor axes => exact Schedule.fails_rfactor_appends hf (EditE.fails_discard.1 h)
  | replayProducer roots producer consumer pos mode =>
      exact Schedule.fails_replayOntoProducer_appends hf.sound (EditE.fails_discard.1 h)
  | replayConsumer roots consumer producer pos mode =>
      exact Schedule.fails_replayOntoConsumer_appends hf.sound (EditE.fails_discard.1 h)
  | _ => cases hc

end Call

namespace Fusion

variable {f f' : Fusion}

theorem rooted_empty : Rooted {} := by
  refine ⟨sound_empty, wired_empty, ownAxes_empty, fun v a ha => ?_⟩
  cases ha

/-- Every sequence of calls, each of which succeeds or fails, leads to a rooted fusion. -/
theorem attemptAll_rooted (calls : List Call) (hf : Rooted f) : Rooted (attemptAll calls f) := by
  induction calls generalizing f with
  | nil => exact hf
  | cons c calls ih => exact ih (c.attempt_rooted hf)

/-- After every sequence of calls, a call about one tensor or one edge that fails has only
appended: tensors with their views, definitions and uses are as before, and so are axes,
transforms, expressions, inputs, outputs and aliases. -/
theorem attemptAll_fails_appends (before : List Call) (c : Call) (hc : c.isSingle = true)
    (h : (c.perform Schedule.replay).Fails (attemptAll before {}) f') :
    Appends (attemptAll before {}) f' :=
  c.fails_appends hc (attemptAll_rooted before rooted_empty) h

/-- Three negations of a matrix.  The first one is inlined into the second, and the columns of the
third one are split and iterated over first. -/
def splitColumns : List Call :=
  [.tensor [6, 4] [true, true] .float, .input ⟨0⟩, .unary .neg (.value ⟨0⟩),
    .unary .neg (.value ⟨7⟩), .unary .neg (.value ⟨10⟩), .output ⟨13⟩, .computeAt ⟨7⟩ ⟨10⟩ 1,
    .split ⟨13⟩ 1 (.const 2) true, .reorder ⟨13⟩ [(1, 0)]]

/-- Replaying the columns onto the second negation repeats the split, and then finds that the rows
cannot move. -/
theorem splitColumns_conflict :
    ∃ f f', attemptAll splitColumns {} = f ∧
      ((Call.replayProducer none ⟨10⟩ ⟨13⟩ 1 .propagate).perform Schedule.replay).Fails f f' ∧
      f.transforms.size < f'.transforms.size ∧ Appends f f' := by
  have hrun : (match ((Call.replayProducer none ⟨10⟩ ⟨13⟩ 1 .propagate).perform
        Schedule.replay).run.run (attemptAll splitColumns {}) with
      | (.error _, f') =>
          decide ((attemptAll splitColumns {}).transforms.size < f'.transforms.size)
      | _ => false) = true := by
    cbv
  split at hrun
  case h_2 => cases hrun
  case h_1 e f' hfails =>
      refine ⟨_, f', rfl, ⟨e, hfails⟩, of_decide_eq_true hrun, ?_⟩
      exact attemptAll_fails_appends splitColumns _ rfl ⟨e, hfails⟩

end Fusion
end FusionCompiler
