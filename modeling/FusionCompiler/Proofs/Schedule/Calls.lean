import Mathlib
import FusionCompiler.Proofs.Schedule.Inlining
import FusionCompiler.Proofs.Schedule.Staging

/-!
# Sequences of calls

A fusion is made from the empty one by calls that build operations and calls
that schedule them.  This file lists the calls, runs sequences of them, and
collects what holds of every fusion they lead to.

Main results:

- Theorems `Fusion.applyAll_sound` and `Fusion.applyAll_wired`: every fusion that
  calls lead to is sound and wired.
- Theorem `Fusion.applyAll_leafwise`: if the calls only build, split, merge and
  reorder, all leaves are balanced and all roots are plain.
- Theorem `Fusion.isCompleteCut_of_steady`: as long as every replay is steady,
  the leaves of every tensor are a complete cut of its root.
-/

namespace FusionCompiler

open Fusion

/-- A call of the building or scheduling interface. -/
inductive Call where
  | scalar (t : DataType)
  | constant (c : Constant)
  | constantTyped (c : Constant) (t : DataType)
  | tensor (sizes : List Int) (contiguity : List Bool) (t : DataType)
  | unary (op : UnaryOp) (x : Operand)
  | copy (x : Operand)
  | cast (x : Operand) (t : DataType)
  | binary (op : BinaryOp) (x y : Operand)
  | select (x y z : Operand)
  | reduceFrom (op : BinaryOp) (axes : List Int) (init : Constant) (tensor : ValueId)
  | reduce (op : BinaryOp) (tensor : ValueId) (axes : List Int)
  | welford (tensor : ValueId) (axes : List Int)
  | broadcast (tensor : ValueId) (flags : List Bool)
  | input (v : ValueId)
  | output (v : ValueId)
  | removeInput (v : ValueId)
  | removeOutput (v : ValueId)
  | aliasing (output input : ValueId)
  | split (tensor : ValueId) (axis : Int) (factor : Schedule.SplitFactor) (innerSplit : Bool)
  | merge (tensor : ValueId) (outer inner : Int)
  | reorder (tensor : ValueId) (moves : List (Int × Int))
  | computeAt (producer consumer : ValueId) (pos : Int)
  | propagate (reference : ValueId)
  | replayProducer (roots : Option RootMap) (producer consumer : ValueId) (pos : Nat)
      (mode : Schedule.ReplayMode)
  | replayConsumer (roots : Option RootMap) (consumer producer : ValueId) (pos : Nat)
      (mode : Schedule.ReplayMode)
  | parallelize (tensor : ValueId) (axis : Int) (parallel : ParallelType)
  | parallelizeLike (reference : ValueId) (tensors : List ValueId) (types : ParallelSet)
  | rfactor (tensor : ValueId) (axes : List Int)
  | cacheAfter (tensor : ValueId)
  | cacheBefore (tensor : ValueId)
  | cacheFork (tensor : ValueId)
  | setMemory (tensor : ValueId) (memory : MemoryType)

namespace Call

/-- What a call is about. -/
inductive Scope where
  /-- It adds to the graph. -/
  | building
  /-- It transforms the leaves of one tensor. -/
  | leaves
  /-- It replays leaves of one tensor onto others. -/
  | replays
  /-- It chooses executions, inserts copies or factors a reduction. -/
  | staging
deriving DecidableEq

def scope : Call → Scope
  | .split .. | .merge .. | .reorder .. => .leaves
  | .computeAt .. | .propagate .. | .replayProducer .. | .replayConsumer .. => .replays
  | .parallelize .. | .parallelizeLike .. | .rfactor .. | .cacheAfter .. | .cacheBefore ..
  | .cacheFork .. | .setMemory .. => .staging
  | _ => .building

/-- Whether a call only builds or transforms the leaves of one tensor. -/
def isLeafwise (c : Call) : Bool :=
  c.scope == .building || c.scope == .leaves

/-- The operands that have to be handles of the fusion. -/
def operands : Call → List Operand
  | .unary _ x | .copy x | .cast x _ => [x]
  | .binary _ x y => [x, y]
  | .select x y z => [x, y, z]
  | .input v => [.value v]
  | _ => []

/-- The edit that a call stands for, with a given way to replay. -/
def perform (replayer : Schedule.Replayer) : Call → Schedule Unit
  | .scalar t => discard (Edit.newScalar t)
  | .constant c => discard (Edit.newConst c)
  | .constantTyped c t => discard (Edit.newConstTyped c t)
  | .tensor sizes contiguity t => discard (Build.declareTensor sizes contiguity t)
  | .unary op x => discard (Schedule.build (Build.unaryOp op x))
  | .copy x => discard (Schedule.build (Build.copy x))
  | .cast x t => discard (Schedule.build (Build.cast x t))
  | .binary op x y => discard (Schedule.build (Build.binaryOp op x y))
  | .select x y z => discard (Schedule.build (Build.select x y z))
  | .reduceFrom op axes init v =>
    discard (Schedule.build (Build.reductionOp op axes init v))
  | .reduce op v axes => discard (Schedule.build (Build.reduce op v axes))
  | .welford v axes => discard (Schedule.build (Build.welford v axes))
  | .broadcast v flags => discard (Schedule.build (Build.broadcast v flags))
  | .input v => Schedule.build (Build.addInput v)
  | .output v => Schedule.build (Build.addOutput v)
  | .removeInput v => modify (·.removeInput v)
  | .removeOutput v => modify (·.removeOutput v)
  | .aliasing out into => Schedule.build (Build.addAlias out into)
  | .split v axis factor innerSplit => Schedule.split v axis factor innerSplit
  | .merge v outer inner => Schedule.merge v outer inner
  | .reorder v moves => Schedule.reorder v moves
  | .computeAt producer consumer pos => Schedule.computeAtWith replayer producer consumer pos
  | .propagate reference => Schedule.propagateTransformsWith replayer reference
  | .replayProducer roots producer consumer pos mode =>
    discard (Schedule.replayOntoProducer replayer roots producer consumer pos mode)
  | .replayConsumer roots consumer producer pos mode =>
    discard (Schedule.replayOntoConsumer replayer roots consumer producer pos mode)
  | .parallelize v axis parallel => Schedule.parallelize v axis parallel
  | .parallelizeLike reference vs types => Schedule.parallelizeLike reference vs types
  | .rfactor v axes => discard (Schedule.rfactor v axes)
  | .cacheAfter v => discard (Schedule.cacheAfter v)
  | .cacheBefore v => discard (Schedule.cacheBefore v)
  | .cacheFork v => discard (Schedule.cacheFork v)
  | .setMemory v memory => Schedule.setMemory v memory

/-- The fusion after a call; there is none if an operand is unknown or the call fails. -/
def outcome (replayer : Schedule.Replayer) (c : Call) (f : Fusion) : Option Fusion :=
  if c.operands.all fun x => decide (Build.Known f x) then
    match (c.perform replayer).run.run f with
    | (.ok _, f') => some f'
    | (.error _, _) => none
  else none

end Call

namespace Fusion

/-- The fusion after a sequence of calls that all succeed. -/
def applyAll (replayer : Schedule.Replayer) : List Call → Fusion → Option Fusion
  | [], f => some f
  | c :: calls, f => (c.outcome replayer f).bind (applyAll replayer calls)

end Fusion

namespace Call

variable {f f' : Fusion} {steady : Prop} {replayer : Schedule.Replayer} {c : Call}

/-! ## One call -/

/-- A call that is made has known operands and returns. -/
theorem outcome_eq_some (h : c.outcome replayer f = some f') :
    (∀ x ∈ c.operands, Build.Known f x) ∧ ∃ u, (c.perform replayer).Returns f u f' := by
  unfold outcome at h
  split at h
  case isTrue hknown =>
      refine ⟨by simpa using hknown, ?_⟩
      split at h
      case h_1 u f₁ hrun =>
          cases h
          exact ⟨u, hrun⟩
      case h_2 => cases h
  case isFalse => cases h

/-- A call with known operands that returns is made. -/
theorem outcome_of_returns (hknown : ∀ x ∈ c.operands, Build.Known f x) {u : Unit}
    (h : (c.perform replayer).Returns f u f') : c.outcome replayer f = some f' := by
  rw [EditE.Returns] at h
  unfold outcome
  rw [if_pos (by simpa using hknown), h]

/-- A building call is a building step. -/
theorem perform_builds (hscope : c.scope = .building) (hf : Sound f)
    (hknown : ∀ x ∈ c.operands, Build.Known f x) {u : Unit}
    (h : (c.perform replayer).Returns f u f') : Builds f f' := by
  cases c with
  | scalar t =>
      simp only [perform, EditE.returns_discard, EditE.returns_lift, Edit.newScalar,
        Edit.gives_newValue] at h
      obtain ⟨v, -, rfl⟩ := h
      exact Builds.pushScalar hf fun c hc _ => by cases hc
  | constant c =>
      simp only [perform, EditE.returns_discard, EditE.returns_lift] at h
      obtain ⟨v, h⟩ := h
      exact Edit.newConst_builds hf h
  | constantTyped c t =>
      simp only [perform, EditE.returns_discard, EditE.returns_lift] at h
      obtain ⟨v, h⟩ := h
      exact Build.newConstTyped_builds hf h
  | tensor sizes contiguity t =>
      simp only [perform, EditE.returns_discard, EditE.returns_lift] at h
      obtain ⟨v, h⟩ := h
      exact Build.declareTensor_builds hf h
  | unary op x =>
      simp only [perform, EditE.returns_discard, Schedule.build, EditE.returns_mapError] at h
      obtain ⟨v, h⟩ := h
      exact Build.unaryOp_builds hf (hknown x (by simp [operands])) h
  | copy x =>
      simp only [perform, EditE.returns_discard, Schedule.build, EditE.returns_mapError] at h
      obtain ⟨v, h⟩ := h
      exact Build.copy_builds hf (hknown x (by simp [operands])) h
  | cast x t =>
      simp only [perform, EditE.returns_discard, Schedule.build, EditE.returns_mapError] at h
      obtain ⟨v, h⟩ := h
      exact Build.cast_builds hf (hknown x (by simp [operands])) h
  | binary op x y =>
      simp only [perform, EditE.returns_discard, Schedule.build, EditE.returns_mapError] at h
      obtain ⟨v, h⟩ := h
      exact Build.binaryOp_builds hf (hknown x (by simp [operands]))
        (hknown y (by simp [operands])) h
  | select x y z =>
      simp only [perform, EditE.returns_discard, Schedule.build, EditE.returns_mapError] at h
      obtain ⟨v, h⟩ := h
      exact Build.select_builds hf (hknown x (by simp [operands])) (hknown y (by simp [operands]))
        (hknown z (by simp [operands])) h
  | reduceFrom op axes init tensor =>
      simp only [perform, EditE.returns_discard, Schedule.build, EditE.returns_mapError] at h
      obtain ⟨v, h⟩ := h
      exact Build.reductionOp_builds hf h
  | reduce op tensor axes =>
      simp only [perform, EditE.returns_discard, Schedule.build, EditE.returns_mapError] at h
      obtain ⟨v, h⟩ := h
      exact Build.reduce_builds hf h
  | welford tensor axes =>
      simp only [perform, EditE.returns_discard, Schedule.build, EditE.returns_mapError] at h
      obtain ⟨v, h⟩ := h
      exact Build.welford_builds hf h
  | broadcast tensor flags =>
      simp only [perform, EditE.returns_discard, Schedule.build, EditE.returns_mapError] at h
      obtain ⟨v, h⟩ := h
      exact Build.broadcast_builds hf h
  | input v =>
      exact Build.addInput_builds hf (hknown (.value v) (by simp [operands]))
        (EditE.returns_mapError.1 h)
  | output v => exact Build.addOutput_builds hf (EditE.returns_mapError.1 h)
  | removeInput v =>
      obtain rfl := EditE.returns_modify.1 h
      exact Build.setBoundary_builds hf _ _ _
        (fun _ hw hnew => absurd (List.mem_filter.1 hw).1 hnew)
        (fun _ hw hnew => absurd hw hnew) fun hnodup => hnodup.filter _
  | removeOutput v =>
      obtain rfl := EditE.returns_modify.1 h
      exact Build.setBoundary_builds hf _ _ _ (fun _ hw hnew => absurd hw hnew)
        (fun _ hw hnew => absurd (List.mem_filter.1 hw).1 hnew) id
  | aliasing out into => exact Build.addAlias_builds hf (EditE.returns_mapError.1 h)
  | _ => cases hscope

/-- A call on leaves transforms leaves. -/
theorem perform_schedules (hscope : c.scope = .leaves) (hf : Sound f) {u : Unit}
    (h : (c.perform replayer).Returns f u f') : Schedules f f' := by
  cases c with
  | split tensor axis factor innerSplit => exact Schedule.split_schedules hf h
  | merge tensor outer inner => exact Schedule.merge_schedules hf h
  | reorder tensor moves => exact Schedule.reorder_schedules hf h
  | _ => cases hscope

/-- A replaying call keeps what its replays keep. -/
theorem perform_replays (hr : Schedule.Replayer.Keeps steady replayer) (hscope : c.scope = .replays)
    (hf : Sound f) {u : Unit} (h : (c.perform replayer).Returns f u f') : Keeps steady f f' := by
  cases c with
  | computeAt producer consumer pos => exact Schedule.computeAtWith_keeps hr hf h
  | propagate reference => exact Schedule.propagateTransformsWith_keeps hr hf h
  | replayProducer roots producer consumer pos mode =>
      obtain ⟨n, h⟩ := EditE.returns_discard.1 h
      exact Schedule.replayOntoProducer_keeps hr hf h
  | replayConsumer roots consumer producer pos mode =>
      obtain ⟨n, h⟩ := EditE.returns_discard.1 h
      exact Schedule.replayOntoConsumer_keeps hr hf h
  | _ => cases hscope

/-- A staging call keeps what there is. -/
theorem perform_stages (hscope : c.scope = .staging) (hf : Sound f) {u : Unit}
    (h : (c.perform replayer).Returns f u f') : Keeps False f f' := by
  cases c with
  | parallelize tensor axis parallel => exact Schedule.parallelize_keeps hf h
  | parallelizeLike reference tensors types => exact Schedule.parallelizeLike_keeps hf h
  | rfactor tensor axes =>
      obtain ⟨v, h⟩ := EditE.returns_discard.1 h
      exact Schedule.rfactor_keeps hf h
  | cacheAfter tensor =>
      obtain ⟨v, h⟩ := EditE.returns_discard.1 h
      exact Schedule.cacheAfter_keeps hf h
  | cacheBefore tensor =>
      obtain ⟨v, h⟩ := EditE.returns_discard.1 h
      exact Schedule.cacheBefore_keeps hf h
  | cacheFork tensor =>
      obtain ⟨v, h⟩ := EditE.returns_discard.1 h
      exact Schedule.cacheFork_keeps hf h
  | setMemory tensor memory => exact Schedule.setMemory_keeps hf h
  | _ => cases hscope

/-- A call keeps a fusion sound and wired, and all leaves balanced if replays are steady and it
stages nothing. -/
theorem outcome_keeps (hr : Schedule.Replayer.Keeps steady replayer)
    (hc : steady → c.scope ≠ .staging) (hf : Sound f) (h : c.outcome replayer f = some f') :
    Keeps steady f f' := by
  obtain ⟨hknown, u, h⟩ := outcome_eq_some h
  cases hscope : c.scope with
  | building => exact (perform_builds hscope hf hknown h).keeps
  | leaves => exact (perform_schedules hscope hf h).keeps
  | replays => exact perform_replays hr hscope hf h
  | staging =>
      have hkeeps := perform_stages hscope hf h
      exact ⟨⟨hkeeps.sound, hkeeps.ext, fun hs => absurd hscope (hc hs)⟩, hkeeps.wired⟩

/-- Where a call succeeds with the first way to replay, it does the same with the second. -/
theorem outcome_refines {r r' : Schedule.Replayer} (hr : Schedule.Replayer.Refines r r')
    (h : c.outcome r f = some f') : c.outcome r' f = some f' := by
  obtain ⟨hknown, u, h⟩ := outcome_eq_some h
  refine outcome_of_returns (u := u) hknown ?_
  have hrefines : EditE.Refines (c.perform r) (c.perform r') := by
    cases c with
    | computeAt producer consumer pos => exact Schedule.computeAtWith_refines hr _ _ _
    | propagate reference => exact Schedule.propagateTransformsWith_refines hr _
    | replayProducer roots producer consumer pos mode =>
        exact (Schedule.replayOntoProducer_refines hr _ _ _ _ _).discard
    | replayConsumer roots consumer producer pos mode =>
        exact (Schedule.replayOntoConsumer_refines hr _ _ _ _ _).discard
    | _ => exact .refl _
  exact hrefines f u f' h

end Call

/-! ## Sequences of calls -/

namespace Fusion

variable {f f' : Fusion} {steady : Prop} {replayer : Schedule.Replayer} {calls : List Call}

/-- Sequences of calls keep what each of them keeps. -/
theorem applyAll_keeps (hr : Schedule.Replayer.Keeps steady replayer)
    (hcalls : steady → ∀ c ∈ calls, c.scope ≠ .staging) (hf : Sound f)
    (h : applyAll replayer calls f = some f') : Keeps steady f f' := by
  induction calls generalizing f with
  | nil =>
      cases h
      exact .refl hf
  | cons c calls ih =>
      obtain ⟨f₁, hone, h⟩ := Option.bind_eq_some_iff.1 h
      have h₁ := c.outcome_keeps hr (fun hs => hcalls hs c List.mem_cons_self) hf hone
      exact h₁.trans (ih (fun hs d hd => hcalls hs d (List.mem_cons_of_mem c hd)) h₁.sound h)

/-- Refined replays make refined sequences of calls. -/
theorem applyAll_refines {r r' : Schedule.Replayer} (hr : Schedule.Replayer.Refines r r')
    (h : applyAll r calls f = some f') : applyAll r' calls f = some f' := by
  induction calls generalizing f with
  | nil => exact h
  | cons c calls ih =>
      obtain ⟨f₁, hone, h⟩ := Option.bind_eq_some_iff.1 h
      exact Option.bind_eq_some_iff.2 ⟨f₁, c.outcome_refines hr hone, ih h⟩

/-- The empty fusion is sound. -/
theorem sound_empty : Sound {} := by
  refine ⟨?_, ?_, ?_, ?_, ?_, ?_, ?_, ?_⟩
  · intro v e h
    cases h
  · intro v e h
    cases h
  · intro e x h
    cases h
  · intro v c _ hint
    cases hint
  · intro a h
    cases h
  · intro t h
    cases h
  · intro s t _ h
    cases h
  · intro v a h
    cases h

/-- In an empty fusion there is nothing to cut. -/
theorem cuts_empty : Cuts {} :=
  fun _ => ⟨[], Balanced.ofRoot List.nodup_nil⟩

/-- In an empty fusion there are no roots. -/
theorem plain_empty : Plain {} :=
  ⟨fun _ => rfl, fun _ => rfl, fun v a h => by cases h⟩

/-- Every fusion that calls lead to is sound. -/
theorem applyAll_sound (h : applyAll Schedule.replay calls {} = some f) : Sound f :=
  (applyAll_keeps Schedule.replay_keeps False.elim sound_empty h).sound

/-- Every fusion that calls lead to is wired. -/
theorem applyAll_wired (h : applyAll Schedule.replay calls {} = some f) : Wired f :=
  (applyAll_keeps Schedule.replay_keeps False.elim sound_empty h).wired wired_empty

/-- Calls that only build, split, merge and reorder keep all leaves balanced and all roots
plain. -/
theorem applyAll_leafwise (hcalls : ∀ c ∈ calls, c.isLeafwise = true)
    (h : applyAll replayer calls {} = some f) : Sound f ∧ Cuts f ∧ Plain f := by
  have hrun : ∀ g : Fusion, Sound g → Cuts g → Plain g → applyAll replayer calls g = some f →
      Sound f ∧ Cuts f ∧ Plain f := by
    clear h
    induction calls with
    | nil =>
        intro g hs hc hp h
        cases h
        exact ⟨hs, hc, hp⟩
    | cons c calls ih =>
        intro g hs hc hp h
        obtain ⟨f₁, hone, h⟩ := Option.bind_eq_some_iff.1 h
        obtain ⟨hknown, u, hone⟩ := Call.outcome_eq_some hone
        have hrest := ih fun d hd => hcalls d (List.mem_cons_of_mem c hd)
        have hscope := hcalls c List.mem_cons_self
        simp only [Call.isLeafwise, Bool.or_eq_true, beq_iff_eq] at hscope
        rcases hscope with hscope | hscope
        · have hb := Call.perform_builds hscope hs hknown hone
          exact hrest f₁ hb.sound (hb.cuts hc) (hb.plain hp) h
        · have hb := Call.perform_schedules hscope hs hone
          exact hrest f₁ hb.sound (hb.cuts hc) (hb.plain hs hp) h
  exact hrun {} sound_empty cuts_empty plain_empty h

/-! ## Leaves as complete cuts -/

/-- As long as every replay is steady, the leaves of every tensor are a complete cut of its
root. -/
theorem isCompleteCut_of_steady (hcalls : ∀ c ∈ calls, c.scope ≠ .staging)
    (h : applyAll Schedule.replaySteadily calls {} = some f) :
    applyAll Schedule.replay calls {} = some f ∧ ∀ v, f.IsCompleteCut v := by
  have hkeeps := applyAll_keeps Schedule.replaySteadily_keeps (fun _ => hcalls) sound_empty h
  refine ⟨applyAll_refines Schedule.replaySteadily_refines h, fun v => ?_⟩
  exact (hkeeps.cuts trivial cuts_empty).isCompleteCut hkeeps.sound v

/-- Two copies of a matrix, the second flattened and split, the first inlined into it. -/
def inlinedFlattening : List Call :=
  [.tensor [6, 4] [true, true] .float, .input ⟨0⟩, .unary .neg (.value ⟨0⟩),
    .unary .neg (.value ⟨7⟩), .output ⟨10⟩, .merge ⟨10⟩ 0 1, .split ⟨10⟩ 0 (.const 5) true,
    .computeAt ⟨7⟩ ⟨10⟩ 1]

/-- Inlining into a flattened consumer leaves complete cuts. -/
theorem inlinedFlattening_isCompleteCut :
    ∃ f, applyAll Schedule.replay inlinedFlattening {} = some f ∧ ∀ v, f.IsCompleteCut v := by
  have hsome : (applyAll Schedule.replaySteadily inlinedFlattening {}).isSome = true := by
    cbv
  obtain ⟨f, hf⟩ := Option.isSome_iff_exists.1 hsome
  exact ⟨f, isCompleteCut_of_steady (by decide) hf⟩

/-- A replayed merge whose first axis moves while the second one is brought back: a split of the
target's second axis is undone to the left of its first one. -/
def movedMerge : List Call :=
  [.tensor [6, 4, 5] [true, true, true] .float, .input ⟨0⟩, .unary .neg (.value ⟨0⟩),
    .unary .neg (.value ⟨10⟩), .output ⟨14⟩, .split ⟨10⟩ 1 (.const 2) true,
    .reorder ⟨10⟩ [(1, 0), (2, 1)], .merge ⟨14⟩ 0 1, .replayProducer none ⟨10⟩ ⟨14⟩ 1 .propagate]

/-- A merge moved by a stale position leaves no complete cut. -/
theorem movedMerge_not_isCompleteCut :
    ∃ f, applyAll Schedule.replay movedMerge {} = some f ∧ ¬ f.IsCompleteCut ⟨10⟩ := by
  have hrun : ((applyAll Schedule.replay movedMerge {}).any
      fun f => !decide (f.IsCompleteCut ⟨10⟩)) = true := by
    decide +kernel
  obtain ⟨f, hf, hcut⟩ := (Option.any_eq_true _ _).1 hrun
  exact ⟨f, hf, by simpa using hcut⟩

end Fusion
end FusionCompiler
