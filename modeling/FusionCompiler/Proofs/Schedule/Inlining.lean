import FusionCompiler.Schedule.Inline
import FusionCompiler.Schedule.Propagate
import FusionCompiler.Proofs.Schedule.Replaying

/-!
# Inlining and spreading schedules

Inlining a producer and spreading the schedule of a reference tensor are made of
replays and of raised positions.  What a way to replay keeps, they keep, and a
way to replay that succeeds less often makes them succeed less often.

Main results:

- Theorems `Schedule.computeAtWith_keeps` and
  `Schedule.propagateTransformsWith_keeps`: both calls keep what their replays
  keep.
- Theorems `Schedule.computeAtWith_refines` and
  `Schedule.propagateTransformsWith_refines`: where they succeed with steady
  replays, they do the same with any replays.
-/

namespace FusionCompiler

open Fusion

namespace Fusion

variable {f : Fusion}

/-- What is paired with something comes in its order. -/
theorem map_fst_zip_sublist {α β : Type} (l : List α) (l' : List β) :
    ((l.zip l').map (·.1)).Sublist l := by
  induction l generalizing l' with
  | nil => simp
  | cons a l ih =>
      cases l' with
      | nil => simp
      | cons b l' => exact (ih l').cons_cons a

/-- The axes of a consumer's root that correspond to a producer's, in order. -/
theorem rootPairs_eq_zip (f : Fusion) (producer consumer : ValueId) :
    ∃ axes, axes.Sublist (f.view consumer).domain.root ∧
      f.rootPairs producer consumer = (f.shape producer).zip axes := by
  unfold rootPairs
  split
  · exact ⟨[], List.nil_sublist _, by simp⟩
  · split
    · exact ⟨[], List.nil_sublist _, by simp⟩
    · refine ⟨_, ?_, rfl⟩
      split
      · exact (List.filter_sublist.map _).trans (map_fst_zip_sublist _ _)
      · exact List.Sublist.refl _

/-- Corresponding axes are a shape axis of the producer and a root axis of the consumer. -/
theorem mem_of_mem_rootPairs {producer consumer : ValueId} {p : AxisId × AxisId}
    (h : p ∈ f.rootPairs producer consumer) :
    p.1 ∈ f.shape producer ∧ p.2 ∈ (f.view consumer).domain.root := by
  obtain ⟨axes, hsub, heq⟩ := f.rootPairs_eq_zip producer consumer
  rw [heq] at h
  obtain ⟨hp, hc⟩ := List.of_mem_zip h
  exact ⟨hp, hsub.subset hc⟩

/-- Corresponding axes of a producer and a consumer exist. -/
theorem Sound.hasAxis_rootPairs (hf : Sound f) {producer consumer : ValueId} {p : AxisId × AxisId}
    (h : p ∈ f.rootPairs producer consumer) : f.HasAxis p.1 ∧ f.HasAxis p.2 := by
  obtain ⟨hp, hc⟩ := mem_of_mem_rootPairs h
  refine ⟨hf.domains producer p.1 ?_, hf.domains consumer p.2 ?_⟩
  · exact List.mem_append_left _ (List.mem_append_right _ (List.mem_filter.1 hp).1)
  · exact List.mem_append_left _ (List.mem_append_left _ hc)

end Fusion

namespace Schedule

variable {f f' : Fusion} {steady : Prop} {replayer : Replayer}

/-! ## What replays keep, calls keep -/

/-- Seeds are pairs of corresponding axes. -/
theorem mem_rootPairs_of_mem_seedPairs {roots : Option RootMap} {producer consumer : ValueId}
    {q : AxisId × AxisId} (h : q ∈ seedPairs f roots producer consumer) :
    q ∈ f.rootPairs producer consumer := by
  cases roots with
  | none => exact h
  | some m => exact (List.mem_filter.1 h).1

/-- Pairs of root axes are pairs of axes. -/
theorem hasAxis_seedPairs (hf : Sound f) {roots : Option RootMap} {producer consumer : ValueId}
    {p : AxisId × AxisId} (h : p ∈ seedPairs f roots producer consumer) :
    f.HasAxis p.1 ∧ f.HasAxis p.2 :=
  hf.hasAxis_rootPairs (mem_rootPairs_of_mem_seedPairs h)

/-- What a replay from consumer to producer returns. -/
theorem returns_replayOntoProducer {roots : Option RootMap} {producer consumer : ValueId}
    {pos n : Nat} {mode : ReplayMode} :
    (replayOntoProducer replayer roots producer consumer pos mode).Returns f n f' ↔
      producer ∈ f.producers consumer ∧
        (replayer consumer producer ((seedPairs f roots producer consumer).map fun (p, c) => (c, p))
          pos mode (.unmappableAxis producer consumer)).Returns f n f' := by
  unfold replayOntoProducer
  simp only [EditE.returns_bind, EditE.returns_get, EditE.returns_ensure]
  constructor
  · rintro ⟨f₀, f₁, ⟨rfl, rfl⟩, -, f₂, ⟨hmem, rfl⟩, h⟩
    exact ⟨by simpa using hmem, h⟩
  · rintro ⟨hmem, h⟩
    exact ⟨f, f, ⟨rfl, rfl⟩, (), f, ⟨by simpa using hmem, rfl⟩, h⟩

/-- What a replay from producer to consumer returns. -/
theorem returns_replayOntoConsumer {roots : Option RootMap} {consumer producer : ValueId}
    {pos n : Nat} {mode : ReplayMode} :
    (replayOntoConsumer replayer roots consumer producer pos mode).Returns f n f' ↔
      (mode = .computeAt → ∀ a ∈ (f.leaf producer).take pos, (f.axis a).isReduction = false) ∧
        producer ∈ f.producers consumer ∧
        (replayer producer consumer (seedPairs f roots producer consumer) pos mode
          (.unmappableAxis producer consumer)).Returns f n f' := by
  -- both branches that go on replay with the same pairs
  have hgoes : (do
      EditE.ensure ((f.producers consumer).contains producer)
        (ScheduleError.notAProducer producer consumer)
      replayer producer consumer (seedPairs f roots producer consumer) pos mode
        (.unmappableAxis producer consumer) : Schedule Nat).Returns f n f' ↔
      producer ∈ f.producers consumer ∧
        (replayer producer consumer (seedPairs f roots producer consumer) pos mode
          (.unmappableAxis producer consumer)).Returns f n f' := by
    simp only [EditE.returns_bind, EditE.returns_ensure]
    constructor
    · rintro ⟨-, f₁, ⟨hmem, rfl⟩, h⟩
      exact ⟨by simpa using hmem, h⟩
    · rintro ⟨hmem, h⟩
      exact ⟨(), f, ⟨by simpa using hmem, rfl⟩, h⟩
  unfold replayOntoConsumer
  rw [EditE.returns_bind]
  constructor
  · rintro ⟨f₀, f₁, hget, h⟩
    obtain ⟨rfl, rfl⟩ := EditE.returns_get.1 hget
    dsimp only at h
    split at h
    case isTrue =>
        split at h
        · simp at h
        case h_2 hnone => exact ⟨fun _ => by simpa using hnone, hgoes.1 h⟩
    case isFalse hmode => exact ⟨fun heq => absurd heq hmode, hgoes.1 h⟩
  · rintro ⟨hcheck, h⟩
    refine ⟨f, f, EditE.returns_get.2 ⟨rfl, rfl⟩, ?_⟩
    dsimp only
    split
    case isTrue hmode =>
        have hnone : ((f.leaf producer).take pos).find? (fun a => (f.axis a).isReduction) = none := by
          simpa using hcheck hmode
        rw [hnone]
        exact hgoes.2 h
    case isFalse => exact hgoes.2 h

/-- A replay from consumer to producer keeps what the replay keeps. -/
theorem replayOntoProducer_keeps (hr : Replayer.Keeps steady replayer) (hf : Sound f)
    {roots : Option RootMap} {producer consumer : ValueId} {pos n : Nat} {mode : ReplayMode}
    (h : (replayOntoProducer replayer roots producer consumer pos mode).Returns f n f') :
    Keeps steady f f' := by
  refine hr hf (fun p hp => ?_) (returns_replayOntoProducer.1 h).2
  obtain ⟨q, hq, rfl⟩ := List.mem_map.1 hp
  exact (hasAxis_seedPairs hf hq).1

/-- A replay from producer to consumer keeps what the replay keeps. -/
theorem replayOntoConsumer_keeps (hr : Replayer.Keeps steady replayer) (hf : Sound f)
    {roots : Option RootMap} {consumer producer : ValueId} {pos n : Nat} {mode : ReplayMode}
    (h : (replayOntoConsumer replayer roots consumer producer pos mode).Returns f n f') :
    Keeps steady f f' :=
  hr hf (fun _ hp => (hasAxis_seedPairs hf hp).2) (returns_replayOntoConsumer.1 h).2.2

/-- Raising positions keeps everything. -/
theorem updateView_keeps (hf : Sound f) {v : ValueId} {g : TensorView → TensorView} {u : Unit}
    (hg : (g (f.view v)).domain = (f.view v).domain) (h : Edit.Gives (updateView v g) f u f') :
    Keeps steady f f' := by
  obtain rfl := Edit.gives_modify.1 h
  exact (Keeps.refl hf).modify_sync_domain hg

/-- Walking back to producers keeps what the replay keeps. -/
theorem backward_keeps (hr : Replayer.Keeps steady replayer) (hf : Sound f) {roots : RootMap}
    {members vs : List ValueId} {positions : List (ValueId × Nat)} {u : Unit}
    (h : (backward replayer roots members vs positions).Returns f u f') : Keeps steady f f' := by
  induction vs generalizing f positions with
  | nil =>
      obtain ⟨-, rfl⟩ := EditE.returns_pure.1 h
      exact .refl hf
  | cons v vs ih =>
      unfold backward at h
      obtain ⟨f₀, f₁, hget, h⟩ := EditE.returns_bind.1 h
      obtain ⟨rfl, rfl⟩ := EditE.returns_get.1 hget
      dsimp only at h
      split at h
      · exact ih hf h
      case h_2 c pos _ =>
          simp only [EditE.returns_bind, EditE.returns_lift] at h
          obtain ⟨own, f₁, hreplay, _, f₂, hown, _, f₃, hpos, h⟩ := h
          have h₁ := replayOntoProducer_keeps hr hf hreplay
          have h₂ := h₁.trans (updateView_keeps h₁.sound rfl hown)
          have h₃ := h₂.trans (updateView_keeps h₂.sound rfl hpos)
          exact h₃.trans (ih h₃.sound h)

/-- Walking to the uses of a tensor keeps what the replay keeps. -/
theorem forwardUses_keeps (hr : Replayer.Keeps steady replayer) (hf : Sound f) {g : ForwardGoal}
    {v : ValueId} {vs reached : List ValueId}
    (h : (forwardUses replayer g v vs).Returns f reached f') : Keeps steady f f' := by
  induction vs generalizing f reached with
  | nil =>
      obtain ⟨-, rfl⟩ := EditE.returns_pure.1 h
      exact .refl hf
  | cons next vs ih =>
      unfold forwardUses at h
      obtain ⟨f₀, f₁, hget, h⟩ := EditE.returns_bind.1 h
      obtain ⟨rfl, rfl⟩ := EditE.returns_get.1 hget
      split at h
      · exact ih hf h
      · dsimp only at h
        have hrest : ∀ {f₁ : Fusion}, Keeps steady f f₁ → ((do
            let nextPos ← replayOntoConsumer replayer (some g.roots) next v
              (sharedPosition f v (g.positioned.contains v)) .computeAt
            updateView next (·.raiseMaxProducer nextPos)
            return next :: (← forwardUses replayer g v vs)) : Schedule (List ValueId)).Returns f₁
              reached f' → Keeps steady f f' := by
          intro f₁ h₁ h
          simp only [EditE.returns_bind, EditE.returns_lift, EditE.returns_pure] at h
          obtain ⟨pos, f₂, hreplay, _, f₃, hpos, more, f₄, huses, -, rfl⟩ := h
          have h₂ := h₁.trans (replayOntoConsumer_keeps hr h₁.sound hreplay)
          have h₃ := h₂.trans (updateView_keeps h₂.sound rfl hpos)
          exact h₃.trans (ih h₃.sound huses)
        split at h
        · obtain ⟨_, f₁, hown, h⟩ := EditE.returns_bind.1 h
          exact hrest (updateView_keeps hf rfl (EditE.returns_lift.1 hown)) h
        · exact hrest (.refl hf) h

/-- Walking forward to consumers keeps what the replay keeps. -/
theorem forward_keeps (hr : Replayer.Keeps steady replayer) (hf : Sound f) {g : ForwardGoal}
    {vs active : List ValueId} {u : Unit} (h : (forward replayer g vs active).Returns f u f') :
    Keeps steady f f' := by
  induction vs generalizing f active with
  | nil =>
      obtain ⟨-, rfl⟩ := EditE.returns_pure.1 h
      exact .refl hf
  | cons v vs ih =>
      unfold forward at h
      split at h
      · exact ih hf h
      · simp only [EditE.returns_bind, EditE.returns_get] at h
        obtain ⟨f₀, f₁, ⟨rfl, rfl⟩, reached, f₂, huses, h⟩ := h
        have h₁ := forwardUses_keeps hr hf huses
        exact h₁.trans (ih h₁.sound h)

/-- Inlining keeps what its replays keep. -/
theorem computeAtWith_keeps (hr : Replayer.Keeps steady replayer) (hf : Sound f)
    {producer consumer : ValueId} {pos : Int} {u : Unit}
    (h : (computeAtWith replayer producer consumer pos).Returns f u f') : Keeps steady f f' := by
  unfold computeAtWith build at h
  simp only [EditE.returns_bind, EditE.returns_discard, EditE.returns_mapError,
    Build.returns_ensureTensor, EditE.returns_ofExcept, EditE.returns_get,
    EditE.returns_ensure] at h
  obtain ⟨-, f₁, ⟨_, -, rfl⟩, view, f₂, ⟨-, rfl⟩, p, f₃, ⟨-, rfl⟩, f₀, f₄, ⟨rfl, rfl⟩, -, f₅,
    ⟨-, rfl⟩, _, f₁, hbackward, f₀, f₂, ⟨rfl, rfl⟩, hforward⟩ := h
  have h₁ := backward_keeps hr hf hbackward
  exact h₁.trans (forward_keeps hr h₁.sound hforward)

/-- Spreading loops keeps what the replay keeps. -/
theorem spread_keeps (hr : Replayer.Keeps steady replayer) (hf : Sound f) {fuel : Nat}
    {reached : List Reached} {u : Unit} (h : (spread replayer fuel reached).Returns f u f') :
    Keeps steady f f' := by
  induction fuel generalizing f reached with
  | zero =>
      obtain ⟨-, rfl⟩ := EditE.returns_pure.1 h
      exact .refl hf
  | succ fuel ih =>
      unfold spread at h
      obtain ⟨f₀, f₁, hget, h⟩ := EditE.returns_bind.1 h
      obtain ⟨rfl, rfl⟩ := EditE.returns_get.1 hget
      split at h
      · obtain ⟨-, rfl⟩ := EditE.returns_pure.1 h
        exact .refl hf
      case h_2 s _ =>
          dsimp only at h
          split at h
          · simp only [EditE.returns_bind, EditE.returns_discard, EditE.returns_get] at h
            obtain ⟨_, f₁, ⟨n, hreplay⟩, f₀, f₂, ⟨rfl, rfl⟩, h⟩ := h
            have h₁ := replayOntoProducer_keeps hr hf hreplay
            exact h₁.trans (ih h₁.sound h)
          · simp only [EditE.returns_bind, EditE.returns_discard, EditE.returns_get] at h
            obtain ⟨_, f₁, ⟨n, hreplay⟩, f₀, f₂, ⟨rfl, rfl⟩, h⟩ := h
            have h₁ := replayOntoConsumer_keeps hr hf hreplay
            exact h₁.trans (ih h₁.sound h)

/-- Spreading a schedule keeps what its replays keep. -/
theorem propagateTransformsWith_keeps (hr : Replayer.Keeps steady replayer) (hf : Sound f)
    {reference : ValueId} {u : Unit}
    (h : (propagateTransformsWith replayer reference).Returns f u f') : Keeps steady f f' := by
  unfold propagateTransformsWith build at h
  simp only [EditE.returns_bind, EditE.returns_mapError, Build.returns_ensureTensor,
    EditE.returns_get] at h
  obtain ⟨view, f₁, ⟨-, rfl⟩, f₀, f₂, ⟨rfl, rfl⟩, h⟩ := h
  exact spread_keeps hr hf h

/-! ## Replaying in two ways -/

/-- Where the first way to replay succeeds, the second one does the same. -/
def Replayer.Refines (r r' : Replayer) : Prop :=
  ∀ source target pairs pos mode unmappable,
    EditE.Refines (r source target pairs pos mode unmappable)
      (r' source target pairs pos mode unmappable)

/-- A steady replay is a replay. -/
theorem replaySteadily_refines : Replayer.Refines replaySteadily replay := by
  intro source target pairs pos mode unmappable f n f' h
  exact (returns_replaySteadily.1 h).2

section Refining

variable {r r' : Replayer} (hr : Replayer.Refines r r')

include hr

/-- A refined replay makes refined replays from consumer to producer. -/
theorem replayOntoProducer_refines (roots : Option RootMap) (producer consumer : ValueId)
    (pos : Nat) (mode : ReplayMode) :
    EditE.Refines (replayOntoProducer r roots producer consumer pos mode)
      (replayOntoProducer r' roots producer consumer pos mode) := by
  unfold replayOntoProducer
  refine .bind (.refl _) fun f => ?_
  exact .bind (.refl _) fun _ => hr _ _ _ _ _ _

/-- A refined replay makes refined replays from producer to consumer. -/
theorem replayOntoConsumer_refines (roots : Option RootMap) (consumer producer : ValueId)
    (pos : Nat) (mode : ReplayMode) :
    EditE.Refines (replayOntoConsumer r roots consumer producer pos mode)
      (replayOntoConsumer r' roots consumer producer pos mode) := by
  unfold replayOntoConsumer
  refine .bind (.refl _) fun f => ?_
  dsimp only
  split
  · split
    · exact .bind (.refl _) fun _ => .bind (.refl _) fun _ => hr _ _ _ _ _ _
    · exact .bind (.refl _) fun _ => hr _ _ _ _ _ _
  · exact .bind (.refl _) fun _ => hr _ _ _ _ _ _

/-- A refined replay makes a refined walk back to producers. -/
theorem backward_refines (roots : RootMap) (members vs : List ValueId)
    (positions : List (ValueId × Nat)) :
    EditE.Refines (backward r roots members vs positions)
      (backward r' roots members vs positions) := by
  induction vs generalizing positions with
  | nil => exact .refl _
  | cons v vs ih =>
      unfold backward
      refine .bind (.refl _) fun f => ?_
      dsimp only
      split
      · exact ih positions
      · refine .bind (replayOntoProducer_refines hr _ _ _ _ _) fun own => ?_
        exact .bind (.refl _) fun _ => .bind (.refl _) fun _ => ih _

/-- A refined replay makes a refined walk to the uses of a tensor. -/
theorem forwardUses_refines (g : ForwardGoal) (v : ValueId) (vs : List ValueId) :
    EditE.Refines (forwardUses r g v vs) (forwardUses r' g v vs) := by
  induction vs with
  | nil => exact .refl _
  | cons next vs ih =>
      unfold forwardUses
      refine .bind (.refl _) fun f => ?_
      split
      · exact ih
      · dsimp only
        split
        · refine .bind (.refl _) fun _ => ?_
          refine .bind (replayOntoConsumer_refines hr _ _ _ _ _) fun pos => ?_
          exact .bind (.refl _) fun _ => .bind ih fun _ => .refl _
        · refine .bind (replayOntoConsumer_refines hr _ _ _ _ _) fun pos => ?_
          exact .bind (.refl _) fun _ => .bind ih fun _ => .refl _

/-- A refined replay makes a refined walk forward. -/
theorem forward_refines (g : ForwardGoal) (vs active : List ValueId) :
    EditE.Refines (forward r g vs active) (forward r' g vs active) := by
  induction vs generalizing active with
  | nil => exact .refl _
  | cons v vs ih =>
      unfold forward
      split
      · exact ih active
      · refine .bind (.refl _) fun f => ?_
        exact .bind (forwardUses_refines hr g v _) fun reached => ih _

/-- Where inlining succeeds with the first way to replay, it does the same with the second. -/
theorem computeAtWith_refines (producer consumer : ValueId) (pos : Int) :
    EditE.Refines (computeAtWith r producer consumer pos)
      (computeAtWith r' producer consumer pos) := by
  unfold computeAtWith
  refine .bind (.refl _) fun _ => .bind (.refl _) fun _ => .bind (.refl _) fun _ => ?_
  refine .bind (.refl _) fun _ => .bind (.refl _) fun _ => ?_
  refine .bind (backward_refines hr _ _ _ _) fun _ => .bind (.refl _) fun f => ?_
  exact forward_refines hr _ _ _

/-- A refined replay makes a refined spread. -/
theorem spread_refines (fuel : Nat) (reached : List Reached) :
    EditE.Refines (spread r fuel reached) (spread r' fuel reached) := by
  induction fuel generalizing reached with
  | zero => exact .refl _
  | succ fuel ih =>
      unfold spread
      refine .bind (.refl _) fun f => ?_
      split
      · exact .refl _
      · dsimp only
        split
        · refine .bind (replayOntoProducer_refines hr _ _ _ _ _).discard fun _ => ?_
          exact .bind (.refl _) fun _ => ih _
        · refine .bind (replayOntoConsumer_refines hr _ _ _ _ _).discard fun _ => ?_
          exact .bind (.refl _) fun _ => ih _

/-- Where spreading a schedule succeeds with the first way to replay, it does the same with the
second. -/
theorem propagateTransformsWith_refines (reference : ValueId) :
    EditE.Refines (propagateTransformsWith r reference) (propagateTransformsWith r' reference) := by
  unfold propagateTransformsWith
  refine .bind (.refl _) fun _ => .bind (.refl _) fun _ => ?_
  exact spread_refines hr _ _

end Refining

end Schedule
end FusionCompiler
