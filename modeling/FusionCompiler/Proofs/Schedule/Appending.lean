import FusionCompiler.Proofs.Fusion.Appending
import FusionCompiler.Proofs.Schedule.FrozenStaging

/-!
# Transforms append

A split or a merge of axes appends: it touches neither tensors nor what else there
is.  Replaying transforms and repeating them on copies are sequences of such steps,
so they append as well, and a replay that fails has done nothing else.

Main results:

- Theorems `Schedule.splitAxis_appends` and `Schedule.mergeAxes_appends`: a
  transform appends.
- Theorem `Schedule.fails_replay_appends`: a replay that fails has only appended.
- Theorem `Schedule.repeatTransforms_appends`: repeating transforms on copies
  appends.
-/

namespace FusionCompiler

open Fusion

namespace Schedule

variable {f f' : Fusion} {m m' : AxisMap} {ts : List TransformId}

/-! ## Transforms -/

/-- A split appends the quotient, two axes and the transform. -/
theorem splitAxis_appends {a : AxisId} {k : ValueId} {innerSplit : Bool} {p : AxisId × AxisId}
    (hf : Sound f) (ha : f.HasAxis a) (hk : f.isTensor k = false)
    (h : (splitAxis a k innerSplit).Returns f p f') : Appends f f' := by
  unfold splitAxis build at h
  simp only [EditE.returns_bind, EditE.returns_get, EditE.returns_mapError, EditE.returns_lift,
    EditE.returns_discard, EditE.returns_pure, Edit.gives_addAxis, Edit.gives_addTransform] at h
  obtain ⟨f₀, f₁, ⟨rfl, rfl⟩, q, f₁, hq, o, f₂, ⟨rfl, rfl⟩, i, f₃, ⟨rfl, rfl⟩, -, f₄,
    ⟨t, -, rfl⟩, rfl, rfl⟩ := h
  have hquotient := Build.binaryOp_appends (hf.extents a ha).scalar hk hq
  refine ((hquotient.pushAxis _).pushAxis _).pushTransform fun b hb => ?_
  have hnew : ∀ {n : Nat}, f₁.axes.size ≤ n → ¬ f.HasAxis ⟨n⟩ := fun hle =>
    Nat.not_lt.2 (Nat.le_trans hquotient.axes hle)
  simp only [Transform.outputs, List.mem_cons, List.not_mem_nil, or_false] at hb
  rcases hb with rfl | rfl
  · exact hnew (Nat.le_refl _)
  · exact hnew (by simp)

/-- A merge appends the product, an axis and the transform. -/
theorem mergeAxes_appends {o i out : AxisId} (hf : Sound f) (ho : f.HasAxis o) (hi : f.HasAxis i)
    (h : (mergeAxes o i).Returns f out f') : Appends f f' := by
  unfold mergeAxes at h
  obtain ⟨f₀, f₁, hget, h⟩ := EditE.returns_bind.1 h
  obtain ⟨rfl, rfl⟩ := EditE.returns_get.1 hget
  dsimp only at h
  split at h
  · simp at h
  · simp only [EditE.returns_bind, EditE.returns_mapError, EditE.returns_lift,
      EditE.returns_discard, EditE.returns_pure, Edit.gives_addAxis, Edit.gives_addTransform] at h
    obtain ⟨q, f₁, hq, b, f₂, ⟨rfl, rfl⟩, -, f₃, ⟨t, -, rfl⟩, rfl, rfl⟩ := h
    have hproduct := Build.binaryOp_appends (hf.extents o ho).scalar (hf.extents i hi).scalar hq
    refine (hproduct.pushAxis _).pushTransform fun b hb => ?_
    rw [List.mem_singleton.1 hb]
    exact Nat.not_lt.2 hproduct.axes

/-- A split factor is new, or was there. -/
theorem resolveFactor_appends {tensor k : ValueId} {factor : SplitFactor}
    (h : (resolveFactor tensor factor).Returns f k f') : Appends f f' := by
  cases factor with
  | const n =>
      obtain ⟨_, f₁, hpos, h⟩ := EditE.returns_bind.1 h
      obtain ⟨-, rfl⟩ := EditE.returns_ensure.1 hpos
      obtain ⟨-, rfl⟩ := Edit.gives_newValue.1 (EditE.returns_lift.1 h)
      exact (Appends.refl f).pushScalar _ _
  | value v =>
      have hreads : EditE.Reads (resolveFactor tensor (.value v)) :=
        .bind .get fun g => .bind (.ensure _ _) fun _ => .bind (.ensure _ _) fun _ => .pure _
      rw [← hreads.eq_of_returns h]
      exact .refl f

/-! ## Replays -/

theorem replayTransform_appends {g : ReplayGoal} {p p' : Progress} {t : TransformId} (hf : Sound f)
    (ht : f.HasTransform t) (himages : f.Images p.images)
    (h : (replayTransform g p t).Returns f p' f') : Appends f f' := by
  have hrecorded := hf.recorded t ht
  have hpure : ∀ {q : Progress}, (pure q : Schedule Progress).Returns f p' f' → Appends f f' := by
    intro q h
    obtain ⟨-, rfl⟩ := EditE.returns_pure.1 h
    exact .refl f
  unfold replayTransform at h
  obtain ⟨f₀, f₁, hget, h⟩ := EditE.returns_bind.1 h
  obtain ⟨rfl, rfl⟩ := EditE.returns_get.1 hget
  split at h
  case h_1 input outer inner factor innerSplit hx =>
      rw [hx] at hrecorded
      dsimp only at h
      split at h
      · exact hpure h
      · split at h
        · exact hpure h
        case h_2 a ha =>
            obtain ⟨r, f₁, hexpose, h⟩ := EditE.returns_bind.1 h
            obtain rfl := (expose_reads _ _ _).eq_of_returns hexpose
            simp only [EditE.returns_bind, EditE.returns_ensure, EditE.returns_pure] at h
            obtain ⟨-, f₁, ⟨-, rfl⟩, q, f₂, hsplit, -, rfl⟩ := h
            exact splitAxis_appends hf (himages.get? ha) hrecorded.2.2.2.1.scalar hsplit
  case h_2 outer inner output hx =>
      dsimp only at h
      split at h
      · exact hpure h
      · split at h
        case h_1 o i ho hi =>
            obtain ⟨r, f₁, hexpose, h⟩ := EditE.returns_bind.1 h
            obtain rfl := (expose_reads _ _ _).eq_of_returns hexpose
            obtain ⟨s, f₁, hexpose', h⟩ := EditE.returns_bind.1 h
            obtain rfl := (expose_reads _ _ _).eq_of_returns hexpose'
            simp only [EditE.returns_bind, EditE.returns_ensure, EditE.returns_mapError,
              EditE.returns_pure] at h
            obtain ⟨-, f₁, ⟨-, rfl⟩, out, f₂, hmerge, -, rfl⟩ := h
            exact mergeAxes_appends hf (himages.get? ho) (himages.get? hi) hmerge
        all_goals exact hpure h

/-- Replaying transforms one after another. -/
theorem replayTransforms_appends {g : ReplayGoal} {p p' : Progress} (hf : Sound f)
    (hroot : ∀ a ∈ g.root, f.HasAxis a) (hts : ∀ t ∈ ts, f.HasTransform t)
    (hleaf : ∀ a ∈ p.leaf, f.HasAxis a) (himages : f.Images p.images)
    (h : (replayTransforms g ts p).Returns f p' f') : Appends f f' := by
  induction ts generalizing f p with
  | nil =>
      obtain ⟨-, rfl⟩ := EditE.returns_pure.1 h
      exact .refl f
  | cons t ts ih =>
      obtain ⟨p₁, f₁, hstep, h⟩ := EditE.returns_bind.1 h
      have ht := hts t List.mem_cons_self
      have hone := replayTransform_appends hf ht himages hstep
      have hreplayed : Replayed False g f p (f.transform t) f₁ p₁ :=
        replayTransform_replayed hf ht hleaf himages False.elim hstep
      have hruns := hreplayed.replays hf hroot hleaf himages
      refine hone.trans (ih hruns.sound (fun a ha => hone.hasAxis (hroot a ha)) (fun s hs => ?_)
        hruns.leaf hruns.images h)
      exact hone.hasTransform (hts s (List.mem_cons_of_mem t hs))

section Replay

variable {source target : ValueId} {pairs : List (AxisId × AxisId)} {pos : Nat}
  {mode : ReplayMode} {unmappable : AxisId → ScheduleError}

/-- The first transforms of a replay append. -/
theorem replayed_start_appends {done : List TransformId} {p : Progress} (hf : Sound f)
    (hpairs : ∀ q ∈ pairs, f.HasAxis q.2) (hdone : done <+: neededTransforms f source target pos)
    (h : (replayTransforms (.of f source target mode unmappable) done
      (.start f source target pairs)).Returns f p f') : Appends f f' := by
  refine replayTransforms_appends hf (fun a ha => ?_)
    (fun t ht => hasTransform_of_mem_transformsBetween (hdone.subset ht))
    (fun a ha => hf.domains target a (List.mem_append_right _ ha))
    (Images.bestEffortMap hf hpairs) h
  exact hf.domains target a (List.mem_append_left _ (List.mem_append_left _ ha))

/-- A replay that fails has recorded transforms at most: the leaves of its target are set last. -/
theorem fails_replay_appends (hf : Sound f) (hpairs : ∀ q ∈ pairs, f.HasAxis q.2)
    (h : (replay source target pairs pos mode unmappable).Fails f f') : Appends f f' := by
  obtain ⟨done, p, hdone, hrun⟩ := run_of_fails_replay h
  exact replayed_start_appends hf hpairs hdone hrun

theorem fails_replayOntoProducer_appends {roots : Option RootMap} {producer consumer : ValueId}
    (hf : Sound f) (h : (replayOntoProducer replay roots producer consumer pos mode).Fails f f') :
    Appends f f' := by
  unfold replayOntoProducer at h
  simp only [EditE.fails_bind, EditE.fails_get, EditE.returns_get, EditE.fails_ensure,
    EditE.returns_ensure, false_or] at h
  obtain ⟨f₀, f₁, ⟨rfl, rfl⟩, ⟨-, rfl⟩ | ⟨_, f₂, ⟨-, rfl⟩, h⟩⟩ := h
  · exact .refl f
  · refine fails_replay_appends hf (fun q hq => ?_) h
    obtain ⟨r, hr, rfl⟩ := List.mem_map.1 hq
    exact (hasAxis_seedPairs hf hr).1

/-- A replay onto a consumer that fails fails in its checks, or in the replay. -/
theorem fails_replayOntoConsumer {roots : Option RootMap} {consumer producer : ValueId}
    (h : (replayOntoConsumer replay roots consumer producer pos mode).Fails f f') :
    f = f' ∨ (replay producer consumer (seedPairs f roots producer consumer) pos mode
      (.unmappableAxis producer consumer)).Fails f f' := by
  unfold replayOntoConsumer at h
  obtain h | ⟨f₀, f₁, hget, h⟩ := EditE.fails_bind.1 h
  · exact absurd h EditE.fails_get
  obtain ⟨rfl, rfl⟩ := EditE.returns_get.1 hget
  dsimp only at h
  split at h
  · split at h
    · exact .inl (EditE.Atomic.throw_bind _ _ f f' h)
    · exact ((EditE.Reads.ensure _ _).fails_bind h).imp_right fun ⟨_, _, h⟩ => h
  · exact ((EditE.Reads.ensure _ _).fails_bind h).imp_right fun ⟨_, _, h⟩ => h

theorem fails_replayOntoConsumer_appends {roots : Option RootMap} {consumer producer : ValueId}
    (hf : Sound f) (h : (replayOntoConsumer replay roots consumer producer pos mode).Fails f f') :
    Appends f f' := by
  obtain rfl | h := fails_replayOntoConsumer h
  · exact .refl f
  · exact fails_replay_appends hf (fun q hq => (hasAxis_seedPairs hf hq).2) h

end Replay

/-! ## Copies -/

/-- Copying an axis appends it. -/
theorem freshAxis_appends {a b : AxisId} {kind : AxisKind}
    (h : Edit.Gives (freshAxis a kind) f b f') : Appends f f' ∧ ¬ f.HasAxis b := by
  unfold freshAxis Edit.copyAxis at h
  simp only [Edit.gives_bind, Edit.gives_get, Edit.gives_addAxis, Edit.gives_modify,
    Edit.gives_pure] at h
  obtain ⟨c, f₁, ⟨f₀, f₂, ⟨rfl, rfl⟩, rfl, rfl⟩, _, f₃, rfl, rfl, rfl⟩ := h
  have hnew : ¬ f.HasAxis ⟨f.axes.size⟩ := Nat.lt_irrefl _
  refine ⟨?_, hnew⟩
  exact ((Appends.refl f).pushAxis { f.axis a with origin := none, isRFactor := false }).modifyAxis
    (g := fun x => { x with kind, parallel := .serial }) fun hold => absurd hold hnew

theorem copyAxes_transforms {axes : List (AxisId × AxisKind)} {pairs : List (AxisId × AxisId)}
    (h : Edit.Gives (copyAxes axes) f pairs f') : f'.transforms = f.transforms := by
  induction axes generalizing f pairs with
  | nil =>
      obtain ⟨-, rfl⟩ := Edit.gives_pure.1 h
      rfl
  | cons a axes ih =>
      simp only [copyAxes, freshAxis, Edit.copyAxis, Edit.gives_bind, Edit.gives_get,
        Edit.gives_addAxis, Edit.gives_modify, Edit.gives_pure] at h
      obtain ⟨b, f₁, ⟨c, f₂, ⟨f₀, f₃, ⟨rfl, rfl⟩, rfl, rfl⟩, _, f₄, rfl, rfl, rfl⟩, bs, f₅, hbs, -,
        rfl⟩ := h
      rw [ih hbs]
      rfl

/-- Copies of axes are new. -/
theorem copyAxes_appends {axes : List (AxisId × AxisKind)} {pairs : List (AxisId × AxisId)}
    (h : Edit.Gives (copyAxes axes) f pairs f') :
    Appends f f' ∧ ∀ p ∈ pairs, ¬ f.HasAxis p.2 := by
  induction axes generalizing f pairs with
  | nil =>
      obtain ⟨rfl, rfl⟩ := Edit.gives_pure.1 h
      exact ⟨.refl f, by simp⟩
  | cons a axes ih =>
      simp only [copyAxes, Edit.gives_bind, Edit.gives_pure] at h
      obtain ⟨b, f₁, hone, bs, f₅, hbs, rfl, rfl⟩ := h
      obtain ⟨hone, hnew⟩ := freshAxis_appends hone
      obtain ⟨hrest, hall⟩ := ih hbs
      refine ⟨hone.trans hrest, fun p hp => ?_⟩
      rcases List.mem_cons.1 hp with rfl | hp
      · exact hnew
      · exact fun hold => hall p hp (hone.hasAxis hold)

theorem repeatTransform_appends {tensor : ValueId} {t : TransformId} (hf : Sound f)
    (ht : f.HasTransform t) (hm : f.Images m) (h : (repeatTransform tensor t m).Returns f m' f') :
    Appends f f' := by
  unfold repeatTransform at h
  obtain ⟨f₀, f₁, hget, h⟩ := EditE.returns_bind.1 h
  obtain ⟨rfl, rfl⟩ := EditE.returns_get.1 hget
  have hrecorded := hf.recorded t ht
  split at h
  case h_1 input outer inner factor innerSplit hx =>
      rw [hx] at hrecorded
      split at h
      · obtain ⟨-, rfl⟩ := EditE.returns_pure.1 h
        exact .refl f
      case h_2 image himage =>
          obtain ⟨q, f₁, hsplit, h⟩ := EditE.returns_bind.1 h
          obtain ⟨-, rfl⟩ := EditE.returns_pure.1 h
          exact splitAxis_appends hf (hm.get? himage) hrecorded.2.2.2.1.scalar hsplit
  case h_2 outer inner output hx =>
      split at h
      case h_1 o i ho hi =>
          simp only [EditE.returns_bind, EditE.returns_mapError, EditE.returns_pure] at h
          obtain ⟨out, f₁, hmerge, -, rfl⟩ := h
          exact mergeAxes_appends hf (hm.get? ho) (hm.get? hi) hmerge
      case h_2 =>
          obtain ⟨-, rfl⟩ := EditE.returns_pure.1 h
          exact .refl f

/-- Repeating transforms on images appends, and what it adds to the images is new. -/
theorem repeatTransforms_appends {tensor : ValueId} (hf : Sound f)
    (hts : ∀ t ∈ ts, f.HasTransform t) (hm : f.Images m)
    (h : (repeatTransforms tensor ts m).Returns f m' f') :
    Appends f f' ∧ ∀ b ∈ m'.images, b ∈ m.images ∨ ¬ f.HasAxis b := by
  induction ts generalizing f m with
  | nil =>
      obtain ⟨rfl, rfl⟩ := EditE.returns_pure.1 h
      exact ⟨.refl f, fun b hb => .inl hb⟩
  | cons t ts ih =>
      obtain ⟨m₁, f₁, hstep, h⟩ := EditE.returns_bind.1 h
      have ht := hts t List.mem_cons_self
      have hone := repeatTransform_appends hf ht hm hstep
      obtain ⟨hkeeps, hm₁⟩ := repeatTransform_keeps hf ht hm hstep
      obtain ⟨hrest, hnew⟩ := ih hkeeps.sound
        (fun s hs => hone.hasTransform (hts s (List.mem_cons_of_mem t hs))) hm₁ h
      refine ⟨hone.trans hrest, fun b hb => ?_⟩
      rcases hnew b hb with hb | hb
      · obtain ⟨-, rfl⟩ | ⟨x, hrec, himages⟩ := repeatTransform_records hf ht hm hstep
        · exact .inl hb
        · exact (himages b hb).imp id (hrec.fresh b)
      · exact .inr fun hold => hb (hone.hasAxis hold)

theorem images_of_pairs_new {pairs : List (AxisId × AxisId)} (h : ∀ p ∈ pairs, ¬ f.HasAxis p.2) :
    ∀ b ∈ (AxisMap.ofPairs pairs).images, ¬ f.HasAxis b := by
  intro b hb
  rcases AxisMap.mem_images_insertAll (m := {}) hb with hb | hb
  · obtain ⟨p, hp, rfl⟩ := List.mem_map.1 hb
    exact h p hp
  · cases hb

/-- New axes get an execution. -/
theorem copyParallel_appends {f₀ : Fusion} {pairs : List (AxisId × AxisId)} {u : Unit}
    (h₀ : Appends f₀ f) (hpairs : ∀ p ∈ pairs, ¬ f₀.HasAxis p.2)
    (h : Edit.Gives (copyParallel pairs) f u f') : Appends f₀ f' := by
  unfold copyParallel at h
  induction pairs generalizing f with
  | nil =>
      obtain ⟨-, rfl⟩ := Edit.gives_pure.1 h
      exact h₀
  | cons p pairs ih =>
      obtain ⟨_, f₁, hstep, h⟩ := Edit.gives_bind.1 h
      obtain rfl := Edit.gives_modify.1 hstep
      have hnew := hpairs p List.mem_cons_self
      exact ih (h₀.modifyAxis fun hold => absurd hold hnew)
        (fun q hq => hpairs q (List.mem_cons_of_mem p hq)) h

/-- New axes are changed one after another. -/
theorem foldl_modifyAxis_appends {f₀ : Fusion} {axes : List AxisId} {k : AxisId → AxisId}
    {g : Axis → Axis} (h₀ : Appends f₀ f) (haxes : ∀ a ∈ axes, ¬ f₀.HasAxis (k a)) :
    Appends f₀ (axes.foldl (fun f a => f.modifyAxis (k a) g) f) := by
  induction axes generalizing f with
  | nil => exact h₀
  | cons a axes ih =>
      have hnew := haxes a List.mem_cons_self
      exact ih (h₀.modifyAxis fun hold => absurd hold hnew)
        fun b hb => haxes b (List.mem_cons_of_mem a hb)

end Schedule
end FusionCompiler
