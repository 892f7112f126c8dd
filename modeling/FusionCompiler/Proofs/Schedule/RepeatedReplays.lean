import FusionCompiler.Proofs.Fusion.Downstream
import FusionCompiler.Proofs.Schedule.Calls
import FusionCompiler.Proofs.Schedule.FrozenReplays
import FusionCompiler.Proofs.Schedule.Mirroring

/-!
# Replaying twice

A replay reuses what an earlier one has made: where it finds an image for every output
of a transform, it records none.  The images that a replay starts with come from
matching the history of the source with that of the target, the ones it ends with from
the transforms that it has recorded.  Both are faithful and miss nothing, so they are
the same where no axis is a broadcast, and a replay that is repeated has nothing left
to do.

A broadcast spoils this.  A merge with a broadcast can be looked through before it is
matched; then it is made once more.

Main results:

- Theorem `Schedule.replayTransforms_follows`: transforms that are replayed keep the
  images faithful and complete, and leave none of them to be replayed.
- Theorem `Schedule.replay_settles`: after a steady replay there is nothing to replay.
- Theorem `Schedule.replays_repeat`: replays between a producer and its consumer can be
  repeated in both directions.
- Theorem `Schedule.flattenedColumns_not_repeated`: with a broadcast they can not.
-/

namespace FusionCompiler

open Fusion

namespace Schedule

variable {f f' : Fusion} {m m' : AxisMap} {x y : Transform} {a b : AxisId}

/-! ## Following a source -/

section Following

variable {pairs : List (AxisId × AxisId)} {sroot sleaf root leaf leaf' : List AxisId}
  {xs : List Transform} {ts : List TransformId}

/-- The transforms of a source are recorded, and none of them consumes a broadcast. -/
structure Source (f : Fusion) (root : List AxisId) (xs : List Transform) (leaf : List AxisId) :
    Prop extends Lineage root xs leaf where
  recorded : ∀ x ∈ xs, f.Recorded x
  concrete : ∀ x ∈ xs, ∀ a ∈ x.inputs, (f.axis a).isBroadcast = false

/-- Leaves of a target that follow the transforms of a source: they are balanced along transforms
without broadcasts, and the images of the source's axes are faithful to these and complete. -/
structure Follows (f : Fusion) (pairs : List (AxisId × AxisId)) (sroot : List AxisId)
    (xs : List Transform) (root : List AxisId) (ts : List TransformId) (leaf : List AxisId)
    (m : AxisMap) : Prop where
  balanced : f.Balanced root ts leaf
  concrete : ∀ a ∈ root ++ f.outputsOf ts, (f.axis a).isBroadcast = false
  faithful : Faithful f pairs sroot xs (ts.map f.transform) m
  complete : Complete f xs (ts.map f.transform) m

/-- The source of a replay stays one in later fusions. -/
theorem Source.extended (h : Source f sroot xs sleaf) (hf : Sound f) (hext : Extends f f')
    (haxis : ∀ a, f.HasAxis a → f'.axis a = f.axis a) : Source f' sroot xs sleaf := by
  refine ⟨h.toLineage, fun x hx => (h.recorded x hx).mono hf.extents hext, fun x hx a ha => ?_⟩
  rw [haxis a ((h.recorded x hx).hasAxis_input ha)]
  exact h.concrete x hx a ha

namespace Follows

/-- Leaves follow a source in every extension of the fusion. -/
theorem extended (h : Follows f pairs sroot xs root ts leaf m) (hf : Sound f)
    (hs : Source f sroot xs sleaf) (hroot : ∀ a ∈ root, f.HasAxis a) (hext : Extends f f')
    (haxis : ∀ a, f.HasAxis a → f'.axis a = f.axis a) :
    Follows f' pairs sroot xs root ts leaf m := by
  have hys : ∀ y ∈ ts.map f.transform, f.Recorded y := by
    intro y hy
    obtain ⟨t, ht, rfl⟩ := List.mem_map.1 hy
    exact hf.recorded t (h.balanced.has t ht)
  have htransforms : ts.map f'.transform = ts.map f.transform :=
    List.map_congr_left fun t ht => hext.transform t (h.balanced.has t ht)
  refine ⟨h.balanced.mono hext, fun a ha => ?_, ?_, ?_⟩
  · rw [Balanced.outputsOf_congr fun t ht => hext.transform t (h.balanced.has t ht)] at ha
    rw [haxis a (h.balanced.hasAxis hf hroot ha)]
    exact h.concrete a ha
  · rw [htransforms]
    exact h.faithful.extended hf hext hs.recorded hys
  · rw [htransforms]
    intro x hx y hy halike
    exact h.complete x hx y hy ((alike_iff hf hext (hs.recorded x hx) (hys y hy)).1 halike)

/-- The order of the leaves does not matter. -/
theorem reorder (h : Follows f pairs sroot xs root ts leaf m) (hp : leaf'.Perm leaf) :
    Follows f pairs sroot xs root ts leaf' m :=
  ⟨h.balanced.reorder hp, h.concrete, h.faithful, h.complete⟩

/-- Bringing images back among the leaves. -/
theorem expose {g : ReplayGoal} {bs : List AxisId} (hf : Sound f) (hs : Lineage sroot xs sleaf)
    (hp : Seeds pairs sroot g.root) (h : Follows f pairs sroot xs g.root ts leaf m)
    (hfree : ∀ b ∈ bs, ∃ a, Met sroot xs a ∧ m.get? a = some b ∧
      ∀ x ∈ xs, a ∈ x.inputs → ∃ o ∈ x.outputs, m.contains o = false)
    (hexpose : exposeAll f g bs leaf = some leaf') :
    ∃ ts', Follows f pairs sroot xs g.root ts' leaf' m := by
  obtain ⟨ts', hsub, hb, hfaithful⟩ :=
    exposeAll_faithful hf hs hp h.balanced h.faithful hfree hexpose
  refine ⟨ts', hb, fun a ha => h.concrete a ?_, hfaithful, fun x hx y hy => h.complete x hx y ?_⟩
  · rcases List.mem_append.1 ha with ha | ha
    · exact List.mem_append_left _ ha
    · obtain ⟨t, ht, hout⟩ := mem_outputsOf.1 ha
      exact List.mem_append_right _ (mem_outputsOf.2 ⟨t, hsub t ht, hout⟩)
  · obtain ⟨t, ht, rfl⟩ := List.mem_map.1 hy
    exact List.mem_map_of_mem (hsub t ht)

/-- Bringing images of leaves of the source back among the leaves. -/
theorem exposeLeaves {g : ReplayGoal} {as : List AxisId} (hf : Sound f)
    (hs : Lineage sroot xs sleaf) (hp : Seeds pairs sroot g.root)
    (h : Follows f pairs sroot xs g.root ts leaf m)
    (has : ∀ a ∈ as, a ∈ sleaf)
    (hexpose : exposeAll f g (as.filterMap m.get?) leaf = some leaf') :
    ∃ ts', Follows f pairs sroot xs g.root ts' leaf' m := by
  refine h.expose hf hs hp (fun b hb => ?_) hexpose
  obtain ⟨a, ha, hget⟩ := List.mem_filterMap.1 hb
  obtain ⟨hmet, hunused⟩ := hs.leaves a (has a ha)
  exact ⟨a, hmet, hget, fun x hx hin => absurd hin (hunused x hx)⟩

/-- Recording a transform over images that does what one of the source does. -/
theorem record (hf : Sound f) (hs : Source f sroot xs sleaf) (hp : Seeds pairs sroot root)
    (hroot : ∀ a ∈ root, f.HasAxis a) (h : Follows f pairs sroot xs root ts leaf m)
    (hrec : Records f f' y) (hx : x ∈ xs) (hnew : ∃ a ∈ x.outputs, m.contains a = false)
    (halike : f'.Alike x y) (hinputs : x.inputs.map m.get? = y.inputs.map some)
    (hperm : (leaf' ++ y.inputs).Perm (leaf ++ y.outputs)) :
    Follows f' pairs sroot xs root (ts ++ [⟨f.transforms.size⟩]) leaf'
      (m.insertAll (x.outputs.zip y.outputs)) := by
  have hold := h.extended hf hs hroot hrec.ext hrec.axis
  have hb := hrec.balanced hf h.balanced hroot hperm
  have htransforms : (ts ++ [(⟨f.transforms.size⟩ : TransformId)]).map f'.transform =
      ts.map f'.transform ++ [y] := by
    rw [List.map_append, List.map_singleton, hrec.transform_last]
  have ht := lineage_of_balanced hrec.sound hb
  rw [htransforms] at ht
  have hlast : y ∈ ts.map f'.transform ++ [y] := by simp
  have hfaithful := (hold.faithful.mono fun _ => List.mem_append_left [y]).extend hs.toLineage ht hp
    hx hlast hnew halike hinputs
  have houtputs : x.outputs.map (m.insertAll (x.outputs.zip y.outputs)).get? =
      y.outputs.map some :=
    AxisMap.map_get?_insertAll (hs.outputs_nodup hx) halike.length_eq.2
  have hkeep : ∀ a, a ∉ x.outputs →
      (m.insertAll (x.outputs.zip y.outputs)).get? a = m.get? a :=
    fun a ha => AxisMap.get?_insertAll_zip ha
  generalize m.insertAll (x.outputs.zip y.outputs) = m' at hfaithful houtputs hkeep ⊢
  refine ⟨hb, fun a ha => ?_, htransforms ▸ hfaithful, ?_⟩
  · rcases List.mem_append.1 ha with ha | ha
    · exact hold.concrete a (List.mem_append_left _ ha)
    obtain ⟨t, ht, hout⟩ := mem_outputsOf.1 ha
    rcases List.mem_append.1 ht with ht | ht
    · exact hold.concrete a (List.mem_append_right _ (mem_outputsOf.2 ⟨t, ht, hout⟩))
    rw [List.mem_singleton.1 ht, hrec.transform_last] at hout
    refine hrec.concrete (fun b hin => ?_) a hout
    -- what is consumed is among the leaves before
    have hmem := hperm.mem_iff.1 (List.mem_append_right leaf' hin)
    rcases List.mem_append.1 hmem with hmem | hmem
    · exact h.concrete b (h.balanced.leaf_mem_axes hmem)
    · exact absurd (hrec.has b hin) (hrec.fresh b hmem)
  · rw [htransforms]
    intro z hz w hw hzw hin
    rcases List.mem_append.1 hw with hw | hw
    · -- an earlier transform of the target consumes none of the new axes
      have hearlier : ∀ a ∈ w.inputs, a ∉ y.outputs :=
        (List.pairwise_append.1 ht.ordered).2.2 w hw y List.mem_cons_self
      have hapart : ∀ a ∈ z.inputs, a ∉ x.outputs := by
        intro a ha hax
        obtain ⟨b, hb, hget⟩ := exists_image hin ha
        obtain ⟨b', hb', hget'⟩ := exists_image houtputs hax
        cases hget.symm.trans hget'
        exact hearlier b hb hb'
      have hbefore := hold.complete z hz w hw hzw
        ((map_get?_congr fun a ha => (hkeep a (hapart a ha)).symm).trans hin)
      have hzx : z ≠ x := by
        rintro rfl
        obtain ⟨o, ho, hnone⟩ := hnew
        obtain ⟨b, -, hget⟩ := exists_image hbefore ho
        rw [AxisMap.contains_iff.2 ⟨b, hget⟩] at hnone
        cases hnone
      exact (map_get?_congr fun a ha => hkeep a fun hax => hzx (hs.producedOnce hz hx ha hax)).trans
        hbefore
    · obtain rfl := List.mem_singleton.1 hw
      have hin' : x.inputs.map m'.get? = w.inputs.map some :=
        (map_get?_congr fun a ha => hkeep a (hs.apart x hx a ha)).trans hinputs
      obtain ⟨c, hc⟩ := List.exists_mem_of_ne_nil _ w.inputs_ne_nil
      obtain ⟨d, hd, hdc⟩ := exists_preimage hin hc
      obtain ⟨e, he, hec⟩ := exists_preimage hin' hc
      obtain rfl :=
        hfaithful.injective d e c (hs.consumed z hz d hd) (hs.consumed x hx e he) hdc hec
      obtain rfl := hs.consumedOnce z hz x hx d hd he
      exact houtputs

variable {g : ReplayGoal} {p p' : Progress}

/-- Replaying one transform of the source. -/
theorem replayed (hf : Sound f) (hs : Source f sroot xs sleaf) (hp : Seeds pairs sroot g.root)
    (hroot : ∀ a ∈ g.root, f.HasAxis a) (h : Follows f pairs sroot xs g.root ts p.leaf p.images)
    (hx : x ∈ xs) (hstep : Replayed True g f p x f' p') :
    ∃ ts', Follows f' pairs sroot xs g.root ts' p'.leaf p'.images := by
  cases hstep with
  | idle => exact ⟨ts, h⟩
  | passed ha hbroad =>
      rw [hs.concrete x hx _ ha] at hbroad
      cases hbroad
  | recorded hnew halike hinputs hexpose hrec _ hperm =>
      obtain ⟨ts₁, h₁⟩ := h.expose hf hs.toLineage hp (fun b hb => by
        obtain ⟨a, ha, hget⟩ := exists_preimage hinputs hb
        refine ⟨a, hs.consumed x hx a ha, hget, fun z hz hin => ?_⟩
        rw [hs.consumedOnce z hz x hx a hin ha]
        exact hnew) hexpose
      exact ⟨_, h₁.record hf hs hp hroot hrec hx hnew halike hinputs (hperm trivial)⟩

end Follows

variable {g : ReplayGoal} {p p' : Progress} {needed : List TransformId}

/-- What has been handled stays handled, if its inputs keep their images and no image is lost. -/
theorem Handled.keep (h : Handled m x) (hin : ∀ a ∈ x.inputs, m'.get? a = m.get? a)
    (hcontains : ∀ a ∈ x.outputs, m.contains a = true → m'.contains a = true) : Handled m' x := by
  rcases h with hout | ⟨a, ha, hnone⟩
  · exact .inl fun a ha => hcontains a ha (hout a ha)
  · exact .inr ⟨a, ha, (hin a ha).trans hnone⟩

/-- Replaying a transform without broadcasts handles it and gives images to its outputs at most. -/
theorem Replayed.images {steady : Prop} (hx : ∀ a ∈ x.inputs, (f.axis a).isBroadcast = false)
    (h : Replayed steady g f p x f' p') :
    Handled p'.images x ∧ (∀ a ∉ x.outputs, p'.images.get? a = p.images.get? a) ∧
      ∀ a, p.images.contains a = true → p'.images.contains a = true := by
  cases h with
  | idle hidle => exact ⟨hidle, fun _ _ => rfl, fun _ => id⟩
  | passed ha hbroad =>
      rw [hx _ ha] at hbroad
      cases hbroad
  | recorded _ halike =>
      refine ⟨.inl fun a ha => ?_, fun a ha => AxisMap.get?_insertAll_zip ha, fun a ha => ?_⟩
      · refine AxisMap.contains_insertAll (.inl ?_)
        rwa [List.map_fst_zip (Nat.le_of_eq halike.length_eq.2)]
      · exact AxisMap.contains_insertAll (.inr ha)

/-- Replaying transforms of the source one after another: the leaves still follow it, and all
transforms have been handled. -/
theorem replayTransforms_follows (hf : Sound f) (hs : Source f sroot xs sleaf)
    (hp : Seeds pairs sroot g.root) (hroot : ∀ a ∈ g.root, f.HasAxis a)
    (hneeded : ∀ t ∈ needed, f.HasTransform t ∧ f.transform t ∈ xs)
    (hordered : (needed.map f.transform).Pairwise fun z x => ∀ a ∈ z.inputs, a ∉ x.outputs)
    (hleaf : ∀ a ∈ p.leaf, f.HasAxis a) (himages : f.Images p.images)
    (h : Follows f pairs sroot xs g.root ts p.leaf p.images)
    (hsteady : isSteadyRun g needed p f = true)
    (hrun : (replayTransforms g needed p).Returns f p' f') :
    (∃ ts', Follows f' pairs sroot xs g.root ts' p'.leaf p'.images) ∧
      (∀ x ∈ needed.map f.transform, Handled p'.images x) ∧
      (∀ a, (∀ x ∈ needed.map f.transform, a ∉ x.outputs) →
        p'.images.get? a = p.images.get? a) ∧
      ∀ a, p.images.contains a = true → p'.images.contains a = true := by
  induction needed generalizing f p ts with
  | nil =>
      obtain ⟨rfl, rfl⟩ := EditE.returns_pure.1 hrun
      exact ⟨⟨ts, h⟩, by simp, fun _ _ => rfl, fun _ => id⟩
  | cons t needed ih =>
      obtain ⟨p₁, f₁, hstep, hsteady₁, hrest, hsteady₂⟩ :=
        returns_replayTransforms_cons (fun _ : True => hsteady) hrun
      obtain ⟨ht, hx⟩ := hneeded t List.mem_cons_self
      have hreplayed := replayTransform_replayed hf ht hleaf himages hsteady₁ hstep
      have hone := hreplayed.replays hf hroot hleaf himages
      obtain ⟨ts₁, h₁⟩ := h.replayed hf hs hp hroot hx hreplayed
      obtain ⟨hhandled, hkeep, hcontains⟩ := hreplayed.images (hs.concrete _ hx)
      have hlater : ∀ s ∈ needed, f.HasTransform s ∧ f.transform s ∈ xs :=
        fun s hmem => hneeded s (List.mem_cons_of_mem t hmem)
      have hsame : needed.map f₁.transform = needed.map f.transform :=
        List.map_congr_left fun s hmem => hone.ext.transform s (hlater s hmem).1
      obtain ⟨hafter, hordered⟩ := List.pairwise_cons.1 hordered
      have hih := ih hone.sound (hs.extended hf hone.ext hone.axis)
        (fun a ha => hone.ext.hasAxis (hroot a ha))
        (fun s hmem => by
          obtain ⟨hhas, hin⟩ := hlater s hmem
          exact ⟨hone.ext.hasTransform hhas, (hone.ext.transform s hhas).symm ▸ hin⟩)
        (hsame ▸ hordered) hone.leaf hone.images h₁ (hsteady₂ trivial) hrest
      rw [hsame] at hih
      obtain ⟨hfollows, hhandled', hkeep', hcontains'⟩ := hih
      refine ⟨hfollows, fun x hmem => ?_, fun a ha => ?_, fun a ha => hcontains' a (hcontains a ha)⟩
      · rcases List.mem_cons.1 hmem with rfl | hmem
        · exact hhandled.keep (fun a ha => hkeep' a fun z hz => hafter z hz a ha)
            fun a _ => hcontains' a
        · exact hhandled' x hmem
      · rw [hkeep' a fun x hmem => ha x (List.mem_cons_of_mem _ hmem)]
        exact hkeep a (ha _ List.mem_cons_self)

/-- Matching two histories without broadcasts: the leaves of the target follow the source. -/
theorem bestEffortMap_follows {source target : ValueId} (hf : Sound f)
    (hs : Source f sroot ((f.history source).map f.transform) sleaf)
    (hp : Seeds pairs sroot root) (hb : f.Balanced root (f.history target) leaf)
    (hconcrete : ∀ a ∈ root ++ f.outputsOf (f.history target), (f.axis a).isBroadcast = false) :
    Follows f pairs sroot ((f.history source).map f.transform) root (f.history target) leaf
      (f.bestEffortMap source target pairs) := by
  have hsource : ∀ t ∈ f.history source, ∀ a ∈ (f.transform t).inputs,
      (f.axis a).isBroadcast = false := fun t ht => hs.concrete _ (List.mem_map_of_mem ht)
  have htarget : ∀ t ∈ f.history target, ∀ a ∈ (f.transform t).inputs,
      (f.axis a).isBroadcast = false :=
    fun t ht a ha => hconcrete a (hb.mem_axes ht (List.mem_append_left _ ha))
  refine ⟨hb, hconcrete, bestEffortMap_faithful hf hs.toLineage hb hp hsource htarget,
    fun x hx y hy halike hinputs => ?_⟩
  obtain ⟨t, ht, rfl⟩ := List.mem_map.1 hx
  obtain ⟨s, hst, rfl⟩ := List.mem_map.1 hy
  exact bestEffortMap_matched hs.toLineage hb hsource htarget ht hst halike hinputs

end Following

/-! ## Settled replays -/

section Settled

variable {f₁ : Fusion} {source target : ValueId} {pairs : List (AxisId × AxisId)}
  {leaf : List AxisId} {needed : List TransformId} {g : ReplayGoal} {p p' : Progress}
  {pos n : Nat} {mode : ReplayMode} {unmappable : AxisId → ScheduleError}

/-- The images of the first leaves of a source, each of them once. -/
def leadingImages (f : Fusion) (source : ValueId) (pos : Nat) (m : AxisMap) : List AxisId :=
  (((f.leaf source).take pos).filterMap m.get?).foldl addNew []

/-- With these images a replay has nothing to do: no transform is left to replay, and the images of
the leading leaves are in front. -/
structure Settled (f : Fusion) (source target : ValueId) (pos : Nat) (mode : ReplayMode) (n : Nat)
    (m : AxisMap) : Prop where
  handled : ∀ t ∈ neededTransforms f source target pos, Handled m (f.transform t)
  front : f.leaf target = leadingImages f source pos m ++
    (f.leaf target).filter fun a => !(leadingImages f source pos m).contains a
  length : (leadingImages f source pos m).length = n
  left : ∀ a ∈ (f.leaf source).take pos, m.get? a = none →
    ((f.axis a).isBroadcast || mode == .propagate) = true

/-- Leaves that are in front stay there. -/
theorem filter_not_leading (leading leaf : List AxisId) :
    (leading ++ leaf.filter fun a => !leading.contains a).filter (fun a => !leading.contains a) =
      leaf.filter fun a => !leading.contains a := by
  have hnone : leading.filter (fun a => !leading.contains a) = [] :=
    List.filter_eq_nil_iff.2 (by simp)
  rw [List.filter_append, hnone, List.nil_append, List.filter_filter]
  simp only [Bool.and_self]

/-- If all transforms are handled already, a replay does nothing. -/
theorem replayTransforms_of_handled (hconcrete : ∀ t ∈ needed, ∀ a ∈ (f.transform t).inputs,
      (f.axis a).isBroadcast = false) (h : ∀ t ∈ needed, Handled p.images (f.transform t)) :
    (replayTransforms g needed p).Returns f p f := by
  induction needed with
  | nil => exact EditE.returns_pure.2 ⟨rfl, rfl⟩
  | cons t needed ih =>
      have hone := replayTransform_of_handled (g := g) (hconcrete t List.mem_cons_self)
        (h t List.mem_cons_self)
      have hrest := ih (fun s hs => hconcrete s (List.mem_cons_of_mem t hs))
        fun s hs => h s (List.mem_cons_of_mem t hs)
      exact EditE.returns_bind.2 ⟨p, f, hone, hrest⟩

/-- Leaves need not be brought back among the leaves. -/
theorem exposeAll_of_mem {bs : List AxisId} (h : ∀ b ∈ bs, b ∈ leaf) :
    exposeAll f g bs leaf = some leaf := by
  induction bs with
  | nil => rfl
  | cons b bs ih =>
      have hone : exposeWith f g.root g.fixed b (f.transforms.size + 1) leaf = some leaf := by
        unfold exposeWith
        exact if_pos (by simpa using h b List.mem_cons_self)
      exact exposeAll_cons.2 ⟨leaf, hone, ih fun c hc => h c (List.mem_cons_of_mem b hc)⟩

/-- A replay that has nothing to do leaves the leaves alone. -/
theorem replay_of_settled (htarget : f.isTensor target = true)
    (hconcrete : ∀ t ∈ neededTransforms f source target pos, ∀ a ∈ (f.transform t).inputs,
      (f.axis a).isBroadcast = false)
    (h : Settled f source target pos mode n (f.bestEffortMap source target pairs)) :
    ∃ f', (replay source target pairs pos mode unmappable).Returns f n f' ∧
      f'.leaf target = f.leaf target := by
  have hmem : ∀ b ∈ ((f.leaf source).take pos).filterMap
      (f.bestEffortMap source target pairs).get?, b ∈ f.leaf target := by
    intro b hb
    rw [h.front]
    exact List.mem_append_left _ (mem_foldl_addNew.2 (.inr hb))
  refine ⟨_, returns_replay.2 ⟨.start f source target pairs, f, f.leaf target, _, f, f.leaf target,
    replayTransforms_of_handled hconcrete h.handled,
    returns_collectLeading.2 ⟨exposeAll_of_mem hmem, rfl, h.left, rfl⟩, h.front, by simp, h.length,
    rfl⟩, ?_⟩
  rw [Fusion.leaf, view_modify_sync, if_pos (.inl rfl), if_pos htarget]
  rfl

/-- What is settled for images is settled for images that agree. -/
theorem Settled.congr {root : List AxisId} (h : Settled f source target pos mode n m)
    (hs : Lineage root ((f.history source).map f.transform) (f.leaf source))
    (hneeded : ∀ t ∈ neededTransforms f source target pos, t ∈ f.history source)
    (hagree : ∀ a, Met root ((f.history source).map f.transform) a → m'.get? a = m.get? a) :
    Settled f source target pos mode n m' := by
  have hleaf : ∀ a ∈ (f.leaf source).take pos, m'.get? a = m.get? a := fun a ha =>
    hagree a (hs.leaves a (List.mem_of_mem_take ha)).1
  have hleading : leadingImages f source pos m' = leadingImages f source pos m := by
    unfold leadingImages
    rw [List.filterMap_congr hleaf]
  refine ⟨fun t ht => ?_, hleading ▸ h.front, hleading ▸ h.length, fun a ha hnone => ?_⟩
  · have hmem := List.mem_map_of_mem (f := f.transform) (hneeded t ht)
    have hinputs : ∀ a ∈ (f.transform t).inputs, m'.get? a = m.get? a :=
      fun a ha => hagree a (hs.consumed _ hmem a ha)
    refine (h.handled t ht).keep hinputs fun a ha hcontains => ?_
    obtain ⟨b, hb⟩ := AxisMap.contains_iff.1 hcontains
    exact AxisMap.contains_iff.2 ⟨b, (hagree a (.inr ⟨_, hmem, ha⟩)).trans hb⟩
  · exact h.left a ha ((hleaf a ha).symm.trans hnone)

end Settled

/-! ## Replaying twice -/

section Twice

variable {f₁ : Fusion} {source target producer consumer v : ValueId}
  {pairs : List (AxisId × AxisId)} {leaf : List AxisId} {pos n : Nat} {mode : ReplayMode}
  {unmappable : AxisId → ScheduleError} {roots : Option RootMap}

/-- The leaves of a tensor are balanced along its history, and none of its axes is a broadcast. -/
structure Concrete (f : Fusion) (v : ValueId) : Prop where
  balanced : f.Balanced (f.view v).domain.root (f.history v) (f.leaf v)
  axes : ∀ a ∈ f.axesOf v, (f.axis a).isBroadcast = false

instance (f : Fusion) (v : ValueId) : Decidable (Concrete f v) :=
  decidable_of_iff (f.Balanced (f.view v).domain.root (f.history v) (f.leaf v) ∧
    ∀ a ∈ f.axesOf v, (f.axis a).isBroadcast = false) ⟨fun h => ⟨h.1, h.2⟩, fun h => ⟨h.1, h.2⟩⟩

/-- A tensor without broadcasts can be the source of a replay. -/
theorem Concrete.toSource (h : Concrete f v) (hf : Sound f) :
    Source f (f.view v).domain.root ((f.history v).map f.transform) (f.leaf v) := by
  refine ⟨lineage_of_balanced hf h.balanced, fun x hx => ?_, fun x hx a ha => ?_⟩
  · obtain ⟨t, ht, rfl⟩ := List.mem_map.1 hx
    exact hf.recorded t (h.balanced.has t ht)
  · obtain ⟨t, ht, rfl⟩ := List.mem_map.1 hx
    exact h.axes a (h.balanced.mem_axes ht (List.mem_append_left _ ha))

/-- The leaves of a tensor are set, and of all there was only these leaves and the views of the
tensor's siblings change. -/
structure SetsLeaves (f f' : Fusion) (target : ValueId) (leaf : List AxisId) : Prop where
  sound : Sound f'
  ext : Extends f f'
  axis : ∀ a, f.HasAxis a → f'.axis a = f.axis a
  isTensor : ∀ v, f'.isTensor v = f.isTensor v
  definingExpr : ∀ v, f.HasValue v → f'.definingExpr? v = f.definingExpr? v
  view : f'.view target = (f.view target).withLeaf leaf
  others : ∀ v, v ≠ target → v ∉ f.siblings target → f'.view v = f.view v

/-- A replay that returns sets the leaves of its target. -/
theorem Replays.setsLeaves {steady : Prop} {root : List AxisId} {p p' : Progress}
    (h : Replays steady root f p f₁ p') (htarget : f.isTensor target = true)
    (hleaf : ∀ a ∈ leaf, f₁.HasAxis a) :
    SetsLeaves f ((f₁.modifyView target (·.withLeaf leaf)).syncSiblings target) target leaf := by
  have hgraph := sameGraph_modify_sync f₁ target (·.withLeaf leaf)
  have hlisted : ∀ a ∈ ((f₁.view target).withLeaf leaf).domain.listed, f₁.HasAxis a := by
    intro a ha
    rcases List.mem_append.1 ha with ha | ha
    · exact h.sound.domains target a (List.mem_append_left _ ha)
    · exact hleaf a ha
  obtain ⟨hsound, hext⟩ := h.sound.modify_sync (g := (·.withLeaf leaf)) hlisted
  refine ⟨hsound, h.ext.trans hext, fun a ha => ?_, fun v => ?_, fun v hv => ?_, ?_,
    fun v hne hv => ?_⟩
  · rw [← h.axis a ha, Fusion.axis, hgraph.axes, Fusion.axis]
  · exact (hgraph.isTensor v).trans (h.isTensor v)
  · exact (hgraph.definingExpr? v).trans (h.definingExpr v hv)
  · rw [view_modify_sync, if_pos (.inl rfl), if_pos ((h.isTensor target).trans htarget), h.view]
  · rw [view_modify_sync, siblings_of_definingExpr h.isTensor h.definingExpr
      (hasValue_of_isTensor htarget), if_neg (not_or.2 ⟨hne, hv⟩), h.view]

/-- The transforms that a replay needs are those between the root of the source and its leading
leaves. -/
theorem neededTransforms_eq
    (h : source ∈ f.producers target → (f.view source).domain.rfactor = none) :
    neededTransforms f source target pos =
      f.transformsBetween (f.view source).domain.root ((f.leaf source).take pos) := by
  unfold neededTransforms
  dsimp only
  split
  case isTrue hmem =>
      rw [TensorDomain.logical, h (by simpa using hmem)]
      rfl
  case isFalse => rfl

/-- The transforms behind some of the leaves are part of the history. -/
theorem Concrete.neededTransforms_sublist (hc : Concrete f source) (hf : Sound f)
    (h : source ∈ f.producers target → (f.view source).domain.rfactor = none) :
    (neededTransforms f source target pos).Sublist (f.history source) := by
  rw [neededTransforms_eq h]
  exact (hc.balanced.transformsBetween_part hf fun _ => List.mem_of_mem_take).1

namespace SetsLeaves

variable (h : SetsLeaves f f' target leaf)

include h

/-- The domains of the tensor and of those that are no siblings stay as they are, up to leaves. -/
theorem domain (hv : v ∉ f.siblings target) :
    (f'.view v).domain.root = (f.view v).domain.root ∧
      (f'.view v).domain.rfactor = (f.view v).domain.rfactor := by
  by_cases heq : v = target
  · rw [heq, h.view]
    exact ⟨rfl, rfl⟩
  · rw [h.others v heq hv]
    exact ⟨rfl, rfl⟩

/-- Other leaves change no producers. -/
theorem producers (hv : f.HasValue v) : f'.producers v = f.producers v := by
  unfold Fusion.producers
  rw [h.definingExpr v hv, funext h.isTensor]

/-- Other leaves of the target change no history of the source. -/
theorem history (hc : Concrete f source) (hapart : source ≠ target)
    (hsiblings : source ∉ f.siblings target) : f'.history source = f.history source := by
  have hb := hc.balanced.mono h.ext
  rw [Fusion.history, h.others source hapart hsiblings]
  exact hb.transformsBetween_eq h.sound

/-- A second replay needs the same transforms as the first. -/
theorem neededTransforms (hf : Sound f) (hc : Concrete f source)
    (htarget : f.isTensor target = true)
    (hrfactor : source ∈ f.producers target → (f.view source).domain.rfactor = none)
    (hapart : source ≠ target) (hsiblings : source ∉ f.siblings target) :
    neededTransforms f' source target pos = neededTransforms f source target pos := by
  have hview := h.others source hapart hsiblings
  have hrfactor' : source ∈ f'.producers target → (f'.view source).domain.rfactor = none := by
    rw [h.producers (hasValue_of_isTensor htarget), hview]
    exact hrfactor
  rw [neededTransforms_eq hrfactor, neededTransforms_eq hrfactor', Fusion.leaf, hview]
  exact hc.balanced.transformsBetween_mono hf h.sound h.ext fun _ => List.mem_of_mem_take

end SetsLeaves

/-- After a steady replay without broadcasts the leaves of the target follow the source, and there
is nothing left to replay. -/
theorem replay_settles (hf : Sound f) (hsource : Concrete f source) (hconcrete : Concrete f target)
    (htarget : f.isTensor target = true)
    (hrfactor : source ∈ f.producers target → (f.view source).domain.rfactor = none)
    (hp : Seeds pairs (f.view source).domain.root (f.view target).domain.root)
    (hapart : source ≠ target) (hsiblings : source ∉ f.siblings target)
    (hsteady : isSteady f source target pairs pos mode unmappable = true)
    (h : (replay source target pairs pos mode unmappable).Returns f n f') :
    ∃ leaf ts m, SetsLeaves f f' target leaf ∧
      Follows f' pairs (f.view source).domain.root ((f.history source).map f.transform)
        (f.view target).domain.root ts leaf m ∧
      Settled f' source target pos mode n m := by
  obtain ⟨p, f₁, leaf, leading, f₂, newLeaf, hrun, hcollect, hnew, -, hn, rfl⟩ := returns_replay.1 h
  obtain ⟨hsteadyRun, hmem⟩ := isSteady_parts hsteady hrun hcollect
  have hroot : ∀ a ∈ (f.view target).domain.root, f.HasAxis a := fun a ha =>
    hf.domains target a (List.mem_append_left _ (List.mem_append_left _ ha))
  have hpairs : ∀ q ∈ pairs, f.HasAxis q.2 := fun q hq => hroot _ (hp.targets q hq)
  have hruns : Replays True (f.view target).domain.root f (.start f source target pairs) f₁ p :=
    replayTransforms_start hf hpairs (fun _ => hsteadyRun) hrun
  obtain ⟨hexpose, hleading, hleft, rfl⟩ := returns_collectLeading.1 hcollect
  dsimp only at hexpose hleading
  -- the transforms
  have hs := hsource.toSource hf
  have hsub : (neededTransforms f source target pos).Sublist (f.history source) :=
    hsource.neededTransforms_sublist hf hrfactor
  obtain ⟨⟨ts₁, h₁⟩, hhandled, -⟩ := replayTransforms_follows hf hs hp hroot
    (fun t ht => ⟨hsource.balanced.has t (hsub.subset ht), List.mem_map_of_mem (hsub.subset ht)⟩)
    (hs.ordered.sublist (hsub.map _))
    (fun a ha => hf.domains target a (List.mem_append_right _ ha)) (Images.bestEffortMap hf hpairs)
    (bestEffortMap_follows hf hs hp hconcrete.balanced hconcrete.axes) hsteadyRun hrun
  -- the leading leaves
  have hs₁ := hs.extended hf hruns.ext hruns.axis
  obtain ⟨ts₂, h₂⟩ :=
    h₁.exposeLeaves hruns.sound hs₁.toLineage hp (fun _ => List.mem_of_mem_take) hexpose
  have hnodup : leading.Nodup := hleading ▸ nodup_foldl_addNew List.nodup_nil
  have h₃ := h₂.reorder (hnew ▸ leading_perm hnodup h₂.balanced.leaf_nodup hmem)
  have hleaf : ∀ a ∈ newLeaf, f₁.HasAxis a := fun a ha =>
    h₃.balanced.hasAxis hruns.sound (fun b hb => hruns.ext.hasAxis (hroot b hb))
      (h₃.balanced.leaf_mem_axes ha)
  have hset := hruns.setsLeaves htarget hleaf
  have hrefl : Replays True [] f₁ p f₁ p := .refl hruns.sound hruns.leaf hruns.images
  have hset₁ := hrefl.setsLeaves ((hruns.isTensor target).trans htarget) hleaf
  have h₄ := h₃.extended hruns.sound hs₁ (fun b hb => hruns.ext.hasAxis (hroot b hb)) hset₁.ext
    hset₁.axis
  have hview := hset.others source hapart hsiblings
  generalize (f₁.modifyView target (·.withLeaf newLeaf)).syncSiblings target = f' at hset h₄ hview ⊢
  have hsourceLeaf : f'.leaf source = f.leaf source := congrArg TensorView.leaf hview
  have htargetLeaf : f'.leaf target = newLeaf := by
    rw [Fusion.leaf, hset.view]
    rfl
  have himages : leadingImages f' source pos p.images = leading := by
    rw [leadingImages, hsourceLeaf, hleading]
  have hneeded : neededTransforms f' source target pos = neededTransforms f source target pos :=
    hset.neededTransforms hf hsource htarget hrfactor hapart hsiblings
  refine ⟨newLeaf, ts₂, p.images, hset, h₄, fun t ht => ?_, ?_, himages ▸ hn, fun a ha hnone => ?_⟩
  · rw [hneeded] at ht
    rw [hset.ext.transform t (hsource.balanced.has t (hsub.subset ht))]
    exact hhandled _ (List.mem_map_of_mem ht)
  · rw [htargetLeaf, himages, hnew, filter_not_leading]
  · rw [hsourceLeaf] at ha
    have hhas : f.HasAxis a :=
      hf.domains source a (List.mem_append_right _ (List.mem_of_mem_take ha))
    rw [hset.axis a hhas, ← hruns.axis a hhas]
    exact hleft a ha hnone

/-- Where no axis is a broadcast, a steady replay can be repeated: it gives the same number, and the
leaves of the target stay as they are. -/
theorem replay_repeats (hf : Sound f) (hsource : Concrete f source) (hconcrete : Concrete f target)
    (htarget : f.isTensor target = true)
    (hrfactor : source ∈ f.producers target → (f.view source).domain.rfactor = none)
    (hp : Seeds pairs (f.view source).domain.root (f.view target).domain.root)
    (hapart : source ≠ target) (hsiblings : source ∉ f.siblings target)
    (h : (replaySteadily source target pairs pos mode unmappable).Returns f n f') :
    (∃ leaf, SetsLeaves f f' target leaf) ∧
      ∃ f'', (replay source target pairs pos mode unmappable).Returns f' n f'' ∧
        f''.leaf target = f'.leaf target := by
  obtain ⟨hsteady, h⟩ := returns_replaySteadily.1 h
  obtain ⟨leaf, ts, m, hset, hfollows, hsettled⟩ := replay_settles hf hsource hconcrete htarget
    hrfactor hp hapart hsiblings hsteady h
  refine ⟨⟨leaf, hset⟩, ?_⟩
  have hview := hset.others source hapart hsiblings
  have hleaf : f'.leaf source = f.leaf source := congrArg TensorView.leaf hview
  have hs := (hsource.toSource hf).extended hf hset.ext hset.axis
  -- the histories of both tensors in the fusion after the replay
  have hhistory := hset.history hsource hapart hsiblings
  have htransforms : (f'.history source).map f'.transform = (f.history source).map f.transform := by
    rw [hhistory]
    exact List.map_congr_left fun t ht => hset.ext.transform t (hsource.balanced.has t ht)
  have htargetHistory : f'.history target = ts := by
    rw [Fusion.history, hset.view]
    exact hfollows.balanced.transformsBetween_eq hset.sound
  rw [← htransforms] at hs hfollows
  rw [← htargetHistory] at hfollows
  rw [← hleaf] at hs
  have hagain := bestEffortMap_follows hset.sound hs hp hfollows.balanced hfollows.concrete
  have hneeded : ∀ t ∈ neededTransforms f' source target pos, t ∈ f'.history source := by
    rw [hset.neededTransforms hf hsource htarget hrfactor hapart hsiblings, hhistory]
    exact (hsource.neededTransforms_sublist hf hrfactor).subset
  refine replay_of_settled ((hset.isTensor target).trans htarget) (fun t ht => ?_)
    (hsettled.congr hs.toLineage hneeded fun a hmet => ?_)
  · exact hs.concrete _ (List.mem_map_of_mem (hneeded t ht))
  · exact hfollows.faithful.get?_eq hs.toLineage hfollows.complete hagain.faithful hagain.complete
      hmet

/-! ### Producers and consumers -/

/-- In a zipped list without repetitions, the partner tells the element. -/
theorem eq_of_mem_zip {α β : Type} {l : List α} {l' : List β} {p q : α × β} (hl' : l'.Nodup)
    (hp : p ∈ l.zip l') (hq : q ∈ l.zip l') (h : p.2 = q.2) : p = q := by
  have hsnd : (l.zip l').map (·.2) = (l'.zip l).map (·.1) := by
    rw [← List.zip_swap, List.map_map]
    rfl
  have hnodup : ((l.zip l').map (·.2)).Nodup := hsnd ▸ (map_fst_zip_sublist l' l).nodup hl'
  exact List.inj_on_of_nodup_map hnodup hp hq h

/-- Corresponding axes seed a replay in both directions. -/
theorem seeds_seedPairs (roots : Option RootMap)
    (hrfactor : (f.view producer).domain.rfactor = none)
    (hproducer : (f.view producer).domain.root.Nodup)
    (hconsumer : (f.view consumer).domain.root.Nodup) :
    Seeds (seedPairs f roots producer consumer) (f.view producer).domain.root
        (f.view consumer).domain.root ∧
      Seeds ((seedPairs f roots producer consumer).map fun (p, c) => (c, p))
        (f.view consumer).domain.root (f.view producer).domain.root := by
  obtain ⟨axes, hsub, heq⟩ := f.rootPairs_eq_zip producer consumer
  have hshape : (f.shape producer).Sublist (f.view producer).domain.root := by
    unfold shape
    rw [TensorDomain.logical, hrfactor]
    exact List.filter_sublist
  have hmem : ∀ q ∈ seedPairs f roots producer consumer, q ∈ (f.shape producer).zip axes :=
    fun q hq => heq ▸ mem_rootPairs_of_mem_seedPairs hq
  have hfirst : ∀ q ∈ seedPairs f roots producer consumer, q.1 ∈ (f.view producer).domain.root :=
    fun q hq => hshape.subset (List.of_mem_zip (hmem q hq)).1
  have hsecond : ∀ q ∈ seedPairs f roots producer consumer, q.2 ∈ (f.view consumer).domain.root :=
    fun q hq => hsub.subset (List.of_mem_zip (hmem q hq)).2
  refine ⟨⟨hfirst, hsecond, fun p hp q hq h => ?_⟩, fun p hp => ?_, fun p hp => ?_,
    fun p hp q hq h => ?_⟩
  · rw [eq_of_mem_zip (hsub.nodup hconsumer) (hmem p hp) (hmem q hq) h]
  · obtain ⟨q, hq, rfl⟩ := List.mem_map.1 hp
    exact hsecond q hq
  · obtain ⟨q, hq, rfl⟩ := List.mem_map.1 hp
    exact hfirst q hq
  · obtain ⟨r, hr, rfl⟩ := List.mem_map.1 hp
    obtain ⟨s, hs, rfl⟩ := List.mem_map.1 hq
    have hnodup := ((map_fst_zip_sublist (f.shape producer) axes).trans hshape).nodup hproducer
    rw [List.inj_on_of_nodup_map hnodup (hmem r hr) (hmem s hs) h]

/-- Other leaves change no pairs of root axes. -/
theorem SetsLeaves.seedPairs (h : SetsLeaves f f' target leaf) (hf : Sound f)
    (hproducer : producer ∉ f.siblings target) (hconsumer : consumer ∉ f.siblings target)
    (hvalue : f.HasValue consumer) :
    seedPairs f' roots producer consumer = seedPairs f roots producer consumer := by
  have hshape : f'.shape producer = f.shape producer := by
    unfold shape TensorDomain.logical
    rw [(h.domain hproducer).1, (h.domain hproducer).2]
    refine List.filter_congr fun a ha => ?_
    rw [h.axis a (hf.domains producer a (List.mem_append_left _ (List.mem_append_right _ ha)))]
  have hpairs : f'.rootPairs producer consumer = f.rootPairs producer consumer := by
    unfold rootPairs
    rw [h.definingExpr consumer hvalue, hshape, (h.domain hconsumer).1]
  cases roots with
  | none => exact hpairs
  | some r => exact congrArg (List.filter _) hpairs

/-- A producer and its consumer are different tensors, neither is a sibling of the other, and the
consumer does not compute the producer. -/
theorem apart_of_mem_producers (hf : Sound f) (hw : Wired f) (h : producer ∈ f.producers consumer) :
    producer ≠ consumer ∧ producer ∉ f.siblings consumer ∧ consumer ∉ f.siblings producer ∧
      consumer ∉ f.producers producer ∧ f.isTensor consumer = true := by
  obtain ⟨rank, hrank⟩ := hw.ranked
  have hlt := hrank.lt_of_mem_producers hf h
  obtain ⟨x, hx, hin, htensor⟩ := mem_producers.1 h
  -- the expression that computes the consumer does not compute what it reads
  have hnot : producer ∉ x.outputs ∧ f.isTensor consumer = true := by
    obtain ⟨e, hdef, rfl⟩ := Option.map_eq_some_iff.1 hx
    obtain ⟨y, hy, hmem⟩ := hf.defined consumer e hdef
    rw [expr, hy] at hin ⊢
    refine ⟨fun hout => ?_, (hf.exprs e y hy).isTensor_outputs (.inl hin) htensor consumer hmem⟩
    exact Nat.lt_irrefl _ (hrank e y hy producer hin producer hout)
  refine ⟨?_, fun hsibling => ?_, fun hsibling => ?_, fun hmem => ?_, hnot.2⟩
  · rintro rfl
    exact Nat.lt_irrefl _ hlt
  · obtain ⟨y, hy, hout, -⟩ := mem_siblings.1 hsibling
    cases hx.symm.trans hy
    exact hnot.1 hout
  · obtain ⟨y, hy, hout, -⟩ := mem_siblings.1 hsibling
    obtain ⟨e, hdef, rfl⟩ := Option.map_eq_some_iff.1 hy
    obtain ⟨z, hz, hmem⟩ := hf.defined producer e hdef
    rw [expr, hz] at hout
    have hdefines := hw.defines e z hz consumer hout
    rw [definingExpr?, hdefines, Option.map_some, expr, hz] at hx
    cases hx
    exact hnot.1 hmem
  · exact Nat.lt_irrefl _ (Nat.lt_trans hlt (hrank.lt_of_mem_producers hf hmem))

/-- Replays between an unfactored producer and its consumer, neither of which has a broadcast, can
be repeated in both directions: the second one succeeds, gives the same position, and leaves the
leaves of its target as they are. -/
theorem replays_repeat {calls : List Call} (h : applyAll replay calls {} = some f)
    (hproducer : Concrete f producer) (hconsumer : Concrete f consumer)
    (hrfactor : (f.view producer).domain.rfactor = none) :
    (∀ f', (replayOntoProducer replaySteadily roots producer consumer pos mode).Returns f n f' →
      ∃ f'', (replayProducerAsConsumer roots producer consumer pos mode).Returns f' n f'' ∧
        f''.leaf producer = f'.leaf producer) ∧
    ∀ f', (replayOntoConsumer replaySteadily roots consumer producer pos mode).Returns f n f' →
      ∃ f'', (replayConsumerAsProducer roots consumer producer pos mode).Returns f' n f'' ∧
        f''.leaf consumer = f'.leaf consumer := by
  have hf := applyAll_sound h
  have hw := applyAll_wired h
  have hself : ∀ v, v ∉ f.siblings v := fun v hv => by
    obtain ⟨x, -, -, hne, -⟩ := mem_siblings.1 hv
    exact hne rfl
  obtain ⟨hforward, hbackward⟩ := seeds_seedPairs roots hrfactor
    (List.nodup_append.1 hproducer.balanced.nodup).1
    (List.nodup_append.1 hconsumer.balanced.nodup).1
  constructor
  · intro f' hreplay
    obtain ⟨hmem, hreplay⟩ := returns_replayOntoProducer.1 hreplay
    obtain ⟨hne, -, hsibling, hnot, htensor⟩ := apart_of_mem_producers hf hw hmem
    have htarget : f.isTensor producer = true := by
      obtain ⟨x, -, -, htarget⟩ := mem_producers.1 hmem
      exact htarget
    obtain ⟨⟨leaf, hset⟩, f'', hagain, hleaf⟩ := replay_repeats hf hconsumer hproducer htarget
      (fun hin => absurd hin hnot) hbackward (Ne.symm hne) hsibling hreplay
    have hvalue := hasValue_of_isTensor htensor
    refine ⟨f'', returns_replayOntoProducer.2 ⟨?_, ?_⟩, hleaf⟩
    · rwa [hset.producers hvalue]
    · rw [hset.seedPairs hf (hself producer) hsibling hvalue]
      exact hagain
  · intro f' hreplay
    obtain ⟨hunreduced, hmem, hreplay⟩ := returns_replayOntoConsumer.1 hreplay
    obtain ⟨hne, hsibling, -, -, htensor⟩ := apart_of_mem_producers hf hw hmem
    obtain ⟨⟨leaf, hset⟩, f'', hagain, hleaf⟩ := replay_repeats hf hproducer hconsumer htensor
      (fun _ => hrfactor) hforward hne hsibling hreplay
    have hvalue := hasValue_of_isTensor htensor
    have hview := hset.others producer hne hsibling
    refine ⟨f'', returns_replayOntoConsumer.2 ⟨fun hmode a ha => ?_, ?_, ?_⟩, hleaf⟩
    · rw [Fusion.leaf, hview] at ha
      rw [hset.axis a (hf.domains producer a (List.mem_append_right _ (List.mem_of_mem_take ha)))]
      exact hunreduced hmode a ha
    · rwa [hset.producers hvalue]
    · rw [hset.seedPairs hf hsibling (hself consumer) hvalue]
      exact hagain

/-- Two copies of a matrix, the rows of the first split and the second flattened and split. -/
def splitAndFlattened : List Call :=
  [.tensor [6, 4] [true, true] .float, .input ⟨0⟩, .unary .neg (.value ⟨0⟩),
    .unary .neg (.value ⟨7⟩), .output ⟨10⟩, .split ⟨7⟩ 0 (.const 2) true, .merge ⟨10⟩ 0 1,
    .split ⟨10⟩ 0 (.const 5) true]

/-- Split and flattened tensors are replayed in both directions, and a second replay changes
nothing. -/
theorem splitAndFlattened_repeated :
    ∃ f f' f'' g' g'', applyAll replay splitAndFlattened {} = some f ∧
      (replayOntoProducer replaySteadily none ⟨7⟩ ⟨10⟩ 1 .propagate).Returns f 1 f' ∧
      f'.leaf ⟨7⟩ ≠ f.leaf ⟨7⟩ ∧
      (replayProducerAsConsumer none ⟨7⟩ ⟨10⟩ 1 .propagate).Returns f' 1 f'' ∧
      f''.leaf ⟨7⟩ = f'.leaf ⟨7⟩ ∧
      (replayOntoConsumer replaySteadily none ⟨10⟩ ⟨7⟩ 1 .propagate).Returns f 1 g' ∧
      g'.leaf ⟨10⟩ ≠ f.leaf ⟨10⟩ ∧
      (replayConsumerAsProducer none ⟨10⟩ ⟨7⟩ 1 .propagate).Returns g' 1 g'' ∧
      g''.leaf ⟨10⟩ = g'.leaf ⟨10⟩ := by
  have hrun : ((applyAll replay splitAndFlattened {}).any fun f =>
      decide (Concrete f ⟨7⟩) && decide (Concrete f ⟨10⟩) &&
        (f.view ⟨7⟩).domain.rfactor.isNone &&
      match (replayOntoProducer replaySteadily none ⟨7⟩ ⟨10⟩ 1 .propagate).run.run f,
        (replayOntoConsumer replaySteadily none ⟨10⟩ ⟨7⟩ 1 .propagate).run.run f with
      | (.ok 1, f'), (.ok 1, g') => f'.leaf ⟨7⟩ != f.leaf ⟨7⟩ && g'.leaf ⟨10⟩ != f.leaf ⟨10⟩
      | _, _ => false) = true := by
    decide +kernel
  obtain ⟨f, hf, h⟩ := (Option.any_eq_true _ _).1 hrun
  simp only [Bool.and_eq_true, decide_eq_true_eq, Option.isNone_iff_eq_none] at h
  obtain ⟨⟨⟨hproducer, hconsumer⟩, hrfactor⟩, h⟩ := h
  split at h
  case h_2 => cases h
  case h_1 f' g' honto hback =>
      simp only [Bool.and_eq_true, bne_iff_ne] at h
      obtain ⟨honce, hthere⟩ := replays_repeat hf hproducer hconsumer hrfactor
      obtain ⟨f'', hagain, hsame⟩ := honce f' honto
      obtain ⟨g'', hagain', hsame'⟩ := hthere g' hback
      exact ⟨f, f', f'', g', g'', hf, honto, h.1, hagain, hsame, hback, h.2, hagain', hsame'⟩

/-! ### With a broadcast -/

/-- Two copies of a tensor whose last axis is a broadcast, which the first copy merges into the axis
before it. -/
def flattenedColumns : List Call :=
  [.tensor [4, 8, 1] [true, true, true] .float, .input ⟨0⟩, .unary .neg (.value ⟨0⟩),
    .unary .neg (.value ⟨10⟩), .output ⟨14⟩, .merge ⟨10⟩ 1 2]

/-- Behind a broadcast the second replay adds another merge. -/
theorem flattenedColumns_not_repeated :
    ∃ f f' f'', applyAll replay flattenedColumns {} = some f ∧
      (replayConsumerAsProducer none ⟨14⟩ ⟨10⟩ 2 .propagate).Returns f 2 f' ∧
      (replayConsumerAsProducer none ⟨14⟩ ⟨10⟩ 2 .propagate).Returns f' 2 f'' ∧
      f''.leaf ⟨14⟩ ≠ f'.leaf ⟨14⟩ := by
  have hrun : ((applyAll replay flattenedColumns {}).any fun f =>
      match (replayConsumerAsProducer none ⟨14⟩ ⟨10⟩ 2 .propagate).run.run f with
      | (.ok 2, f') =>
        match (replayConsumerAsProducer none ⟨14⟩ ⟨10⟩ 2 .propagate).run.run f' with
        | (.ok 2, f'') => f''.leaf ⟨14⟩ != f'.leaf ⟨14⟩
        | _ => false
      | _ => false) = true := by
    decide +kernel
  obtain ⟨f, hf, h⟩ := (Option.any_eq_true _ _).1 hrun
  split at h
  case h_2 => cases h
  case h_1 f' hfirst =>
      split at h
      case h_2 => cases h
      case h_1 f'' hsecond => exact ⟨f, f', f'', hf, hfirst, hsecond, by simpa using h⟩

end Twice

end Schedule
end FusionCompiler
