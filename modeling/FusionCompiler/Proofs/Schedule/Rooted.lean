import FusionCompiler.Proofs.Schedule.Appending
import FusionCompiler.Proofs.Schedule.Descent

/-!
# Rooted fusions

In a rooted fusion, everything that the domain of a tensor lists descends from the
root of the domain, and no transform makes a root axis.  Transforming leaves,
replaying them and inlining keep a fusion rooted, whether they succeed or fail.

Main results:

- Theorem `Fusion.Appends.rooted`: steps that only append keep a fusion rooted.
- Theorems `Schedule.split_rooted`, `Schedule.merge_rooted` and
  `Schedule.reorder_rooted`: transforming leaves does.
- Theorem `Schedule.replay_rooted`: so does a replay, which lists images that descend
  from the root of its target.
- Theorems `Schedule.KeptByReplays.computeAt` and
  `Schedule.KeptByReplays.propagateTransforms`: sequences of replays preserve whatever
  replays preserve.
-/

namespace FusionCompiler

namespace Fusion

variable {f f' f₁ f₂ : Fusion} {d : TensorDomain} {x : TensorView} {root : List AxisId}
  {a : AxisId} {v : ValueId}

/-! ## Domains that descend from their root -/

/-- Whatever the domain lists descends from its root. -/
def Grounded (f : Fusion) (d : TensorDomain) : Prop :=
  ∀ a ∈ d.listed, f.Descends d.root a

namespace Grounded

/-- Domains stay grounded in later fusions. -/
theorem mono (h : f.Grounded d) (hext : Extends f f') : f'.Grounded d :=
  fun a ha => (h a ha).mono hext

/-- A domain that lists nothing but its root. -/
theorem ofRoot (hleaf : d.leaf = d.root) (hrfactor : d.rfactor = none) : f.Grounded d := by
  intro a ha
  have hmem : a ∈ d.root := by
    simpa [TensorDomain.listed, TensorDomain.logical, hrfactor, hleaf] using ha
  exact .root hmem

/-- Other leaves that descend from the root. -/
theorem withLeaf {leaf : List AxisId} (h : f.Grounded x.domain)
    (hleaf : ∀ a ∈ leaf, f.Descends x.domain.root a) : f.Grounded (x.withLeaf leaf).domain := by
  intro a ha
  rcases List.mem_append.1 ha with ha | ha
  · exact h a (List.mem_append_left _ ha)
  · exact hleaf a ha

/-- Leaves come from the root. -/
theorem leaf (h : f.Grounded d) : ∀ a ∈ d.leaf, f.Descends d.root a :=
  fun a ha => h a (List.mem_append_right _ ha)

/-- The axes of a factored shape come from the root. -/
theorem logical (h : f.Grounded d) : ∀ a ∈ d.logical, f.Descends d.root a :=
  fun a ha => h a (List.mem_append_left _ (List.mem_append_right _ ha))

end Grounded

/-- Every domain descends from its root. -/
def AllGrounded (f : Fusion) : Prop :=
  ∀ v, f.Grounded (f.view v).domain

namespace AllGrounded

/-- Steps after which each view shows an old domain or one that descends from its root. -/
theorem advance (h : AllGrounded f) (hext : Extends f f')
    (hview : ∀ v, (∃ u, (f'.view v).domain = (f.view u).domain) ∨
      f'.Grounded (f'.view v).domain) : AllGrounded f' := by
  intro v
  rcases hview v with ⟨u, hu⟩ | hnew
  · rw [hu]
    exact (h u).mono hext
  · exact hnew

/-- Steps that change no view keep domains grounded. -/
theorem ofViews (h : AllGrounded f) (hext : Extends f f') (hview : ∀ v, f'.view v = f.view v) :
    AllGrounded f' :=
  h.advance hext fun v => .inl ⟨v, by rw [hview]⟩

/-- Building adds tensors over plain roots. -/
theorem builds (h : AllGrounded f) (hb : Builds f f') : AllGrounded f' := by
  refine h.advance hb.ext fun v => ?_
  by_cases hv : f.HasValue v
  · exact .inl ⟨v, by rw [hb.view v hv]⟩
  · have hfresh := hb.fresh v hv
    exact .inr (.ofRoot hfresh.leaf hfresh.rfactor)

/-- A tensor and its siblings get a domain that descends from its root. -/
theorem modify_sync (h : AllGrounded f) {g : TensorView → TensorView}
    (hext : Extends f ((f.modifyView v g).syncSiblings v))
    (hg : f.Grounded (g (f.view v)).domain) :
    AllGrounded ((f.modifyView v g).syncSiblings v) := by
  refine h.advance hext fun w => ?_
  rcases view_modify_sync_cases f v w g with ⟨u, hu⟩ | hu
  · exact .inl ⟨u, by rw [hu]⟩
  · rw [hu]
    exact .inr (hg.mono hext)

end AllGrounded

/-! ## Rooted fusions -/

/-- A sound and wired fusion in which every tensor has root axes of its own, and all that it lists
descends from them. -/
structure Rooted (f : Fusion) : Prop where
  sound : Sound f
  wired : Wired f
  own : OwnAxes f []
  grounded : AllGrounded f

namespace Rooted

/-- No transform makes a root axis. -/
theorem unmade (h : Rooted f) (v : ValueId) : f.Unmade (f.view v).domain.root :=
  fun a ha => (h.own.root v a ha).2.1

/-- Root axes are axes of the fusion. -/
theorem hasAxis_root (h : Rooted f) (v : ValueId) : ∀ a ∈ (f.view v).domain.root, f.HasAxis a :=
  fun a ha => (h.own.root v a ha).1

/-- Steps of which the rest is known. -/
theorem advance (h : Rooted f) (hk : Keeps False f f') (hown : OwnAxes f' [])
    (hgrounded : AllGrounded f') : Rooted f' :=
  ⟨hk.sound, hk.wired h.wired, hown, hgrounded⟩

end Rooted

/-- Values and expressions of a sound and wired fusion agree on what computes what. -/
theorem Sound.computed (hf : Sound f) (hw : Wired f)
    (hnodup : ∀ e x, f.expr? e = some x → x.outputs.Nodup) : Computed f := by
  have hexpr : ∀ e, f.expr? e = none → (f.expr e).outputs = [] := by
    intro e he
    rw [expr, he]
    rfl
  constructor
  · intro v e
    constructor
    · intro hv
      obtain ⟨x, hx, hout⟩ := hf.defined v e hv
      rwa [expr, hx]
    · intro hv
      cases hx : f.expr? e with
      | none =>
          rw [hexpr e hx] at hv
          cases hv
      | some x =>
          rw [expr, hx] at hv
          exact hw.defines e x hx v hv
  · intro e
    cases hx : f.expr? e with
    | none =>
        rw [hexpr e hx]
        exact List.nodup_nil
    | some x =>
        rw [expr, hx]
        exact hnodup e x hx

namespace Appends

/-- New expressions compute one scalar each. -/
theorem outputs_nodup (h : Appends f f') (hf' : Sound f') (hc : Computed f) {e : ExprId} {x : Expr}
    (hx : f'.expr? e = some x) : x.outputs.Nodup := by
  by_cases he : e.index < f.exprs.size
  · have hold := hc.distinct e
    rw [h.expr? e he] at hx
    rwa [expr, hx] at hold
  · rcases (hf'.exprs e x hx).kinds with htensors | ⟨w, hw, -⟩
    · -- nothing that appending computes is a tensor
      have hnone : x.outputs = [] := by
        rw [List.eq_nil_iff_forall_not_mem]
        intro v hv
        have htensor := htensors v hv
        rw [h.fresh v (h.computes e x (Nat.not_lt.1 he) hx v hv).2] at htensor
        cases htensor
      rw [hnone]
      exact List.nodup_nil
    · rw [hw]
      exact List.nodup_singleton w

/-- Appending leaves all roots alone. -/
theorem ownAxes (h : Appends f f') (hf' : Sound f') (hw' : Wired f') (hown : OwnAxes f []) :
    OwnAxes f' [] := by
  have hmade : ∀ a, f.Made a → f'.Made a := by
    rintro a ⟨t, ht, ha⟩
    exact ⟨t, h.hasTransform ht, by rwa [h.transform t ht]⟩
  have hunmade : ∀ a, f.HasAxis a → f'.Made a → f.Made a := by
    rintro a hold ⟨t, ht, ha⟩
    by_cases ht' : f.HasTransform t
    · exact ⟨t, ht', by rwa [← h.transform t ht']⟩
    · exact absurd hold (h.makes t ht' ht a ha)
  constructor
  · intro v a ha
    rw [h.view] at ha
    obtain ⟨hhas, hnot, -⟩ := hown.root v a ha
    exact ⟨h.hasAxis hhas, fun hm => hnot (hunmade a hhas hm), List.not_mem_nil⟩
  · exact List.nodup_nil
  · simp
  · rintro a ⟨t, ht, ha⟩
    exact (hf'.recorded t ht).hasAxis_output ha
  · intro u v a hu hv
    rw [h.view] at hu hv
    rcases hown.apart u v a hu hv with rfl | ⟨e, hue, hve⟩
    · exact .refl f' u
    · have hdef : ∀ {w}, f.definition w = some e → f'.definition w = some e := fun hw =>
        (h.definition (hasValue_of_definition hw)).trans hw
      exact .inr ⟨e, hdef hue, hdef hve⟩
  · intro v a ha
    rw [h.view] at ha ⊢
    exact (hown.logical v a ha).imp id (hmade a)
  · exact hf'.computed hw' fun e x hx => h.outputs_nodup hf' hown.computed hx

/-- Steps that only append keep a fusion rooted. -/
theorem rooted (h : Appends f f') (hk : Keeps False f f') (hf : Rooted f) : Rooted f' :=
  have hw' := hk.wired hf.wired
  hf.advance hk (h.ownAxes hk.sound hw' hf.own) (hf.grounded.ofViews hk.ext h.view)

end Appends

/-! ## Steps of replays -/

/-- What comes from axes is an axis. -/
theorem Descends.hasAxis (h : f.Descends root a) (hf : Sound f) (hroot : ∀ a ∈ root, f.HasAxis a) :
    f.HasAxis a := by
  cases h with
  | root ha => exact hroot a ha
  | made ht ha _ => exact (hf.recorded _ ht).hasAxis_output ha

/-- A recorded transform makes no root axis. -/
theorem Unmade.record {y : Transform} (h : f.Unmade root) (hroot : ∀ a ∈ root, f.HasAxis a)
    (hrec : Records f f' y) : f'.Unmade root := by
  intro a ha hmade
  rcases (made_push hrec.transforms).1 hmade with hold | hnew
  · exact h a ha hold
  · exact hrec.fresh a hnew (hroot a ha)

/-- The inputs of a transform of leaves are leaves. -/
theorem Records.mem_of_perm {y : Transform} {leaf old : List AxisId} (hrec : Records f f' y)
    (hperm : (leaf ++ y.inputs).Perm (old ++ y.outputs)) : ∀ a ∈ y.inputs, a ∈ old := by
  intro a ha
  have hmem := hperm.mem_iff.1 (List.mem_append_right leaf ha)
  rcases List.mem_append.1 hmem with hold | hout
  · exact hold
  · exact absurd (hrec.recorded.input_lt_output ha hout) (Nat.lt_irrefl _)

end Fusion

open Fusion

namespace Schedule

variable {f f' f₁ : Fusion} {v : ValueId} {leaf : List AxisId}

/-- Giving a tensor leaves that descend from its root. -/
theorem setLeaf_grounded {u : Unit} (hf : Sound f) (h : AllGrounded f)
    (hhas : ∀ a ∈ leaf, f.HasAxis a) (hleaf : ∀ a ∈ leaf, f.Descends (f.view v).domain.root a)
    (hset : Edit.Gives (setLeaf v leaf) f u f') : AllGrounded f' := by
  obtain rfl := Edit.gives_modify.1 hset
  have hlisted : ∀ a ∈ ((f.view v).withLeaf leaf).domain.listed, f.HasAxis a := by
    intro a ha
    rcases List.mem_append.1 ha with ha | ha
    · exact hf.domains v a (List.mem_append_left _ ha)
    · exact hhas a ha
  exact h.modify_sync (hf.modify_sync (g := (·.withLeaf leaf)) hlisted).2 ((h v).withLeaf hleaf)

/-- Recording a transform of leaves and putting its outputs in the place of its inputs. -/
theorem record_grounded {x : Transform} {u : Unit} (h : AllGrounded f) (hrec : Records f f₁ x)
    (hf : Sound f) (hperm : (leaf ++ x.inputs).Perm (f.leaf v ++ x.outputs))
    (hset : Edit.Gives (setLeaf v leaf) f₁ u f') : AllGrounded f' := by
  have hold : ∀ a ∈ f.leaf v, f.Descends (f.view v).domain.root a := (h v).leaf
  have hroot : ∀ a ∈ (f.view v).domain.root, f₁.HasAxis a := fun a ha =>
    hrec.ext.hasAxis (hf.domains v a (by simp [TensorDomain.listed, ha]))
  have hnew : ∀ a ∈ leaf, f₁.Descends (f.view v).domain.root a := by
    intro a ha
    rcases List.mem_append.1 (hperm.mem_iff.1 (List.mem_append_left _ ha)) with hmem | hout
    · exact (hold a hmem).mono hrec.ext
    · exact hrec.descends (fun b hb => hold b (hrec.mem_of_perm hperm b hb)) hout
  refine setLeaf_grounded hrec.sound (h.ofViews hrec.ext hrec.view)
    (fun a ha => (hnew a ha).hasAxis hrec.sound hroot) (fun a ha => ?_) hset
  rw [hrec.view]
  exact hnew a ha

/-! ## Split, merge and reorder -/

/-- A split that fails has made its factor at most. -/
theorem fails_split {tensor : ValueId} {axis : Int} {factor : SplitFactor} {innerSplit : Bool}
    (h : (split tensor axis factor innerSplit).Fails f f') :
    f = f' ∨ ∃ k, (resolveFactor tensor factor).Returns f k f' := by
  unfold split at h
  obtain rfl | ⟨x, -, h⟩ := (Build.ensureTensor_reads tensor).mapError.fails_bind h
  · exact .inl rfl
  obtain rfl | ⟨p, -, h⟩ := (axisPosition_reads _ _).fails_bind h
  · exact .inl rfl
  obtain rfl | ⟨_, -, h⟩ := (ensureUnfixed_reads _ _).fails_bind h
  · exact .inl rfl
  obtain h | ⟨k, f₁, hk, h⟩ := EditE.fails_bind.1 h
  · exact .inl (resolveFactor_atomic _ _ f f' h)
  obtain rfl | ⟨g, -, h⟩ := EditE.Reads.get.fails_bind h
  · exact .inr ⟨k, hk⟩
  obtain h | ⟨r, f₂, -, h⟩ := EditE.fails_bind.1 h
  · obtain rfl := splitAxis_atomic _ _ _ f₁ f' h
    exact .inr ⟨k, hk⟩
  · exact absurd h EditE.fails_lift

/-- A split that fails has appended a factor at most. -/
theorem fails_split_appends {tensor : ValueId} {axis : Int} {factor : SplitFactor}
    {innerSplit : Bool} (h : (split tensor axis factor innerSplit).Fails f f') : Appends f f' := by
  obtain rfl | ⟨k, hk⟩ := fails_split h
  · exact .refl f
  · exact resolveFactor_appends hk

/-- A split keeps a fusion rooted, whether it returns or fails. -/
theorem split_rooted {tensor : ValueId} {axis : Int} {factor : SplitFactor} {innerSplit : Bool}
    (hf : Rooted f) (h : (split tensor axis factor innerSplit).Leaves f f') : Rooted f' := by
  obtain ⟨u, h⟩ | h := EditE.leaves_iff.1 h
  · obtain ⟨p, k, f₁, f₂, a, o, i, -, -, hk, hget, hrec, hset⟩ := returns_split hf.sound h
    obtain ⟨hb, -, -, -⟩ := resolveFactor_builds hf.sound hk
    exact hf.advance (split_schedules hf.sound h).keeps (split_owns _ _ _ _ _ _ _ _ h hf.own)
      (record_grounded (hf.grounded.builds hb) hrec hb.sound (split_perm hget) hset)
  · obtain rfl | ⟨k, hk⟩ := fails_split h
    · exact hf
    · exact (resolveFactor_appends hk).rooted (resolveFactor_builds hf.sound hk).1.keeps hf

/-- A merge that fails does nothing. -/
theorem merge_atomic (tensor : ValueId) (outer inner : Int) :
    EditE.Atomic (merge tensor outer inner) := by
  unfold merge
  exact .bind (Build.ensureTensor_reads tensor).mapError fun _ => .bind (axisPosition_reads _ _)
    fun _ => .bind (axisPosition_reads _ _) fun _ => .bind (.ensure _ _) fun _ =>
    .bind (ensureUnfixed_reads _ _) fun _ => .bind .get fun _ =>
    .bind_lift (mergeAxes_atomic _ _).mapError fun _ _ _ h => EditE.fails_lift h

/-- A merge keeps a fusion rooted, whether it returns or fails. -/
theorem merge_rooted {tensor : ValueId} {outer inner : Int} (hf : Rooted f)
    (h : (merge tensor outer inner).Leaves f f') : Rooted f' := by
  obtain ⟨u, h⟩ | h := EditE.leaves_iff.1 h
  · obtain ⟨p, q, f₁, a, b, out, -, -, -, hne, ha, hb, hrec, hset⟩ := returns_merge hf.sound h
    exact hf.advance (merge_schedules hf.sound h).keeps (merge_owns _ _ _ _ _ _ _ h hf.own)
      (record_grounded hf.grounded hrec hf.sound (placeMerged_perm_of_ne hne ha hb) hset)
  · rwa [← merge_atomic _ _ _ f f' h]

/-- A reorder that fails does nothing. -/
theorem reorder_atomic (tensor : ValueId) (moves : List (Int × Int)) :
    EditE.Atomic (reorder tensor moves) := by
  unfold reorder
  refine .bind (Build.ensureTensor_reads tensor).mapError fun _ => .bind (.ofExcept _) fun _ => ?_
  dsimp only
  split
  · exact .ofReads (.throw _)
  · exact .lift _

/-- Another order of leaves keeps a fusion rooted. -/
theorem reorder_rooted {tensor : ValueId} {moves : List (Int × Int)} (hf : Rooted f)
    (h : (reorder tensor moves).Leaves f f') : Rooted f' := by
  obtain ⟨u, h⟩ | h := EditE.leaves_iff.1 h
  · obtain ⟨positions, -, -, hvalid, hset⟩ := returns_reorder h
    have hleaf : ∀ a ∈ applyMoves positions (f.leaf tensor), a ∈ f.leaf tensor := fun a ha =>
      (applyMoves_perm hvalid).mem_iff.1 ha
    refine hf.advance (reorder_schedules hf.sound h).keeps (reorder_owns _ _ _ _ _ _ h hf.own)
      (setLeaf_grounded hf.sound hf.grounded (fun a ha => ?_) (fun a ha => ?_) hset)
    · exact hf.sound.domains tensor a (List.mem_append_right _ (hleaf a ha))
    · exact (hf.grounded tensor).leaf a (hleaf a ha)
  · rwa [← reorder_atomic _ _ f f' h]

/-! ## Replays -/

/-- The leaves and images of a replay descend from a root that no transform makes. -/
structure Progress.Rooted (f : Fusion) (root : List AxisId) (p : Progress) : Prop where
  has : ∀ a ∈ root, f.HasAxis a
  unmade : f.Unmade root
  leaf : ∀ a ∈ p.leaf, f.Descends root a
  images : ∀ b ∈ p.images.images, f.Descends root b

section Replay

variable {g : ReplayGoal} {p p' : Progress} {ts : List TransformId}

/-- Axes are brought back among descending leaves by undoing transforms of descending axes. -/
theorem Progress.Rooted.expose {bs : List AxisId} (h : p.Rooted f g.root) (hf : Sound f)
    (hexpose : exposeAll f g bs p.leaf = some leaf) : ∀ a ∈ leaf, f.Descends g.root a :=
  exposeAll_leaves (fun _ hleaf _ ht b hb =>
    h.unmade.history_descends hf hleaf ht b (List.mem_append_left _ hb)) h.leaf hexpose

/-- Replaying a transform lists and maps to descending axes. -/
theorem Replayed.rooted {steady : Prop} {x : Transform} (h : Replayed steady g f p x f' p')
    (hf : Sound f) (hp : p.Rooted f g.root) : p'.Rooted f' g.root := by
  cases h with
  | idle _ => exact hp
  | passed _ _ hget =>
      refine ⟨hp.has, hp.unmade, hp.leaf, fun b hb => ?_⟩
      rcases AxisMap.mem_images_insert hb with rfl | hb
      · exact hp.images _ (AxisMap.mem_images_of_get? hget)
      · exact hp.images b hb
  | @recorded y _ _ _ _ _ hinputs hexpose hrec hmem _ =>
      have hin : ∀ a ∈ y.inputs, f.Descends g.root a := by
        intro a ha
        have hsome : some a ∈ x.inputs.map p.images.get? := by
          rw [hinputs]
          exact List.mem_map_of_mem ha
        obtain ⟨b, -, hget⟩ := List.mem_map.1 hsome
        exact hp.images a (AxisMap.mem_images_of_get? hget)
      refine ⟨fun a ha => hrec.ext.hasAxis (hp.has a ha), hp.unmade.record hp.has hrec,
        fun a ha => ?_, fun b hb => ?_⟩
      · rcases hmem a ha with ha | ha
        · exact (hp.expose hf hexpose a ha).mono hrec.ext
        · exact hrec.descends hin ha
      · rcases AxisMap.mem_images_insertAll hb with hb | hb
        · obtain ⟨q, hq, rfl⟩ := List.mem_map.1 hb
          exact hrec.descends hin (List.of_mem_zip hq).2
        · exact (hp.images b hb).mono hrec.ext

/-- Replaying transforms one after another. -/
theorem replayTransforms_rooted (hf : Sound f) (hp : p.Rooted f g.root)
    (hts : ∀ t ∈ ts, f.HasTransform t) (h : (replayTransforms g ts p).Returns f p' f') :
    p'.Rooted f' g.root := by
  induction ts generalizing f p with
  | nil =>
      obtain ⟨rfl, rfl⟩ := EditE.returns_pure.1 h
      exact hp
  | cons t ts ih =>
      obtain ⟨p₁, f₁, hstep, h⟩ := EditE.returns_bind.1 h
      have hleaf : ∀ a ∈ p.leaf, f.HasAxis a := fun a ha => (hp.leaf a ha).hasAxis hf hp.has
      have himages : f.Images p.images := fun b hb => (hp.images b hb).hasAxis hf hp.has
      have hone : Replayed False g f p (f.transform t) f₁ p₁ :=
        replayTransform_replayed hf (hts t List.mem_cons_self) hleaf himages False.elim hstep
      have hreplays := hone.replays hf hp.has hleaf himages
      exact ih hreplays.sound (hone.rooted hf hp)
        (fun s hs => hreplays.ext.hasTransform (hts s (List.mem_cons_of_mem t hs))) h

section Whole

variable {source target : ValueId} {pairs : List (AxisId × AxisId)} {pos n : Nat}
  {mode : ReplayMode} {unmappable : AxisId → ScheduleError}

/-- A replay starts from leaves and images that descend from the root of its target. -/
theorem start_rooted (hf : Rooted f) (hpairs : ∀ q ∈ pairs, q.2 ∈ (f.view target).domain.listed) :
    (Progress.start f source target pairs).Rooted f (f.view target).domain.root := by
  have hdescends := hf.grounded target
  refine ⟨hf.hasAxis_root target, hf.unmade target, hdescends.leaf, ?_⟩
  refine bestEffortMap_images (fun t ht b hb => ?_) fun q hq => hdescends q.2 (hpairs q hq)
  exact (hf.unmade target).history_descends hf.sound hdescends.leaf ht b
    (List.mem_append_right _ hb)

/-- A replay that fails keeps a fusion sound and wired. -/
theorem fails_replay_keeps (hf : Sound f) (hpairs : ∀ q ∈ pairs, f.HasAxis q.2)
    (h : (replay source target pairs pos mode unmappable).Fails f f') : Keeps False f f' := by
  obtain ⟨done, p, hdone, hrun⟩ := run_of_fails_replay h
  have hruns : Replays False (f.view target).domain.root f _ f' p :=
    replayTransforms_replays (g := .of f source target mode unmappable) hf
      (fun a ha => hf.domains target a (List.mem_append_left _ (List.mem_append_left _ ha)))
      (fun t ht => hasTransform_of_mem_transformsBetween (hdone.subset ht))
      (fun a ha => hf.domains target a (List.mem_append_right _ ha))
      (Images.bestEffortMap hf hpairs) False.elim hrun
  exact ⟨Edits.ofViews hruns.sound hruns.ext hruns.view, hruns.wired⟩

/-- A replay lists leaves that descend from the root of its target. -/
theorem replay_rooted (hf : Rooted f) (hpairs : ∀ q ∈ pairs, q.2 ∈ (f.view target).domain.listed)
    (h : (replay source target pairs pos mode unmappable).Leaves f f') : Rooted f' := by
  have hexist : ∀ q ∈ pairs, f.HasAxis q.2 := fun q hq =>
    hf.sound.domains target q.2 (hpairs q hq)
  obtain ⟨n, h⟩ | h := EditE.leaves_iff.1 h
  · refine hf.advance (replay_keeps hf.sound hexist h) (replay_owns _ _ _ _ _ _ _ _ _ _ h hf.own) ?_
    obtain ⟨p, f₁, leaf, leading, f₂, newLeaf, hrun, hcollect, rfl, -, -, rfl⟩ :=
      returns_replay.1 h
    have hruns := replayTransforms_start hf.sound hexist False.elim hrun
    have hp : p.Rooted f₁ (f.view target).domain.root :=
      replayTransforms_rooted hf.sound (start_rooted hf hpairs)
        (fun t ht => hasTransform_of_mem_transformsBetween ht) hrun
    obtain ⟨hexpose, hleading, -, rfl⟩ := returns_collectLeading.1 hcollect
    have hnew : ∀ a ∈ leading ++ leaf.filter fun a => !leading.contains a,
        f₁.Descends (f.view target).domain.root a := by
      intro a ha
      rcases List.mem_append.1 ha with ha | ha
      · rw [show leading = _ from hleading] at ha
        obtain ⟨b, -, hget⟩ :=
          List.mem_filterMap.1 ((mem_foldl_addNew.1 ha).resolve_left List.not_mem_nil)
        exact hp.images a (AxisMap.mem_images_of_get? hget)
      · exact hp.expose hruns.sound hexpose a (List.mem_filter.1 ha).1
    refine setLeaf_grounded (u := ()) hruns.sound (hf.grounded.ofViews hruns.ext hruns.view)
      (fun a ha => (hnew a ha).hasAxis hruns.sound hp.has) (fun a ha => ?_) (Edit.gives_modify.2 rfl)
    rw [hruns.view]
    exact hnew a ha
  · exact (fails_replay_appends hf.sound hexist h).rooted (fails_replay_keeps hf.sound hexist h) hf

/-- A replay from consumer to producer keeps a fusion rooted, whether it returns or fails. -/
theorem replayOntoProducer_rooted {roots : Option RootMap} {producer consumer : ValueId}
    (hf : Rooted f)
    (h : (replayOntoProducer replay roots producer consumer pos mode).Leaves f f') :
    Rooted f' := by
  unfold replayOntoProducer at h
  obtain rfl | ⟨g, hget, h⟩ := EditE.Reads.get.leaves_bind h
  · exact hf
  obtain ⟨rfl, -⟩ := EditE.returns_get.1 hget
  obtain rfl | ⟨_, -, h⟩ := (EditE.Reads.ensure _ _).leaves_bind h
  · exact hf
  refine replay_rooted hf (fun q hq => ?_) h
  obtain ⟨r, hr, rfl⟩ := List.mem_map.1 hq
  have hmem := (mem_of_mem_rootPairs (mem_rootPairs_of_mem_seedPairs hr)).1
  exact List.mem_append_left _ (List.mem_append_right _ (List.mem_filter.1 hmem).1)

/-- A replay from producer to consumer keeps a fusion rooted, whether it returns or fails. -/
theorem replayOntoConsumer_rooted {roots : Option RootMap} {consumer producer : ValueId}
    (hf : Rooted f)
    (h : (replayOntoConsumer replay roots consumer producer pos mode).Leaves f f') :
    Rooted f' := by
  have hpairs : ∀ q ∈ seedPairs f roots producer consumer,
      q.2 ∈ (f.view consumer).domain.listed := by
    intro q hq
    have hmem := (mem_of_mem_rootPairs (mem_rootPairs_of_mem_seedPairs hq)).2
    exact List.mem_append_left _ (List.mem_append_left _ hmem)
  obtain ⟨n, h⟩ | h := EditE.leaves_iff.1 h
  · exact replay_rooted hf hpairs (returns_replayOntoConsumer.1 h).2.2.leaves
  · obtain rfl | h := fails_replayOntoConsumer h
    · exact hf
    · exact replay_rooted hf hpairs h.leaves

end Whole
end Replay

/-! ## Sequences of replays -/

/-- Whether the edit returns or fails, it preserves what holds of a fusion. -/
def Preserves {ε α : Type} (P : Fusion → Prop) (x : EditE ε α) : Prop :=
  ∀ f f', P f → x.Leaves f f' → P f'

namespace Preserves

variable {ε α β : Type} {P : Fusion → Prop} {x : EditE ε α}

/-- A step that only reads preserves everything. -/
theorem ofReads (hx : EditE.Reads x) : Preserves P x := by
  intro f f' hf h
  rwa [← hx f f' h]

/-- An edit that does nothing when it fails. -/
theorem ofAtomic (hx : EditE.Atomic x) (h : ∀ f a f', P f → x.Returns f a f' → P f') :
    Preserves P x := by
  intro f f' hf hleaves
  obtain ⟨a, hreturns⟩ | hfails := EditE.leaves_iff.1 hleaves
  · exact h f a f' hf hreturns
  · rwa [← hx f f' hfails]

/-- Two steps, the second of which may depend on the result of the first. -/
protected theorem bind {k : α → EditE ε β} (hx : Preserves P x) (hk : ∀ a, Preserves P (k a)) :
    Preserves P (x >>= k) := by
  intro f f' hf h
  obtain h | ⟨a, f₁, ha, hb⟩ := EditE.leaves_bind.1 h
  · exact hx f f' hf h.leaves
  · exact hk a f₁ f' (hx f f₁ hf ha.leaves) hb

/-- Checks before an edit. -/
theorem reads_bind {k : α → EditE ε β} (hx : EditE.Reads x) (hk : ∀ a, Preserves P (k a)) :
    Preserves P (x >>= k) :=
  (ofReads hx).bind hk

/-- Steps of which the result is dropped. -/
protected theorem discard (hx : Preserves P x) : Preserves P (discard x) :=
  fun f f' hf h => hx f f' hf (EditE.leaves_discard.1 h)

/-- Repeated steps with their results. -/
protected theorem mapM {l : List β} {k : β → EditE ε α} (hk : ∀ b, Preserves P (k b)) :
    Preserves P (l.mapM k) := by
  induction l with
  | nil => exact ofReads (.pure _)
  | cons b l ih =>
      rw [List.mapM_cons]
      exact (hk b).bind fun _ => ih.bind fun _ => ofReads (.pure _)

end Preserves

open Preserves

/-- Replays onto either end of an edge, and raised positions, preserve what holds of a fusion. -/
structure KeptByReplays (P : Fusion → Prop) : Prop where
  producer : ∀ (roots : Option RootMap) (producer consumer : ValueId) (pos : Nat)
    (mode : ReplayMode), Preserves P (replayOntoProducer replay roots producer consumer pos mode)
  consumer : ∀ (roots : Option RootMap) (consumer producer : ValueId) (pos : Nat)
    (mode : ReplayMode), Preserves P (replayOntoConsumer replay roots consumer producer pos mode)
  raise : ∀ (v : ValueId) (g : TensorView → TensorView), (∀ x, (g x).domain = x.domain) →
    Preserves P (liftM (updateView v g) : Schedule Unit)

namespace KeptByReplays

variable {P : Fusion → Prop} (hP : KeptByReplays P)

include hP

/-- Walking back to producers preserves what replays preserve. -/
theorem backward (roots : RootMap) (members vs : List ValueId)
    (positions : List (ValueId × Nat)) :
    Preserves P (Schedule.backward replay roots members vs positions) := by
  induction vs generalizing positions with
  | nil => exact ofReads (.pure _)
  | cons v vs ih =>
      unfold Schedule.backward
      refine reads_bind .get fun f => ?_
      dsimp only
      split
      · exact ih _
      · exact .bind (hP.producer _ _ _ _ _) fun _ => .bind (hP.raise _ _ fun _ => rfl) fun _ =>
          .bind (hP.raise _ _ fun _ => rfl) fun _ => ih _

/-- Walking to the uses of a tensor preserves what replays preserve. -/
theorem forwardUses (g : ForwardGoal) (v : ValueId) (vs : List ValueId) :
    Preserves P (Schedule.forwardUses replay g v vs) := by
  induction vs with
  | nil => exact ofReads (.pure _)
  | cons next vs ih =>
      have hrest : ∀ pos, Preserves P (do
          let nextPos ← replayOntoConsumer replay (some g.roots) next v pos .computeAt
          updateView next (·.raiseMaxProducer nextPos)
          return next :: (← Schedule.forwardUses replay g v vs) : Schedule (List ValueId)) :=
        fun pos => .bind (hP.consumer _ _ _ _ _) fun _ =>
          .bind (hP.raise _ _ fun _ => rfl) fun _ => .bind ih fun _ => ofReads (.pure _)
      unfold Schedule.forwardUses
      refine reads_bind .get fun f => ?_
      split
      · exact ih
      · dsimp only
        split
        · exact .bind (hP.raise _ _ fun _ => rfl) fun _ => hrest _
        · exact hrest _

/-- Walking forward to consumers preserves what replays preserve. -/
theorem forward (g : ForwardGoal) (vs active : List ValueId) :
    Preserves P (Schedule.forward replay g vs active) := by
  induction vs generalizing active with
  | nil => exact ofReads (.pure _)
  | cons v vs ih =>
      unfold Schedule.forward
      split
      · exact ih _
      · exact reads_bind .get fun _ => .bind (hP.forwardUses _ _ _) fun _ => ih _

/-- Inlining preserves what replays preserve. -/
theorem computeAt (producer consumer : ValueId) (pos : Int) :
    Preserves P (computeAtWith replay producer consumer pos) := by
  unfold computeAtWith
  exact reads_bind (Build.ensureTensor_reads producer).mapError.discard fun _ =>
    reads_bind (Build.ensureTensor_reads consumer).mapError fun _ =>
    reads_bind (.ofExcept _) fun _ => reads_bind .get fun _ => reads_bind (.ensure _ _) fun _ =>
    .bind (hP.backward _ _ _ _) fun _ => reads_bind .get fun _ => hP.forward _ _ _

/-- Spreading loops preserves what replays preserve. -/
theorem spread (fuel : Nat) (reached : List Reached) :
    Preserves P (Schedule.spread replay fuel reached) := by
  induction fuel generalizing reached with
  | zero => exact ofReads (.pure _)
  | succ fuel ih =>
      unfold Schedule.spread
      refine reads_bind .get fun f => ?_
      split
      · exact ofReads (.pure _)
      · dsimp only
        split
        · exact .bind (hP.producer _ _ _ _ _).discard fun _ => reads_bind .get fun _ => ih _
        · exact .bind (hP.consumer _ _ _ _ _).discard fun _ => reads_bind .get fun _ => ih _

/-- Propagating loops from a tensor preserves what replays preserve. -/
theorem propagateTransforms (reference : ValueId) :
    Preserves P (propagateTransformsWith replay reference) := by
  unfold propagateTransformsWith
  exact reads_bind (Build.ensureTensor_reads reference).mapError fun _ =>
    reads_bind .get fun _ => hP.spread _ _

end KeptByReplays

/-- Raising positions leaves domains alone. -/
theorem updateView_rooted (v : ValueId) {g : TensorView → TensorView}
    (hg : ∀ x, (g x).domain = x.domain) :
    Preserves Rooted (liftM (updateView v g) : Schedule Unit) := by
  intro f f' hf h
  obtain ⟨u, hu⟩ := EditE.leaves_lift.1 h
  have hk : Keeps False f f' := updateView_keeps hf.sound (hg (f.view v)) hu
  refine hf.advance hk (updateView_owns v hg f u f' [] hu hf.own) ?_
  obtain rfl := Edit.gives_modify.1 hu
  refine hf.grounded.modify_sync hk.ext ?_
  rw [hg]
  exact hf.grounded v

/-- A fusion stays rooted under replays and new positions. -/
theorem replays_rooted : KeptByReplays Rooted where
  producer _ _ _ _ _ _ _ := replayOntoProducer_rooted
  consumer _ _ _ _ _ _ _ := replayOntoConsumer_rooted
  raise v _ hg := updateView_rooted v hg

end Schedule
end FusionCompiler
