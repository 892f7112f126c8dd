import FusionCompiler.Proofs.Schedule.FaithfulCopies

/-!
# Stages that line up

Factoring a reduction replaces it by two stages.  The first one has an axis for each
axis of the reduction, with the same extent and execution, and reduces the chosen
leaves only: what leads to the other reductions alone is iterated over instead.  The
second one starts from what the first one does not reduce, and reduces the axes that
the first one iterates over in the place of reductions.

A reduction that is left for the second stage must not lead to a chosen one.  No
check says so, but it would have no image in the second stage, which then fails.

Main results:

- Theorem `Schedule.partialDomain_firstStage`: the axes of the first stage.
- Theorem `Schedule.finalDomain_secondStage`: the axes of the second stage.
- Theorem `Fusion.rfactor_aligns`: the stages of a factored reduction line up, and all
  results of its expression are factored together.
-/

namespace FusionCompiler

open Fusion

namespace Schedule

variable {f f' f₁ f₂ : Fusion} {tensor : ValueId} {p : Factoring} {d : TensorDomain}
  {positions : List Int} {a b : AxisId} {m : AxisMap}

/-! ## Chosen leaves -/

/-- The chosen leaves are those at the given positions. -/
theorem mem_chosenLeaves {leaf seen chosen : List AxisId}
    (h : chosenLeaves f tensor leaf seen positions = .ok chosen) :
    a ∈ chosen ↔ a ∈ seen ∨ ∃ axis ∈ positions, ∃ n,
      normalizeAxis axis leaf.length = .ok n ∧ leaf[n]? = some a := by
  induction positions generalizing seen with
  | nil =>
      cases h
      simp
  | cons i positions ih =>
      unfold chosenLeaves at h
      split at h
      · cases h
      case h_2 n hn =>
          dsimp only at h
          split at h
          case isFalse => cases h
          have hget : leaf[n]? = some (leaf.getD n default) := by
            rw [List.getD_eq_getElem?_getD, List.getElem?_eq_getElem (normalizeAxis_lt hn)]
            rfl
          rw [ih h, mem_addNew]
          constructor
          · rintro ((hseen | rfl) | ⟨j, hj, hrest⟩)
            · exact .inl hseen
            · exact .inr ⟨i, List.mem_cons_self, n, hn, hget⟩
            · exact .inr ⟨j, List.mem_cons_of_mem i hj, hrest⟩
          · rintro (hseen | ⟨j, hj, k, hk, hleaf⟩)
            · exact .inl (.inl hseen)
            · rcases List.mem_cons.1 hj with rfl | hj
              · rw [hn] at hk
                cases hk
                rw [hget] at hleaf
                exact .inl (.inr (Option.some.inj hleaf).symm)
              · exact .inr ⟨j, hj, k, hk, hleaf⟩

theorem plan_chosen (h : Factoring.plan f tensor positions = .ok p) :
    chosenLeaves f tensor (f.leaf tensor) [] positions = .ok p.chosen := by
  obtain ⟨definition, chosen, -, -, hchosen, h⟩ := plan_ofChosen h
  unfold Factoring.ofChosen at h
  dsimp only at h
  split at h
  · cases h
  split at h
  · cases h
  cases h
  exact hchosen

/-! ## Copies of roots -/

namespace Duplicates

variable {axes : List (AxisId × AxisKind)} {pairs : List (AxisId × AxisId)}
  (h : Duplicates f f₁ axes pairs) (hab : (AxisMap.ofPairs pairs).get? a = some b)

include h hab

/-- A copy has the extent of the axis it stands for, and belongs to no factored reduction. -/
theorem copy_of_get? : (a, (f₁.axis b).kind) ∈ axes ∧ f₁.extent b = f.extent a ∧
    (f₁.axis b).isRFactor = false := by
  have hmem := AxisMap.mem_of_get?_ofPairs hab
  refine ⟨?_, h.extent _ hmem, h.unmarked _ hmem⟩
  rw [← h.kinds]
  exact List.mem_map.2 ⟨(a, b), hmem, rfl⟩

/-- Different axes have different copies. -/
theorem eq_of_get? {c : AxisId} (hcb : (AxisMap.ofPairs pairs).get? c = some b) : a = c :=
  congrArg Prod.fst (List.inj_on_of_nodup_map h.nodup (AxisMap.mem_of_get?_ofPairs hab)
    (AxisMap.mem_of_get?_ofPairs hcb) rfl)

end Duplicates

/-! ## The first stage -/

/-- The axes that the first stage speaks of. -/
def Factoring.listed (p : Factoring) (f : Fusion) : List AxisId :=
  p.domain.leaf ++ (p.frontier f ++ p.rfactored)

theorem Factoring.mem_listed : a ∈ p.listed f ↔
    a ∈ p.domain.leaf ∨ a ∈ p.frontier f ∨ a ∈ p.rfactored := by
  simp [listed]

/-- The listed axes have new doubles, which are like them. -/
structure Factoring.Doubled (p : Factoring) (f f₁ : Fusion) (ρ : AxisId → AxisId) : Prop where
  sound : Sound f₁
  appends : Appends f f₁
  old : ∀ a ∈ p.listed f, f.HasAxis a
  has : ∀ a ∈ p.listed f, f₁.HasAxis (ρ a)
  new : ∀ a ∈ p.listed f, ¬ f.HasAxis (ρ a)
  injective : ∀ a ∈ p.listed f, ∀ b ∈ p.listed f, ρ a = ρ b → a = b
  kind : ∀ a ∈ p.listed f, (f₁.axis (ρ a)).kind = (f.axis a).kind
  extent : ∀ a ∈ p.listed f, f₁.sameScalar (f₁.extent a) (f₁.extent (ρ a)) = true
  unmarked : ∀ a ∈ p.listed f, (f₁.axis (ρ a)).isRFactor = false

/-- Copies of the root and their images along the history are such doubles. -/
theorem repeated_doubled {roots : List (AxisId × AxisId)} (hf : WellKinded f)
    (hplan : Factoring.plan f tensor positions = .ok p)
    (hcopy : Edit.Gives (copyAxes (p.domain.root.map fun a => (a, (f.axis a).kind))) f roots f₁)
    (hrepeat : (repeatTransforms tensor p.history (.ofPairs roots)).Returns f₁ m f₂) :
    p.Doubled f f₂ (imageOf m) := by
  have hs := plan_splits hplan
  obtain ⟨-, hp⟩ := plan_planned hf.sound hplan
  have haxes : ∀ q ∈ p.domain.root.map fun a => (a, (f.axis a).kind),
      f.HasAxis q.1 ∧ q.2 = (f.axis q.1).kind := by
    intro q hq
    obtain ⟨a, ha, rfl⟩ := List.mem_map.1 hq
    exact ⟨hp.root a ha, rfl⟩
  have hroots : ∀ q ∈ p.domain.root.map fun a => (a, (f.axis a).kind), f.HasAxis q.1 :=
    fun q hq => (haxes q hq).1
  have hd := copyAxes_duplicates hf.sound hroots hcopy
  have hm : f₁.Images (.ofPairs roots) := images_ofPairs fun q hq => (hd.new q hq).1
  have hhistory : ∀ t ∈ p.history, f₁.HasTransform t := (hp.mono hd.adjoins.ext).history
  have hsame : ∀ t ∈ p.history, f₁.transform t = f.transform t := fun t ht =>
    hd.adjoins.ext.transform t (hp.history t ht)
  have hrecorded : ∀ t ∈ p.history, f.Recorded (f.transform t) := fun t ht =>
    hf.sound.recorded t (hp.history t ht)
  have hkinds : ∀ t ∈ p.history, f₁.KindsFollow (f₁.transform t) := by
    intro t ht
    rw [hsame t ht]
    have hunfactored : (f.view tensor).domain.rfactor = none := hs.domain ▸ hs.unfactored
    refine (hf.history hunfactored (hs.history ▸ ht)).congr fun a ha => ?_
    rw [hd.adjoins.axis a ((hrecorded t ht).hasAxis ha)]
  have hmeasured : ∀ t ∈ p.history, f₁.Measured (f₁.transform t) := by
    intro t ht
    rw [hsame t ht]
    exact (hf.measured t (hp.history t ht)).mono hf.sound.extents (hrecorded t ht) hd.adjoins.ext
  have hstart : ∀ a b, (AxisMap.ofPairs roots).get? a = some b → f₁.HasAxis a ∧
      (f₁.axis b).kind = (f₁.axis a).kind ∧ f₁.extent b = f₁.extent a ∧
      (f₁.axis b).isRFactor = false := by
    intro a b hab
    obtain ⟨hmem, hextent, hunmarked⟩ := hd.copy_of_get? hab
    obtain ⟨ha, hkind⟩ := haxes _ hmem
    refine ⟨hd.adjoins.ext.hasAxis ha, ?_, ?_, hunmarked⟩
    · rw [hd.adjoins.axis a ha]
      exact hkind
    · rw [hextent, hd.adjoins.ext.extent a ha]
  obtain ⟨hk, himages⟩ := repeatTransforms_keeps hd.adjoins.sound hhistory hm hrepeat
  obtain ⟨happends, hnew⟩ := copied_appends hf.sound hroots hp.history hcopy hrepeat
  have hget : ∀ a ∈ p.listed f, m.get? a = some (imageOf m a) := fun a ha =>
    hs.get?_eq_imageOf hf.toRooted hp hcopy hrepeat (Factoring.mem_listed.1 ha)
  have hold : ∀ a ∈ p.listed f, f.HasAxis a := by
    intro a ha
    rcases hs.mem_axes_of_listed hf.toRooted (Factoring.mem_listed.1 ha) with hroot | ⟨t, ht, hout⟩
    · exact hp.root a hroot
    · exact (hrecorded t ht).hasAxis_output hout
  have hhas : ∀ a ∈ p.listed f, f₂.HasAxis (imageOf m a) := fun a ha => himages.get? (hget a ha)
  refine ⟨hk.sound, happends, hold, hhas, fun a ha => hnew _ (AxisMap.mem_images_of_get? (hget a ha)),
    fun a ha b hb heq => ?_, fun a ha => ?_, fun a ha => ?_, fun a ha => ?_⟩
  · refine repeatTransforms_injective hd.adjoins.sound hhistory hm
      (fun a b c hac hbc => hd.eq_of_get? hac hbc) hrepeat a b _ (hget a ha) ?_
    rw [heq]
    exact hget b hb
  · rw [repeatTransforms_kinds hd.adjoins.sound hhistory hm hkinds
      (fun a b hab => ⟨(hstart a b hab).1, (hstart a b hab).2.1⟩) hrepeat a _ (hget a ha),
      happends.axis a (hold a ha)]
  · exact (repeatTransforms_lookalikes hd.adjoins.sound hhistory hm hmeasured
      (fun a b hab => ⟨(hstart a b hab).1, (hstart a b hab).2.2.1⟩) hrepeat a _
      (hget a ha)).sameScalar hk.sound (hk.sound.extents a (happends.hasAxis (hold a ha)))
      (hk.sound.extents _ (hhas a ha))
  · exact repeatTransforms_unmarked hd.adjoins.sound hhistory hm
      (fun a b hab => (hstart a b hab).2.2.2) hrepeat a _ (hget a ha)

/-- What the first stage is: it has doubles of the leaves and of the axes at the frontier, and iterates
over those that serve the remaining reductions only. -/
structure Factoring.FirstStage (p : Factoring) (f f₁ : Fusion) (d : TensorDomain)
    (ρ : AxisId → AxisId) : Prop where
  leaf : d.leaf = p.domain.leaf.map ρ
  shape : d.rfactor = some ((p.frontier f).map ρ)
  old : ∀ a ∈ p.listed f, f.HasAxis a
  has : ∀ a ∈ p.listed f, f₁.HasAxis (ρ a)
  kind : ∀ a ∈ p.listed f,
    (f₁.axis (ρ a)).kind = if a ∈ p.rfactored then .iteration else (f.axis a).kind
  marked : ∀ a ∈ p.listed f, (f₁.axis (ρ a)).isRFactor = decide (a ∈ p.rfactored)
  extent : ∀ a ∈ p.listed f, f₁.sameScalar (f₁.extent a) (f₁.extent (ρ a)) = true
  parallel : ∀ a ∈ p.domain.leaf, (f₁.axis (ρ a)).parallel = (f.axis a).parallel

/-- An axis that is iterated over in the place of a reduction. -/
def iterated (x : Axis) : Axis :=
  { x with kind := .iteration, isRFactor := true }

namespace Factoring.Doubled

variable {ρ : AxisId → AxisId} (h : p.Doubled f f₁ ρ)

include h

/-- A double is iterated over if its axis serves the remaining reductions only. -/
theorem axis_iterated (ha : a ∈ p.listed f) :
    (p.rfactored.foldl (fun f a => f.modifyAxis (ρ a) iterated) f₁).axis (ρ a) =
      if a ∈ p.rfactored then iterated (f₁.axis (ρ a)) else f₁.axis (ρ a) := by
  have hmem : ρ a ∈ p.rfactored.map ρ ↔ a ∈ p.rfactored := by
    refine ⟨fun hmap => ?_, List.mem_map_of_mem⟩
    obtain ⟨b, hb, heq⟩ := List.mem_map.1 hmap
    rwa [← h.injective b (mem_listed.2 (.inr (.inr hb))) a ha heq]
  rw [axis_foldl_modifyAxis_eq (g := iterated) (fun _ => rfl) (h.has a ha)]
  simp only [hmem]

theorem axis_iterated_old (ha : f.HasAxis a) :
    (p.rfactored.foldl (fun f a => f.modifyAxis (ρ a) iterated) f₁).axis a = f.axis a := by
  rw [axis_foldl_modifyAxis, h.appends.axis a ha]
  rintro b hb rfl
  exact h.new b (mem_listed.2 (.inr (.inr hb))) ha

/-- Doubles of which some are iterated over, and which get the execution of the leaves, are the first
stage. -/
theorem firstStage {roots : List AxisId} {u : Unit}
    (hparallel : Edit.Gives (copyParallel (p.domain.leaf.zip (p.domain.leaf.map ρ)))
      (p.rfactored.foldl (fun f a => f.modifyAxis (ρ a) iterated) f₁) u f₂) :
    p.FirstStage f f₂ (.factored roots ((p.frontier f).map ρ) (p.domain.leaf.map ρ)) ρ := by
  have hmarks : SameExtents f₁ (p.rfactored.foldl (fun f a => f.modifyAxis (ρ a) iterated) f₁) :=
    SameExtents.foldl (fun g a => SameExtents.modifyAxis g (ρ a) (g := iterated) fun _ => rfl)
      p.rfactored f₁
  have hsame : SameExtents f₁ f₂ := hmarks.trans (copyParallel_sameExtents hparallel)
  have hleaf : ∀ a ∈ p.domain.leaf, a ∈ p.listed f := fun a ha => mem_listed.2 (.inl ha)
  obtain ⟨hmark, hexecution⟩ := copyParallel_copies (fun a ha b hb heq => by
      refine h.new b (hleaf b hb) ?_
      rw [heq]
      exact h.old a (hleaf a ha)) (fun a ha b hb => h.injective a (hleaf a ha) b (hleaf b hb)) hparallel
  have hhas := fun a ha => hmarks.toExtends.hasAxis (h.has a ha)
  refine ⟨rfl, rfl, h.old, fun a ha => hsame.toExtends.hasAxis (h.has a ha), fun a ha => ?_,
    fun a ha => ?_, fun a ha => ?_, fun a ha => ?_⟩
  · rw [copyParallel_kind hparallel, h.axis_iterated ha]
    split
    · rfl
    · exact h.kind a ha
  · rw [hmark _ (hhas a ha), h.axis_iterated ha]
    split
    case isTrue hr => simp [iterated, hr]
    case isFalse hr => simp [hr, h.unmarked a ha]
  · have hold := h.appends.hasAxis (h.old a ha)
    rw [hsame.toExtends.extent a hold, hsame.toExtends.extent _ (h.has a ha),
      hsame.toExtends.sameScalar h.sound (h.sound.extents a hold) (h.sound.extents _ (h.has a ha))]
    exact h.extent a ha
  · rw [hexecution a ha (hhas a (hleaf a ha)), h.axis_iterated_old (h.old a (hleaf a ha))]

end Factoring.Doubled

theorem partialDomain_firstStage (hf : WellKinded f)
    (hplan : Factoring.plan f tensor positions = .ok p)
    (h : (p.partialDomain tensor).Returns f d f') : ∃ ρ, p.FirstStage f f' d ρ := by
  obtain ⟨roots, f₁, m, f₂, u, hcopy, hrepeat, hparallel, rfl⟩ := returns_partialDomain h
  exact ⟨imageOf m, (repeated_doubled hf hplan hcopy hrepeat).firstStage hparallel⟩

/-! ## The second stage -/

theorem mem_withAncestors_self {goal : List AxisId} (hf : Sound f) (ha : a ∈ goal) :
    a ∈ withAncestors f goal := by
  rw [withAncestors_eq_walk]
  exact (mem_wanted hf).2 (.inl ha)

/-- The leaves that are not chosen. -/
def Factoring.remaining (p : Factoring) : List AxisId :=
  p.domain.leaf.filter fun a => !p.chosen.contains a

theorem Factoring.mem_remaining : a ∈ p.remaining ↔ a ∈ p.domain.leaf ∧ a ∉ p.chosen := by
  simp [remaining]

/-- What the second stage is: its root describes what the first stage does not reduce, and its leaves
are copies of the leaves that are left.  The reductions among these serve no chosen one. -/
structure Factoring.SecondStage (p : Factoring) (f f₁ : Fusion) (d : TensorDomain)
    (ρ : AxisId → AxisId) : Prop where
  unfactored : d.rfactor = none
  root : f₁.described d.root = (p.finalKinds f).map fun q => (q.2, f.extent q.1)
  leaf : d.leaf = p.remaining.map ρ
  has : ∀ a ∈ p.remaining, f.HasAxis a ∧ f₁.HasAxis (ρ a)
  parallel : ∀ a ∈ p.remaining, (f₁.axis (ρ a)).parallel = (f.axis a).parallel
  extent : ∀ a ∈ p.remaining, f₁.sameScalar (f₁.extent a) (f₁.extent (ρ a)) = true
  kept : ∀ a ∈ p.kept f, a ∈ p.rfactored

/-- Axes that have images were there from the start or are made by a repeated transform. -/
theorem repeatTransforms_keys {ts : List TransformId} {m' : AxisMap} (hf : Sound f)
    (hts : ∀ t ∈ ts, f.HasTransform t) (hm : f.Images m)
    (h : (repeatTransforms tensor ts m).Returns f m' f') (hab : m'.get? a = some b) :
    m.contains a = true ∨ ∃ t ∈ ts, a ∈ (f.transform t).outputs :=
  repeatTransforms_pairs (Q := fun a _ => m.contains a = true ∨ ∃ t ∈ ts, a ∈ (f.transform t).outputs)
    hf hts hm (fun _ b hab => .inl (AxisMap.contains_iff.2 ⟨b, hab⟩))
    (fun t ht _ _ _ _ _ _ _ _ ha => .inr ⟨t, ht, ha⟩) h a b hab

theorem finalDomain_secondStage (hf : Sound f) (hp : Planned f p)
    (hmeasured : ∀ t ∈ p.history, f.Measured (f.transform t))
    (hneeded : ∀ t ∈ p.history, ∀ a ∈ (f.transform t).outputs, a ∈ p.kept f → t ∈ p.needed)
    (h : (p.finalDomain tensor).Returns f d f') : ∃ ρ, p.SecondStage f f' d ρ := by
  obtain ⟨hunfactored, hroot⟩ := described_finalDomain hf hp h
  obtain ⟨roots, f₁, m, f₂, u, hcopy, hrepeat, hget, hparallel, rfl⟩ := returns_finalDomain h
  have hd := copyAxes_duplicates hf (hp.finalKinds hf) hcopy
  have hm : f₁.Images (.ofPairs roots) := images_ofPairs fun q hq => (hd.new q hq).1
  have hrest : ∀ t ∈ p.history.filter fun t => !p.needed.contains t, f.HasTransform t :=
    fun t ht => hp.history t (List.mem_filter.1 ht).1
  have hrest₁ := fun t ht => hd.adjoins.ext.hasTransform (hrest t ht)
  have hsame : ∀ t ∈ p.history.filter fun t => !p.needed.contains t,
      f₁.transform t = f.transform t := fun t ht => hd.adjoins.ext.transform t (hrest t ht)
  have hmeasured₁ : ∀ t ∈ p.history.filter fun t => !p.needed.contains t,
      f₁.Measured (f₁.transform t) := by
    intro t ht
    rw [hsame t ht]
    exact (hmeasured t (List.mem_filter.1 ht).1).mono hf.extents (hf.recorded t (hrest t ht))
      hd.adjoins.ext
  obtain ⟨hk, himages⟩ := repeatTransforms_keeps hd.adjoins.sound hrest₁ hm hrepeat
  obtain ⟨happends, hnew⟩ := copied_appends hf (hp.finalKinds hf) hrest hcopy hrepeat
  have hstart : ∀ a b, (AxisMap.ofPairs roots).get? a = some b →
      f₁.HasAxis a ∧ f₁.extent b = f₁.extent a := by
    intro a b hab
    obtain ⟨hmem, hextent, -⟩ := hd.copy_of_get? hab
    have ha : f.HasAxis a := hp.finalKinds hf _ hmem
    exact ⟨hd.adjoins.ext.hasAxis ha, by rw [hextent, hd.adjoins.ext.extent a ha]⟩
  have hlike := repeatTransforms_lookalikes hd.adjoins.sound hrest₁ hm hmeasured₁ hstart hrepeat
  have hinjective := repeatTransforms_injective hd.adjoins.sound hrest₁ hm
    (fun a b c hac hbc => hd.eq_of_get? hac hbc) hrepeat
  change ∀ a ∈ p.remaining, _ at hget
  have hold : ∀ a ∈ p.remaining, f.HasAxis a := fun a ha =>
    hp.listed a (List.mem_append_right _ (Factoring.mem_remaining.1 ha).1)
  have hhas : ∀ a ∈ p.remaining, f₂.HasAxis (imageOf m a) := fun a ha => himages.get? (hget a ha)
  have hparallels := copyParallel_sameExtents hparallel
  obtain ⟨-, hexecution⟩ := copyParallel_copies (fun a (ha : a ∈ p.remaining) b hb heq => by
      refine hnew _ (AxisMap.mem_images_of_get? (hget b hb)) ?_
      rw [heq]
      exact hold a ha) (fun a ha b hb heq => by
      refine hinjective a b _ (hget a ha) ?_
      rw [heq]
      exact hget b hb) hparallel
  refine ⟨imageOf m, hunfactored, hroot, rfl,
    fun a ha => ⟨hold a ha, hparallels.toExtends.hasAxis (hhas a ha)⟩, fun a ha => ?_, fun a ha => ?_,
    fun a ha => ?_⟩
  · rw [hexecution a ha (hhas a ha), happends.axis a (hold a ha)]
  · have hold' := happends.hasAxis (hold a ha)
    rw [hparallels.toExtends.extent a hold', hparallels.toExtends.extent _ (hhas a ha),
      hparallels.toExtends.sameScalar hk.sound (hk.sound.extents a hold')
        (hk.sound.extents _ (hhas a ha))]
    exact (hlike a _ (hget a ha)).sameScalar hk.sound (hk.sound.extents a hold')
      (hk.sound.extents _ (hhas a ha))
  · -- a reduction without an image would have made the second stage fail
    obtain ⟨hleaf, hreduction, hchosen⟩ := Factoring.mem_kept.1 ha
    have himage := hget a (Factoring.mem_remaining.2 ⟨hleaf, hchosen⟩)
    rcases repeatTransforms_keys hd.adjoins.sound hrest₁ hm hrepeat himage with hcopied | ⟨t, ht, hout⟩
    · obtain ⟨c, hc⟩ := AxisMap.contains_iff.1 hcopied
      rcases Factoring.mem_finalKinds (hd.copy_of_get? hc).1 with ⟨hr, -⟩ | ⟨hnot, -⟩
      · exact hr
      · rw [hreduction] at hnot
        cases hnot
    · rw [hsame t ht] at hout
      obtain ⟨hhistory, hnot⟩ := List.mem_filter.1 ht
      exact absurd (hneeded t hhistory a hout ha) (by simpa using hnot)

/-! ## Both stages -/

variable {ρ : AxisId → AxisId}

/-- The first stage stays what it is while axes and scalars are added. -/
theorem Factoring.FirstStage.mono (h : p.FirstStage f f₁ d ρ) (hf₁ : Sound f₁) (hext : Extends f f₁)
    (hext₁ : Extends f₁ f₂) (haxis : ∀ a, f₁.HasAxis a → f₂.axis a = f₁.axis a) :
    p.FirstStage f f₂ d ρ := by
  refine ⟨h.leaf, h.shape, h.old, fun a ha => hext₁.hasAxis (h.has a ha), fun a ha => ?_,
    fun a ha => ?_, fun a ha => ?_, fun a ha => ?_⟩
  · rw [haxis _ (h.has a ha)]
    exact h.kind a ha
  · rw [haxis _ (h.has a ha)]
    exact h.marked a ha
  · have hold := hext.hasAxis (h.old a ha)
    rw [hext₁.extent a hold, hext₁.extent _ (h.has a ha),
      hext₁.sameScalar hf₁ (hf₁.extents a hold) (hf₁.extents _ (h.has a ha))]
    exact h.extent a ha
  · rw [haxis _ (h.has a (Factoring.mem_listed.2 (.inl ha)))]
    exact h.parallel a ha

/-- The second stage stays what it is while scalars are added. -/
theorem Factoring.SecondStage.mono (h : p.SecondStage f f₁ d ρ) (hf₁ : Sound f₁)
    (hext : Extends f f₁) (hext₁ : Extends f₁ f₂) (haxes : f₂.axes = f₁.axes) :
    p.SecondStage f f₂ d ρ := by
  have haxis : ∀ a, f₂.axis a = f₁.axis a := fun a => by rw [Fusion.axis, haxes, Fusion.axis]
  refine ⟨h.unfactored, ?_, h.leaf, fun a ha => ?_, fun a ha => ?_, fun a ha => ?_, h.kept⟩
  · rw [← h.root]
    simp only [described, Fusion.extent, haxis]
  · exact ⟨(h.has a ha).1, hext₁.hasAxis (h.has a ha).2⟩
  · rw [haxis]
    exact h.parallel a ha
  · have hold := hext.hasAxis (h.has a ha).1
    have hnew := (h.has a ha).2
    rw [hext₁.extent a hold, hext₁.extent _ hnew,
      hext₁.sameScalar hf₁ (hf₁.extents a hold) (hf₁.extents _ hnew)]
    exact h.extent a ha

/-- What the first stage adds makes no difference to what the second stage starts from. -/
theorem finalKinds_eq (hp : Planned f p) (hf : Sound f) (h : Appends f f₁) (hext : Extends f f₁) :
    p.finalKinds f₁ = p.finalKinds f := by
  unfold Factoring.finalKinds
  rw [hp.frontier_eq hext]
  refine List.filterMap_congr fun a ha => ?_
  rw [h.axis a (hp.frontier hf a ha)]

theorem kept_eq (hp : Planned f p) (h : Appends f f₁) : p.kept f₁ = p.kept f := by
  refine List.filter_congr fun a ha => ?_
  rw [h.axis a (hp.listed a (List.mem_append_right _ ha))]

/-- Both stages of a reduction, before its expression is taken apart. -/
theorem stages_of_plan {d₁ d₂ : TensorDomain} (hf : WellKinded f)
    (hplan : Factoring.plan f tensor positions = .ok p)
    (hpartial : (p.partialDomain tensor).Returns f d₁ f₁)
    (hfinal : (p.finalDomain tensor).Returns f₁ d₂ f₂) :
    (∃ ρ, p.FirstStage f f₂ d₁ ρ) ∧ ∃ ρ, p.SecondStage f f₂ d₂ ρ := by
  have hs := plan_splits hplan
  obtain ⟨-, hp⟩ := plan_planned hf.sound hplan
  have h₁ := (partialDomain_keeps hf.sound hp hpartial).1
  have happends := (partialDomain_appends hf.toRooted hplan hpartial).1
  have h₂ := (finalDomain_keeps h₁.sound (hp.mono h₁.ext) hfinal).1
  have happends₂ := (finalDomain_appends h₁.sound (hp.mono h₁.ext) hfinal).1
  obtain ⟨ρ, hfirst⟩ := partialDomain_firstStage hf hplan hpartial
  refine ⟨⟨ρ, hfirst.mono h₁.sound h₁.ext h₂.ext happends₂.axis⟩, ?_⟩
  have hrecorded := fun t ht => hf.sound.recorded t (hp.history t ht)
  obtain ⟨σ, hsecond⟩ := finalDomain_secondStage h₁.sound (hp.mono h₁.ext) (fun t ht => by
      rw [h₁.ext.transform t (hp.history t ht)]
      exact (hf.measured t (hp.history t ht)).mono hf.sound.extents (hrecorded t ht) h₁.ext)
    (fun t ht a hout hkept => by
      rw [h₁.ext.transform t (hp.history t ht)] at hout
      rw [kept_eq hp happends] at hkept
      exact hs.mem_needed.2 ⟨ht, a, hout, mem_withAncestors_self hf.sound hkept⟩) hfinal
  have hremaining : ∀ a ∈ p.remaining, f.HasAxis a := fun a ha =>
    hp.listed a (List.mem_append_right _ (Factoring.mem_remaining.1 ha).1)
  refine ⟨σ, hsecond.unfactored, ?_, hsecond.leaf,
    fun a ha => ⟨hremaining a ha, (hsecond.has a ha).2⟩, fun a ha => ?_, hsecond.extent, ?_⟩
  · rw [hsecond.root, finalKinds_eq hp hf.sound happends h₁.ext]
    refine List.map_congr_left fun q hq => ?_
    rw [h₁.ext.extent q.1 (hp.finalKinds hf.sound q hq)]
  · rw [hsecond.parallel a ha, happends.axis a (hremaining a ha)]
  · rw [← kept_eq hp happends]
    exact hsecond.kept

/-- What the first stage does not reduce is what the second stage starts from. -/
theorem Factoring.FirstStage.finalKinds (h : p.FirstStage f f₁ d ρ) (hext : Extends f f₁) :
    List.Forall₂ (fun b (q : AxisKind × ValueId) => f₁.sameScalar q.2 (f₁.extent b) = true ∧
      (q.1 == .reduction) = (f₁.axis b).isRFactor)
      (((p.frontier f).map ρ).filter fun b => !(f₁.axis b).isReduction)
      ((p.finalKinds f).map fun q => (q.2, f.extent q.1)) := by
  have hlisted : ∀ a ∈ p.frontier f, a ∈ p.listed f := fun a ha => mem_listed.2 (.inr (.inl ha))
  unfold Factoring.finalKinds
  generalize p.frontier f = axes at hlisted ⊢
  induction axes with
  | nil => exact .nil
  | cons a axes ih =>
      have ha := hlisted a List.mem_cons_self
      have hrest := ih fun b hb => hlisted b (List.mem_cons_of_mem a hb)
      have hkind := h.kind a ha
      have hmarked := h.marked a ha
      have hextent := h.extent a ha
      rw [hext.extent a (h.old a ha)] at hextent
      by_cases hr : a ∈ p.rfactored
      · rw [if_pos hr] at hkind
        have hkeep : (f₁.axis (ρ a)).isReduction = false := by rw [Axis.isReduction, hkind]; rfl
        simpa [hr, hkeep, hextent, hmarked] using hrest
      · rw [if_neg hr] at hkind
        have hred : (f₁.axis (ρ a)).isReduction = (f.axis a).isReduction := by
          rw [Axis.isReduction, hkind, Axis.isReduction]
        by_cases hreduced : (f.axis a).isReduction = true
        · simpa [hr, hred, hreduced] using hrest
        · have hother : ((f.axis a).kind == AxisKind.reduction) = false := by
            simpa [Axis.isReduction] using hreduced
          simpa [hr, hred, hreduced, hextent, hmarked, hother] using hrest

/-- The first stage reduces the chosen leaves, as long as nothing that is left leads to them. -/
theorem Factoring.FirstStage.isReduction_leaf (h : p.FirstStage f f₁ d ρ) (hf : Sound f)
    (hs : p.Splits f tensor) (hkept : ∀ a ∈ p.kept f, a ∈ p.rfactored) (ha : a ∈ p.domain.leaf) :
    (f₁.axis (ρ a)).isReduction = true ↔ a ∈ p.chosen := by
  have hkind := h.kind a (mem_listed.2 (.inl ha))
  by_cases hr : a ∈ p.rfactored
  · rw [if_pos hr] at hkind
    have hnot : a ∉ p.chosen := fun hmem =>
      ((hs.rfactored a).1 hr).2 (mem_withAncestors_self hf hmem)
    simp [Axis.isReduction, hkind, hnot]
  · rw [if_neg hr] at hkind
    rw [Axis.isReduction, hkind]
    constructor
    · intro hreduction
      by_contra hnot
      exact hr (hkept a (mem_kept.2 ⟨ha, hreduction, hnot⟩))
    · exact fun hmem => (hs.chosen a hmem).2

end Schedule

namespace Fusion

open Schedule

variable {f f' : Fusion} {tensor out : ValueId}

/-- The two stages of a reduction of which some leaves are factored out. -/
structure Aligned (f : Fusion) (tensor : ValueId) (chosen : List AxisId) (f' : Fusion)
    (out : ValueId) : Prop where
  factored : (f'.view out).domain.rfactor.isSome = true
  roots : List.Forall₂ (fun a b => f'.sameScalar (f'.extent b) (f'.extent a) = true ∧
    (f'.axis b).isReduction = (f'.axis a).isRFactor) (f'.shape out) (f'.view tensor).domain.root
  firsts : List.Forall₂ (fun old new => (f'.axis new).parallel = (f.axis old).parallel ∧
    f'.sameScalar (f'.extent old) (f'.extent new) = true ∧
    ((f'.axis new).isReduction = true ↔ old ∈ chosen)) (f.leaf tensor) (f'.leaf out)
  lasts : List.Forall₂ (fun old new => (f'.axis new).parallel = (f.axis old).parallel ∧
    f'.sameScalar (f'.extent old) (f'.extent new) = true)
    ((f.leaf tensor).filter fun a => !chosen.contains a) (f'.leaf tensor)

/-- All results of an expression are factored together: `out` is among new tensors that take over its
operands and share one domain, and the results are computed from these and share one domain. -/
def FactoredTogether (f : Fusion) (tensor : ValueId) (f' : Fusion) (out : ValueId) : Prop :=
  ∃ x partials, f.definingExpr? tensor = some x ∧ (tensor, out) ∈ x.outputs.zip partials ∧
    partials.length = x.outputs.length ∧
    (∀ v ∈ partials, ¬ f.HasValue v ∧ (f'.view v).domain = (f'.view out).domain ∧
      f'.definingExpr? v = some ⟨x.kind, x.inputs, partials⟩) ∧
    ∀ v ∈ x.outputs, (f'.view v).domain = (f'.view tensor).domain ∧
      f'.definingExpr? v = some ⟨x.kind, partials, x.outputs⟩

/-- Two stages line up. -/
theorem aligned_of_stages {p : Factoring} {d₁ d₂ : TensorDomain} {ρ σ : AxisId → AxisId}
    (hf : Sound f) (hext : Extends f f') (hs : p.Splits f tensor) (hfirst : p.FirstStage f f' d₁ ρ)
    (hsecond : p.SecondStage f f' d₂ σ) (hout : (f'.view out).domain = d₁)
    (htensor : (f'.view tensor).domain = d₂) : Aligned f tensor p.chosen f' out := by
  have hleaf : f.leaf tensor = p.domain.leaf := by
    rw [hs.domain]
    rfl
  have hleaf₁ : f'.leaf out = p.domain.leaf.map ρ := by
    rw [← hfirst.leaf, ← hout]
    rfl
  have hleaf₂ : f'.leaf tensor = p.remaining.map σ := by
    rw [← hsecond.leaf, ← htensor]
    rfl
  refine ⟨?_, ?_, ?_, ?_⟩
  · rw [hout, hfirst.shape]
    rfl
  · have hroots := hfirst.finalKinds hext
    rw [← hsecond.root, described, List.forall₂_map_right_iff] at hroots
    have hshape : f'.shape out =
        ((p.frontier f).map ρ).filter fun b => !(f'.axis b).isReduction := by
      rw [shape, hout, TensorDomain.logical, hfirst.shape]
      rfl
    rw [hshape, htensor]
    exact hroots
  · rw [hleaf, hleaf₁, List.forall₂_map_right_iff, List.forall₂_same]
    intro a ha
    exact ⟨hfirst.parallel a ha, hfirst.extent a (Factoring.mem_listed.2 (.inl ha)),
      hfirst.isReduction_leaf hf hs hsecond.kept ha⟩
  · rw [hleaf, hleaf₂]
    change List.Forall₂ _ p.remaining _
    rw [List.forall₂_map_right_iff, List.forall₂_same]
    exact fun a ha => ⟨hsecond.parallel a ha, hsecond.extent a ha⟩

/-- Every successful factoring of a reduction makes stages that line up. -/
theorem rfactor_aligns {calls : List Call} {axes : List Int} (hcalls : attemptAll calls {} = f)
    (h : (rfactor tensor axes).Returns f out f') :
    ∃ chosen, (∀ a, a ∈ chosen ↔ ∃ axis ∈ axes, ∃ n,
        normalizeAxis axis (f.leaf tensor).length = .ok n ∧ (f.leaf tensor)[n]? = some a) ∧
      Aligned f tensor chosen f' out ∧ FactoredTogether f tensor f' out := by
  have hf : WellKinded f := hcalls ▸ attemptAll_wellKinded calls wellKinded_empty regular_empty
  obtain ⟨p, d₁, f₁, d₂, f₂, x, partials, hexpr, htensor, hplan, hpartial, hfinal, haxes, -, hext,
    hapart, rfl⟩ := rfactor_takesApart hf.sound h
  have hs := plan_splits hplan
  obtain ⟨-, hp⟩ := plan_planned hf.sound hplan
  have h₁ := (partialDomain_keeps hf.sound hp hpartial).1
  have h₂ := h₁.trans (finalDomain_keeps h₁.sound (hp.mono h₁.ext) hfinal).1
  obtain ⟨⟨ρ, hfirst⟩, σ, hsecond⟩ := stages_of_plan hf hplan hpartial hfinal
  have hfirst' := hfirst.mono h₂.sound h₂.ext hext fun a _ => by rw [Fusion.axis, haxes, Fusion.axis]
  have hsecond' := hsecond.mono h₂.sound h₂.ext hext haxes
  -- the new tensor at the position of the tensor among the results
  obtain ⟨n, hn⟩ := Option.isSome_iff_exists.1 (List.isSome_idxOf?.2 htensor)
  have hat : x.outputs[n]? = some tensor := getElem?_of_idxOf? hn
  have hlt : n < partials.length := by
    rw [hapart.length]
    exact (List.getElem?_eq_some_iff.1 hat).1
  have hout : partials[n]? = some (partials.getD ((x.outputs.idxOf? tensor).getD 0) default) := by
    rw [hn, Option.getD_some, List.getD_eq_getElem?_getD, List.getElem?_eq_getElem hlt]
    rfl
  generalize partials.getD ((x.outputs.idxOf? tensor).getD 0) default = out at hout ⊢
  have hmem : out ∈ partials := List.mem_of_getElem? hout
  have hview : (f'.view out).domain = d₁ := by rw [hapart.firsts out hmem]
  refine ⟨p.chosen, fun a => ?_, aligned_of_stages hf.sound (h₂.ext.trans hext) hs hfirst' hsecond'
    hview (hapart.lasts tensor htensor), x, partials, hexpr, ?_, hapart.length, fun v hv => ?_,
    fun v hv => ?_⟩
  · rw [mem_chosenLeaves (plan_chosen hplan)]
    simp
  · refine List.mem_of_getElem? (i := n) ?_
    rw [List.getElem?_zip_eq_some]
    exact ⟨hat, hout⟩
  · refine ⟨fun hold => hapart.new v hv (h₂.ext.hasValue hold), ?_, hapart.operands v hv⟩
    rw [hview, hapart.firsts v hv]
  · rw [hapart.lasts v hv, hapart.lasts tensor htensor]
    exact ⟨rfl, hapart.combines v hv⟩

theorem rowMoments_aligns :
    ∃ f f' chosen, attemptAll rowMoments {} = f ∧ (rfactor ⟨7⟩ [2]).Returns f ⟨13⟩ f' ∧
      Aligned f ⟨7⟩ chosen f' ⟨13⟩ ∧ FactoredTogether f ⟨7⟩ f' ⟨13⟩ := by
  have hrun : (match (rfactor ⟨7⟩ [2]).run.run (attemptAll rowMoments {}) with
      | (.ok ⟨13⟩, _) => true
      | _ => false) = true := by
    decide +kernel
  split at hrun
  case h_2 => cases hrun
  case h_1 f' hfactored =>
      obtain ⟨chosen, -, haligned, htogether⟩ := rfactor_aligns rfl hfactored
      exact ⟨_, f', chosen, rfl, hfactored, haligned, htogether⟩

end Fusion
end FusionCompiler
