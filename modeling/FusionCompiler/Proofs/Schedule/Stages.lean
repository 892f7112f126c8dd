import FusionCompiler.Proofs.Schedule.FactoredShapes

/-!
# The two stages of a factored reduction

The partial tensor of a factored reduction repeats the whole schedule of the reduction
on a copy of its root.  The second stage repeats what is left of the schedule on a
copy of the axes that the partial results are listed by.

Main results:

- Theorem `Schedule.partialDomain_stage`: the domain of the partial tensor.
- Theorem `Schedule.finalDomain_stage`: the domain of the second stage.
- Theorem `Schedule.rfactor_stages`: factoring a reduction makes the two stages of it.
-/

namespace FusionCompiler

open Fusion

namespace Schedule

variable {f g f₁ f₂ : Fusion} {m : AxisMap} {a b : AxisId}

/-! ## Execution of copies -/

/-- Changing how new axes are executed and counted, one after another. -/
theorem Adjoins.foldl_modifyAxis {ρ : AxisId → AxisId} {g : Axis → Axis} {l : List AxisId}
    (h : Adjoins f f₁) (hl : ∀ a ∈ l, ¬ f.HasAxis (ρ a)) (hg : ∀ x, (g x).extent = x.extent) :
    Adjoins f (l.foldl (fun f a => f.modifyAxis (ρ a) g) f₁) := by
  induction l generalizing f₁ with
  | nil => exact h
  | cons a l ih =>
      exact ih (h.modifyAxis (hl a List.mem_cons_self) hg)
        fun b hb => hl b (List.mem_cons_of_mem a hb)

/-- Axes that are made iterations are no reductions, and the others stay what they are. -/
theorem isReduction_foldl_modifyAxis {ρ : AxisId → AxisId} {g : Axis → Axis} {l : List AxisId}
    (hg : ∀ x, (g x).isReduction = false) (hb : f.HasAxis b) :
    ((l.foldl (fun f a => f.modifyAxis (ρ a) g) f).axis b).isReduction =
      (!(l.map ρ).contains b && (f.axis b).isReduction) := by
  induction l generalizing f with
  | nil => simp
  | cons a l ih =>
      have hb' : (f.modifyAxis (ρ a) g).HasAxis b := by
        simpa [HasAxis, size_modifyAxis] using hb
      rw [List.foldl_cons, ih hb', axis_modifyAxis]
      by_cases hab : b = ρ a
      · subst hab
        simp [hb, hg]
      · simp [hab]

theorem copyParallel_adjoins {pairs : List (AxisId × AxisId)} {u : Unit} (hg : Adjoins f f₁)
    (hpairs : ∀ p ∈ pairs, ¬ f.HasAxis p.2) (h : Edit.Gives (copyParallel pairs) f₁ u f₂) :
    Adjoins f f₂ ∧ SameExtents f₁ f₂ ∧ ∀ b, (f₂.axis b).kind = (f₁.axis b).kind := by
  unfold copyParallel at h
  induction pairs generalizing f₁ with
  | nil =>
      obtain ⟨-, rfl⟩ := Edit.gives_pure.1 h
      exact ⟨hg, .refl f₁, fun _ => rfl⟩
  | cons p pairs ih =>
      obtain ⟨_, f₃, hstep, h⟩ := Edit.gives_bind.1 h
      obtain rfl := Edit.gives_modify.1 hstep
      have hone := SameExtents.modifyAxis f₁ p.2
        (g := fun x => { x with parallel := (f₁.axis p.1).parallel }) fun _ => rfl
      obtain ⟨hadjoins, hsame, hkind⟩ := ih
        (hg.modifyAxis (hpairs p List.mem_cons_self)
          (g := fun x => { x with parallel := (f₁.axis p.1).parallel }) fun _ => rfl)
        (fun q hq => hpairs q (List.mem_cons_of_mem p hq)) h
      refine ⟨hadjoins, hone.trans hsame, fun b => ?_⟩
      rw [hkind b, axis_modifyAxis]
      split
      case isTrue hb => rw [hb.1]
      case isFalse => rfl

/-! ## Domains of stages -/

/-- A domain over copies: a history of the fusion `f` is repeated on copies of its root, and the
logical axes are reductions as given. -/
structure Stage (f f₁ : Fusion) (d : TensorDomain) (m : AxisMap) (root logical leaf : List AxisId)
    (ts ts' : List TransformId) (reduces : AxisId → Bool) : Prop where
  root_eq : d.root = root.map (imageOf m)
  logical_eq : d.logical = logical.map (imageOf m)
  leaf_eq : d.leaf = leaf.map (imageOf m)
  renamed : Renamed f f₁ (imageOf m) root ts leaf ts'
  extent : ∀ a ∈ root, f₁.HasAxis (imageOf m a) ∧ f₁.extent (imageOf m a) = f.extent a
  reduces : ∀ a ∈ logical,
    f₁.HasAxis (imageOf m a) ∧ (f₁.axis (imageOf m a)).isReduction = reduces a

/-- Transforms and axes that stay as they are. -/
theorem Stage.congr {d : TensorDomain} {root logical leaf : List AxisId} {ts ts' : List TransformId}
    {reduces : AxisId → Bool} (h : Stage f f₁ d m root logical leaf ts ts' reduces)
    (htransforms : ∀ t, f₁.HasTransform t → f₂.HasTransform t ∧ f₂.transform t = f₁.transform t)
    (haxes : ∀ a, f₁.HasAxis a → f₂.HasAxis a ∧ f₂.axis a = f₁.axis a) :
    Stage f f₂ d m root logical leaf ts ts' reduces where
  root_eq := h.root_eq
  logical_eq := h.logical_eq
  leaf_eq := h.leaf_eq
  renamed := h.renamed.congr htransforms
  extent a ha := by
    obtain ⟨hhas, hextent⟩ := h.extent a ha
    obtain ⟨hhas', hsame⟩ := haxes _ hhas
    exact ⟨hhas', (congrArg Axis.extent hsame).trans hextent⟩
  reduces a ha := by
    obtain ⟨hhas, hreduces⟩ := h.reduces a ha
    obtain ⟨hhas', hsame⟩ := haxes _ hhas
    exact ⟨hhas', (congrArg Axis.isReduction hsame).trans hreduces⟩

/-- Repeating a history on copies of its root that were just made. -/
theorem repeatTransforms_duplicates {tensor : ValueId} {ts : List TransformId}
    {keep : TransformId → Bool} {root leaf : List AxisId} {axes : List (AxisId × AxisKind)}
    {pairs : List (AxisId × AxisId)} (hf : Sound f) (hext : Extends f g)
    (hb : f.Balanced root (ts.filter keep) leaf) (hhas : ∀ t ∈ ts, f.HasTransform t)
    (hred : ∀ t ∈ ts, ∀ b ∈ (f.transform t).outputs, (f.axis b).isReduction = true →
      ∀ a ∈ (f.transform t).inputs, (f.axis a).isReduction = true)
    (hskip : ∀ t ∈ ts, keep t = false → ∃ a ∈ (f.transform t).inputs, a ∉ root ∧
      a ∉ f.outputsOf (ts.filter keep))
    (hroot : axes.map (·.1) = root)
    (hkinds : ∀ p ∈ axes, (f.axis p.1).isReduction = true → p.2 = .reduction)
    (hd : Duplicates g f₁ axes pairs)
    (h : (repeatTransforms tensor ts (.ofPairs pairs)).Returns f₁ m f₂) :
    RepeatsAll f g f₁ root (ts.filter keep) leaf (.ofPairs pairs) (pairs.map (·.2)) [] f₂ m ∧
      pairs.map (·.2) = root.map (imageOf m) ∧
      ∀ p ∈ axes, (f₂.axis (imageOf m p.1)).kind = p.2 ∧
        f₂.extent (imageOf m p.1) = g.extent p.1 := by
  subst hroot
  have hnodup : (axes.map (·.1)).Nodup := (List.nodup_append.1 hb.nodup).1
  have hall := repeatTransforms_copies hf hhas hd.adjoins.sound (hext.trans hd.adjoins.ext)
    hd.adjoins.ext hb hred
    (fun t ht hnot => by
      obtain ⟨a, ha, hnotroot, hnew⟩ := hskip t ht hnot
      exact ⟨a, ha, AxisMap.get?_ofPairs_of_not_mem (hd.map_fst ▸ hnotroot), hnew⟩)
    (fun a ha => by
      obtain ⟨p, hp, rfl⟩ := List.mem_map.1 ha
      obtain ⟨b, hb, hhas, hnew, hkind, -⟩ := hd.exists_copy hnodup hp
      have himage := imageOf_eq hb
      refine ⟨by rw [hb, himage], himage ▸ hhas, himage ▸ hnew, fun h => ?_⟩
      rw [himage, Axis.isReduction, hkind, hkinds p hp h]
      rfl)
    (fun b hb => by
      obtain ⟨p, hp, rfl⟩ := List.mem_map.1 hb
      exact (hd.new p hp).1)
    (by
      rw [hd.map_imageOf hnodup]
      exact Balanced.ofRoot hd.nodup) h
  -- the images of the root stay as they were made
  have hkeep : ∀ a ∈ axes.map (·.1), imageOf m a = imageOf (.ofPairs pairs) a := fun a ha =>
    imageOf_congr (hall.get? a fun hout => (List.nodup_append.1 hb.nodup).2.2 a ha a hout rfl)
  refine ⟨hall, ?_, fun p hp => ?_⟩
  · rw [← hd.map_imageOf hnodup]
    exact (List.map_congr_left hkeep).symm
  · obtain ⟨b, hb, hhas, -, hkind, hextent⟩ := hd.exists_copy hnodup hp
    rw [hkeep p.1 (List.mem_map_of_mem hp), imageOf_eq hb, hall.adjoins.axis _ hhas,
      hall.adjoins.ext.extent _ hhas]
    exact ⟨hkind, hextent⟩

section Stages

variable {f' : Fusion} {p : Factoring} {tensor : ValueId} {d : TensorDomain} (hf : Sound f)
  (hp : p.Splits f tensor) (hs : Separable f p.domain.root p.history p.domain.leaf)

include hf hp hs

/-- The partial tensor repeats the whole schedule, and it iterates over what is kept. -/
theorem partialDomain_stage (hroot : ∀ a ∈ p.domain.root, f.HasAxis a)
    (h : (p.partialDomain tensor).Returns f d f') :
    Adjoins f f' ∧ ∃ m ts', Stage f f' d m p.domain.root (p.frontier f) p.domain.leaf p.history ts'
      fun a => !p.rfactored.contains a && (f.axis a).isReduction := by
  obtain ⟨roots, f₁, m, f₂, u, hcopy, hrepeat, hparallel, rfl⟩ := returns_partialDomain h
  have hd := copyAxes_duplicates hf (fun q hq => by
    obtain ⟨a, ha, rfl⟩ := List.mem_map.1 hq
    exact hroot a ha) hcopy
  have hfilter : p.history.filter (fun _ => true) = p.history :=
    List.filter_eq_self.2 fun _ _ => rfl
  obtain ⟨hall, himages, hcopies⟩ := repeatTransforms_duplicates hf
    (.refl f) (hfilter.symm ▸ hs.balanced) (fun t ht => hs.balanced.has t ht)
    (fun t ht b hb hred a ha => by
      rw [hs.apart t ht a (List.mem_append_left _ ha) b (List.mem_append_right _ hb)]
      exact hred)
    (fun t ht hnot => by cases hnot)
    (by
      rw [List.map_map]
      exact List.map_id _)
    (fun q hq hred => by
      obtain ⟨a, ha, rfl⟩ := List.mem_map.1 hq
      exact beq_iff_eq.1 hred) hd hrepeat
  rw [hfilter] at hall
  have hadjoins := hd.adjoins.trans hall.adjoins
  have hmade := Adjoins.foldl_modifyAxis (ρ := imageOf m) (l := p.rfactored)
    (g := fun x => { x with kind := .iteration, isRFactor := true }) hadjoins
    (fun a ha => (hall.copied a (hp.rfactored_mem_axes hf hs ha)).new) fun _ => rfl
  obtain ⟨hadjoins', hsame, hkind⟩ := copyParallel_adjoins hmade (fun q hq => by
    obtain ⟨a, ha, haq⟩ := List.mem_map.1 (List.of_mem_zip hq).2
    rw [← haq]
    exact (hall.copied a (hs.balanced.leaf_mem_axes ha)).new) hparallel
  have hextents : SameExtents f₂ f' := (SameExtents.foldl (fun g a =>
    SameExtents.modifyAxis g (imageOf m a)
      (g := fun x => { x with kind := .iteration, isRFactor := true }) fun _ => rfl)
    p.rfactored f₂).trans hsame
  obtain ⟨ts', htarget, htransforms⟩ := hall.history
  have hrenamed : Renamed f f₂ (imageOf m) p.domain.root p.history p.domain.leaf ts' :=
    ⟨hs.balanced, himages ▸ htarget, htransforms⟩
  refine ⟨hadjoins', m, ts', himages, rfl, rfl, hrenamed.mono hextents.toExtends, fun a ha => ?_,
    fun a ha => ?_⟩
  · refine ⟨hextents.toExtends.hasAxis (hall.copied a (List.mem_append_left _ ha)).has, ?_⟩
    rw [hextents.extent]
    exact (hcopies (a, (f.axis a).kind) (List.mem_map.2 ⟨a, ha, rfl⟩)).2
  · have hmem := hp.frontier_mem_axes hf hs ha
    have hcopied := hall.copied a hmem
    have himage : (f₂.axis (imageOf m a)).isReduction = (f.axis a).isReduction := by
      cases hred : (f.axis a).isReduction with
      | true => exact hcopied.reduces hred
      | false =>
          have hroot := hp.mem_root_of_frontier hf hs ha hred
          have hcopy := (hcopies (a, (f.axis a).kind) (List.mem_map.2 ⟨a, hroot, rfl⟩)).1
          exact (congrArg (· == AxisKind.reduction) hcopy).trans hred
    have hcontains : (p.rfactored.map (imageOf m)).contains (imageOf m a) =
        p.rfactored.contains a := by
      rw [Bool.eq_iff_iff, List.contains_iff_mem, List.contains_iff_mem, List.mem_map]
      refine ⟨?_, fun hr => ⟨a, hr, rfl⟩⟩
      rintro ⟨b, hb, hba⟩
      exact hrenamed.injOn (hp.rfactored_mem_axes hf hs hb) hmem hba ▸ hb
    have hlast : (f'.axis (imageOf m a)).isReduction = _ :=
      (congrArg (· == AxisKind.reduction) (hkind (imageOf m a))).trans
        (isReduction_foldl_modifyAxis (fun _ => rfl) hcopied.has)
    exact ⟨hextents.toExtends.hasAxis hcopied.has, by rw [hlast, hcontains, himage]⟩

/-- More axes and transforms do not change what the second stage starts from. -/
theorem finalKinds_of_adjoins (hroot : ∀ a ∈ p.domain.root, f.HasAxis a) (hg : Adjoins f f₁) :
    p.finalKinds f₁ = p.finalKinds f := by
  have hfrontier : p.frontier f₁ = p.frontier f := by
    unfold Factoring.frontier
    refine List.foldl_ext _ _ _ fun axes t ht => ?_
    rw [hg.ext.transform t (hs.balanced.has t (hp.mem_needed.1 ht).1)]
  unfold Factoring.finalKinds
  rw [hfrontier]
  refine List.filterMap_congr fun a ha => ?_
  rw [hg.axis a (hs.balanced.hasAxis hf hroot (hp.frontier_mem_axes hf hs ha))]

/-- The second stage repeats the rest of the schedule on what the partial results are listed by. -/
theorem finalDomain_stage (hroot : ∀ a ∈ p.domain.root, f.HasAxis a) (hg : Adjoins f f₁)
    (h : (p.finalDomain tensor).Returns f₁ d f') :
    Adjoins f₁ f' ∧ ∃ m ts', Stage f f' d m (p.between f) (p.between f)
      (p.domain.leaf.filter fun a => !p.chosen.contains a) (p.history.filter (sparesReductions f))
      ts' fun a => (f.axis a).isReduction := by
  have hbetween : ∀ a ∈ p.between f, a ∈ p.frontier f := fun a ha => (List.mem_filter.1 ha).1
  have hhas : ∀ a ∈ p.between f, f.HasAxis a := fun a ha =>
    hs.balanced.hasAxis hf hroot (hp.frontier_mem_axes hf hs (hbetween a ha))
  have hkinds := finalKinds_of_adjoins hf hp hs hroot hg
  obtain ⟨roots, f₁', m, f₂, u, hcopy, hrepeat, -, hparallel, rfl⟩ := returns_finalDomain h
  rw [hkinds] at hcopy
  have hkeys : (p.finalKinds f).map (·.1) = p.between f := Factoring.map_fst_finalKinds
  have hd := copyAxes_duplicates hg.sound (fun q hq => hg.ext.hasAxis (hhas q.1 (by
    rw [← hkeys]
    exact List.mem_map_of_mem hq))) hcopy
  have hfilter := hp.filter_rest hf hs
  have hrest : ∀ t ∈ p.history.filter (fun t => !p.needed.contains t), t ∈ p.history :=
    fun t ht => (List.mem_filter.1 ht).1
  have hskip : ∀ t ∈ p.history.filter (fun t => !p.needed.contains t),
      sparesReductions f t = false → ∃ a ∈ (f.transform t).inputs, a ∉ p.between f ∧
        a ∉ f.outputsOf ((p.history.filter fun t => !p.needed.contains t).filter
          (sparesReductions f)) := by
    -- a transform of reductions needs an axis that the partial tensor has reduced
    intro t ht hnot
    obtain ⟨a, ha⟩ := List.exists_mem_of_ne_nil _ (f.transform t).inputs_ne_nil
    have hred := hs.isReduction_eq (hrest t ht) (List.mem_append_left _ ha)
    rw [hnot] at hred
    refine ⟨a, ha, fun hmem => ?_, fun hout => ?_⟩
    · rcases (hp.mem_between hf hs).1 hmem with hkept | ⟨-, hplain⟩
      · exact hs.balanced.not_mem_inputs (Factoring.mem_kept.1 hkept).1 (hrest t ht) ha
      · rw [hred] at hplain
        cases hplain
    · rw [hfilter, mem_outputsOf,
        hs.exists_spared_iff Transform.outputs fun _ _ => List.mem_append_right _] at hout
      rw [hout.2] at hred
      cases hred
  have hreduces : ∀ q ∈ p.finalKinds f, (f.axis q.1).isReduction = true → q.2 = .reduction := by
    intro q hq hred
    rcases Factoring.mem_finalKinds hq with ⟨-, hreduction⟩ | ⟨hplain, -⟩
    · exact hreduction
    · rw [hred] at hplain
      cases hplain
  obtain ⟨hall, himages, hcopies⟩ := repeatTransforms_duplicates hf hg.ext
    (hfilter.symm ▸ hp.second_balanced hf hs) (fun t ht => hs.balanced.has t (hrest t ht))
    (fun t ht b hb hred a ha => by
      rw [hs.apart t (hrest t ht) a (List.mem_append_left _ ha) b (List.mem_append_right _ hb)]
      exact hred)
    hskip hkeys hreduces hd hrepeat
  rw [hfilter] at hall
  have hremaining : ∀ a ∈ p.domain.leaf.filter (fun a => !p.chosen.contains a),
      Copied f f₁ f₂ m a := fun a ha =>
    hall.copied a ((hp.second_balanced hf hs).leaf_mem_axes ha)
  obtain ⟨hadjoins, hsame, hkind⟩ := copyParallel_adjoins (hd.adjoins.trans hall.adjoins)
    (fun q hq => by
      obtain ⟨a, ha, haq⟩ := List.mem_map.1 (List.of_mem_zip hq).2
      rw [← haq]
      exact (hremaining a ha).new) hparallel
  obtain ⟨ts', htarget, htransforms⟩ := hall.history
  have hrenamed : Renamed f f₂ (imageOf m) (p.between f) (p.history.filter (sparesReductions f))
      (p.domain.leaf.filter fun a => !p.chosen.contains a) ts' :=
    ⟨hp.second_balanced hf hs, himages ▸ htarget, htransforms⟩
  have hfinal : ∀ a ∈ p.between f, ∃ q ∈ p.finalKinds f, q.1 = a := fun a ha =>
    List.mem_map.1 (hkeys ▸ ha)
  have hcopied : ∀ a ∈ p.between f, f'.HasAxis (imageOf m a) := fun a ha =>
    hsame.toExtends.hasAxis (hall.copied a (List.mem_append_left _ ha)).has
  refine ⟨hadjoins, m, ts', himages, himages, rfl, hrenamed.mono hsame.toExtends, fun a ha => ?_,
    fun a ha => ?_⟩
  · refine ⟨hcopied a ha, ?_⟩
    obtain ⟨q, hq, rfl⟩ := hfinal a ha
    rw [hsame.extent, (hcopies q hq).2]
    exact hg.ext.extent q.1 (hhas q.1 ha)
  · refine ⟨hcopied a ha, ?_⟩
    obtain ⟨q, hq, rfl⟩ := hfinal a ha
    rw [Axis.isReduction, hkind, (hcopies q hq).1]
    rcases Factoring.mem_finalKinds hq with ⟨hr, hreduction⟩ | ⟨hred, hsamekind⟩
    · have hkept := (hp.mem_rfactored_iff hf hs (hbetween q.1 ha)).1 hr
      rw [hreduction, (Factoring.mem_kept.1 hkept).2.1]
      rfl
    · rw [hsamekind]
      rfl

end Stages

/-! ## Factoring -/

/-- Factoring a reduction with one result makes two reductions of it. -/
theorem rfactor_stages {tensor out : ValueId} {positions : List Int} {kind : ExprKind}
    {ins : List ValueId} (hf : Sound f)
    (hdef : f.definingExpr? tensor = some ⟨kind, ins, [tensor]⟩)
    (hs : Separable f (f.view tensor).domain.root (f.history tensor) (f.leaf tensor))
    (h : (rfactor tensor positions).Returns f out f₁) :
    f₁.definingExpr? out = some ⟨kind, ins, [out]⟩ ∧
      f₁.definingExpr? tensor = some ⟨kind, [out], [tensor]⟩ ∧
      ∃ p : Factoring, p.Splits f tensor ∧
        (∃ m ts', Stage f f₁ (f₁.view out).domain m p.domain.root (p.frontier f) p.domain.leaf
          p.history ts' fun a => !p.rfactored.contains a && (f.axis a).isReduction) ∧
        ∃ m ts', Stage f f₁ (f₁.view tensor).domain m (p.between f) (p.between f)
          (p.domain.leaf.filter fun a => !p.chosen.contains a)
          (p.history.filter (sparesReductions f)) ts' fun a => (f.axis a).isReduction := by
  obtain ⟨p, d₁, f₂, d₂, f₃, x, partials, hexpr, -, hplan, hpartial, hfinal, haxes, -, hext,
    hapart, rfl⟩ := rfactor_takesApart hf h
  cases hdef.symm.trans hexpr
  obtain ⟨new, rfl⟩ := List.length_eq_one_iff.1 hapart.length
  have hout : [new].getD (([tensor].idxOf? tensor).getD 0) default = new := by
    simp [List.idxOf?, List.findIdx?_cons]
  have hnew := List.mem_singleton_self new
  have htensor := List.mem_singleton_self tensor
  have hp := plan_splits hplan
  have hs' : Separable f p.domain.root p.history p.domain.leaf := by
    rw [hp.domain, hp.history]
    exact hs
  have hroot : ∀ a ∈ p.domain.root, f.HasAxis a := by
    intro a ha
    rw [hp.domain] at ha
    exact hf.domains tensor a (by simp [TensorDomain.listed, ha])
  obtain ⟨h₁, m₁, ts₁, hfirst⟩ := partialDomain_stage hf hp hs' hroot hpartial
  obtain ⟨h₂, m₂, ts₂, hsecond⟩ := finalDomain_stage hf hp hs' hroot h₁ hfinal
  have htransform : ∀ t, f₃.HasTransform t → f₁.HasTransform t ∧ f₁.transform t = f₃.transform t :=
    fun t ht => ⟨hext.hasTransform ht, hext.transform t ht⟩
  have haxis : ∀ a, f₃.HasAxis a → f₁.HasAxis a ∧ f₁.axis a = f₃.axis a :=
    fun a ha => ⟨hext.hasAxis ha, by rw [axis, haxes, axis]⟩
  rw [hout]
  refine ⟨hapart.operands new hnew, hapart.combines tensor htensor, p, hp, ⟨m₁, ts₁, ?_⟩,
    ⟨m₂, ts₂, ?_⟩⟩
  · rw [hapart.firsts new hnew]
    exact (hfirst.congr (fun t ht => ⟨h₂.ext.hasTransform ht, h₂.ext.transform t ht⟩)
      fun a ha => ⟨h₂.ext.hasAxis ha, h₂.axis a ha⟩).congr htransform haxis
  · rw [hapart.lasts tensor htensor]
    exact hsecond.congr htransform haxis

end Schedule
end FusionCompiler
