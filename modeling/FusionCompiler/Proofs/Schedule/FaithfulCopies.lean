import FusionCompiler.Proofs.Fusion.Lookalikes
import FusionCompiler.Proofs.Schedule.InheritedKinds

/-!
# Faithful copies

Repeating transforms on copies of axes gives images to the axes they make.  Where
the transforms give the axes their kinds and extents, they give the images the same
kinds, and extents that look alike.  Different axes have different images.

Main results:

- Theorem `Schedule.repeatTransforms_pairs`: what passes from the inputs of a
  transform to its outputs holds of every axis and its image.
- Theorem `Schedule.repeatTransforms_injective`: different axes have different images.
- Theorem `Schedule.repeatTransforms_lookalikes`: images have extents that look like
  those of the axes.
- Theorem `Schedule.repeatTransforms_kinds`: images have the kinds of the axes.
- Theorem `Schedule.copyParallel_copies`: copies of axes get the executions of the
  axes.
-/

namespace FusionCompiler

namespace Fusion

variable {f f' : Fusion} {ρ : AxisId → AxisId} {x : Transform}

/-! ## Transforms with other names for their axes -/

/-- Copies of the inputs of a transform make copies of its outputs. -/
theorem KindsFollow.rename (h : f.KindsFollow x) (h' : f.KindsFollow (x.rename ρ))
    (hin : ∀ a ∈ x.inputs, (f.axis (ρ a)).kind = (f.axis a).kind) :
    ∀ a ∈ x.outputs, (f.axis (ρ a)).kind = (f.axis a).kind := by
  cases x with
  | split a o i k innerSplit =>
      have ha := hin a (by simp [Transform.inputs])
      intro b hb
      rcases List.mem_pair.1 hb with rfl | rfl
      · rw [h'.1, h.1, ha]
      · rw [h'.2, h.2, ha]
  | merge o i out =>
      have ho := hin o (by simp [Transform.inputs])
      have hi := hin i (by simp [Transform.inputs])
      intro b hb
      rw [List.mem_singleton.1 hb]
      rw [Transform.rename, KindsFollow, ho, hi, h] at h'
      exact (Option.some.inj h').symm

/-- Inputs with extents that look alike make outputs with extents that look alike. -/
theorem Measured.rename (hx : f.Recorded x) (hx' : f.Recorded (x.rename ρ)) (h : f.Measured x)
    (h' : f.Measured (x.rename ρ))
    (hin : ∀ a ∈ x.inputs, f.Lookalike (f.extent a) (f.extent (ρ a))) :
    ∀ a ∈ x.outputs, f.Lookalike (f.extent a) (f.extent (ρ a)) := by
  cases x with
  | split a o i k innerSplit =>
      have ha := hin a (by simp [Transform.inputs])
      obtain ⟨-, -, -, -, hfactor⟩ := hx
      obtain ⟨-, -, -, -, hfactor'⟩ := hx'
      have hquotient := Lookalike.ofEvaluates h h' ha (.refl k)
      intro b hb
      cases innerSplit with
      | true =>
          rcases List.mem_pair.1 hb with rfl | rfl
          · exact hquotient
          · rw [hfactor.1, hfactor'.1]
            exact .refl k
      | false =>
          rcases List.mem_pair.1 hb with rfl | rfl
          · rw [hfactor.1, hfactor'.1]
            exact .refl k
          · exact hquotient
  | merge o i out =>
      intro b hb
      rw [List.mem_singleton.1 hb]
      exact .ofEvaluates h h' (hin o (by simp [Transform.inputs]))
        (hin i (by simp [Transform.inputs]))

end Fusion

open Fusion

namespace Schedule

variable {f f' f₁ : Fusion} {tensor : ValueId} {m m' : AxisMap} {ts : List TransformId}
  {t : TransformId} {a b : AxisId}

/-! ## Axes and their images -/

/-- A transform is repeated if its inputs have images, and nothing happens otherwise. -/
theorem repeatTransform_renames_or (hf : Sound f) (ht : f.HasTransform t) (hm : f.Images m)
    (h : (repeatTransform tensor t m).Returns f m' f') :
    (m' = m ∧ f' = f) ∨
      ((∀ a ∈ (f.transform t).inputs, m.get? a = some (imageOf m' a)) ∧
        Renames f (f.transform t) m f' m') := by
  by_cases hin : ∃ a ∈ (f.transform t).inputs, m.get? a = none
  · obtain ⟨a, ha, hnone⟩ := hin
    exact .inl (repeatTransform_eq_self ha hnone h)
  · have hsome : ∀ a ∈ (f.transform t).inputs, ∃ b, m.get? a = some b ∧ f.HasAxis b := by
      intro a ha
      obtain ⟨b, hb⟩ := Option.ne_none_iff_exists'.1 fun hnone => hin ⟨a, ha, hnone⟩
      exact ⟨b, hb, hm.get? hb⟩
    have hrenames := repeatTransform_renames hf ht hsome h
    refine .inr ⟨fun a ha => ?_, hrenames⟩
    have hnot : a ∉ (f.transform t).outputs := fun hmem =>
      absurd ((hf.recorded t ht).input_lt_output ha hmem) (Nat.lt_irrefl _)
    obtain ⟨b, hb, -⟩ := hsome a ha
    rw [imageOf_eq ((hrenames.get? a hnot).trans hb), hb]

/-- What passes from the inputs of a transform to its outputs, and holds at the start, holds of every
axis and its image. -/
theorem repeatTransforms_pairs {Q : AxisId → AxisId → Prop} (hf : Sound f)
    (hts : ∀ t ∈ ts, f.HasTransform t) (hm : f.Images m) (hstart : ∀ a b, m.get? a = some b → Q a b)
    (hpass : ∀ t ∈ ts, ∀ s (ρ : AxisId → AxisId), ¬ f.HasTransform s → f'.HasTransform s →
      f'.transform s = (f.transform t).rename ρ →
      (∀ b ∈ (f'.transform s).outputs, (f'.axis b).isRFactor = false) →
      (∀ a ∈ (f.transform t).inputs, Q a (ρ a)) → ∀ a ∈ (f.transform t).outputs, Q a (ρ a))
    (h : (repeatTransforms tensor ts m).Returns f m' f') : ∀ a b, m'.get? a = some b → Q a b := by
  induction ts generalizing f m with
  | nil =>
      obtain ⟨rfl, rfl⟩ := EditE.returns_pure.1 h
      exact hstart
  | cons t ts ih =>
      obtain ⟨m₁, f₁, hstep, h⟩ := EditE.returns_bind.1 h
      have ht := hts t List.mem_cons_self
      have hlater : ∀ s ∈ ts, f.HasTransform s := fun s hs => hts s (List.mem_cons_of_mem t hs)
      obtain ⟨hkeeps, hm₁⟩ := repeatTransform_keeps hf ht hm hstep
      have hlater₁ : ∀ s ∈ ts, f₁.HasTransform s := fun s hs => hkeeps.ext.hasTransform (hlater s hs)
      have hrest := (repeatTransforms_keeps hkeeps.sound hlater₁ hm₁ h).1.ext
      refine ih hkeeps.sound hlater₁ hm₁ ?_ (fun s hs r ρ hnot hr htransform => ?_) h
      · obtain ⟨rfl, rfl⟩ | ⟨hin, hrenames⟩ := repeatTransform_renames_or hf ht hm hstep
        · exact hstart
        have hlast : f'.transform ⟨f.transforms.size⟩ = (f.transform t).rename (imageOf m₁) := by
          rw [hrest.transform _ (by simp [HasTransform, hrenames.records.transforms]),
            hrenames.records.transform_last]
        have hhas : f'.HasTransform ⟨f.transforms.size⟩ :=
          hrest.hasTransform (by simp [HasTransform, hrenames.records.transforms])
        have hunmarked : ∀ b ∈ (f'.transform ⟨f.transforms.size⟩).outputs,
            (f'.axis b).isRFactor = false := by
          intro b hb
          rw [hlast] at hb
          rw [(repeatTransforms_axes hkeeps.sound hlater₁ hm₁ h).1 b
            (hrenames.records.recorded.hasAxis_output hb)]
          exact hrenames.records.unmarked b hb
        have hnew := hpass t List.mem_cons_self _ (imageOf m₁) (Nat.lt_irrefl _) hhas hlast hunmarked
          fun a ha => hstart a _ (hin a ha)
        intro a b hab
        by_cases ha : a ∈ (f.transform t).outputs
        · rw [← imageOf_eq hab]
          exact hnew a ha
        · rw [hrenames.get? a ha] at hab
          exact hstart a b hab
      · rw [hkeeps.ext.transform s (hlater s hs)] at htransform ⊢
        exact hpass s (List.mem_cons_of_mem t hs) r ρ (fun hold => hnot (hkeeps.ext.hasTransform hold))
          hr htransform

/-- Different axes have different images. -/
theorem repeatTransforms_injective (hf : Sound f) (hts : ∀ t ∈ ts, f.HasTransform t)
    (hm : f.Images m) (hstart : ∀ a b c, m.get? a = some c → m.get? b = some c → a = b)
    (h : (repeatTransforms tensor ts m).Returns f m' f') :
    ∀ a b c, m'.get? a = some c → m'.get? b = some c → a = b := by
  induction ts generalizing f m with
  | nil =>
      obtain ⟨rfl, rfl⟩ := EditE.returns_pure.1 h
      exact hstart
  | cons t ts ih =>
      obtain ⟨m₁, f₁, hstep, h⟩ := EditE.returns_bind.1 h
      have ht := hts t List.mem_cons_self
      obtain ⟨hkeeps, hm₁⟩ := repeatTransform_keeps hf ht hm hstep
      refine ih hkeeps.sound
        (fun s hs => hkeeps.ext.hasTransform (hts s (List.mem_cons_of_mem t hs))) hm₁ ?_ h
      obtain ⟨rfl, rfl⟩ | ⟨-, hrenames⟩ := repeatTransform_renames_or hf ht hm hstep
      · exact hstart
      have hnodup := hrenames.records.nodup
      rw [Transform.outputs_rename] at hnodup
      -- the images of the outputs are new
      have hfresh : ∀ {a c}, a ∈ (f.transform t).outputs → m₁.get? a = some c → ¬ f.HasAxis c := by
        intro a c ha hc
        rw [← imageOf_eq hc]
        refine hrenames.records.fresh _ ?_
        rw [Transform.outputs_rename]
        exact List.mem_map_of_mem ha
      have hold : ∀ {a c}, a ∉ (f.transform t).outputs → m₁.get? a = some c → f.HasAxis c := by
        intro a c ha hc
        rw [hrenames.get? a ha] at hc
        exact hm.get? hc
      intro a b c hac hbc
      by_cases ha : a ∈ (f.transform t).outputs
      · by_cases hb : b ∈ (f.transform t).outputs
        · exact List.inj_on_of_nodup_map hnodup ha hb ((imageOf_eq hac).trans (imageOf_eq hbc).symm)
        · exact absurd (hold hb hbc) (hfresh ha hac)
      · by_cases hb : b ∈ (f.transform t).outputs
        · exact absurd (hold ha hac) (hfresh hb hbc)
        · rw [hrenames.get? a ha] at hac
          rw [hrenames.get? b hb] at hbc
          exact hstart a b c hac hbc

/-- Images get the kinds of the axes they stand for. -/
theorem repeatTransforms_kinds (hf : Sound f) (hts : ∀ t ∈ ts, f.HasTransform t)
    (hm : f.Images m) (hkinds : ∀ t ∈ ts, f.KindsFollow (f.transform t))
    (hstart : ∀ a b, m.get? a = some b → f.HasAxis a ∧ (f.axis b).kind = (f.axis a).kind)
    (h : (repeatTransforms tensor ts m).Returns f m' f') :
    ∀ a b, m'.get? a = some b → (f'.axis b).kind = (f'.axis a).kind := by
  have hk := repeatTransforms_keepsKinds hf hts hm h
  refine repeatTransforms_pairs hf hts hm (fun a b hab => ?_) (fun t ht s ρ hnot hs hρ _ hin => ?_) h
  · obtain ⟨ha, hab'⟩ := hstart a b hab
    rw [hk.kind b (hm.get? hab), hk.kind a ha, hab']
  · have hold : f'.KindsFollow (f.transform t) := (hkinds t ht).congr fun a ha =>
      hk.kind a ((hf.recorded t (hts t ht)).hasAxis ha)
    have hnew := (hk.new s hnot hs).1
    rw [hρ] at hnew
    exact hold.rename hnew hin

/-- Images have extents that look like those of the axes they stand for. -/
theorem repeatTransforms_lookalikes (hf : Sound f) (hts : ∀ t ∈ ts, f.HasTransform t)
    (hm : f.Images m) (hmeasured : ∀ t ∈ ts, f.Measured (f.transform t))
    (hstart : ∀ a b, m.get? a = some b → f.HasAxis a ∧ f.extent b = f.extent a)
    (h : (repeatTransforms tensor ts m).Returns f m' f') :
    ∀ a b, m'.get? a = some b → f'.Lookalike (f'.extent a) (f'.extent b) := by
  have hk := repeatTransforms_keepsKinds hf hts hm h
  refine repeatTransforms_pairs hf hts hm (fun a b hab => ?_) (fun t ht s ρ hnot hs hρ _ hin => ?_) h
  · obtain ⟨ha, hab'⟩ := hstart a b hab
    rw [hk.ext.extent b (hm.get? hab), hk.ext.extent a ha, hab']
    exact .refl _
  · have hrecorded := hf.recorded t (hts t ht)
    have hold := (hmeasured t ht).mono hf.extents hrecorded hk.ext
    have hnew := (hk.new s hnot hs).2
    have hrecorded' := hk.sound.recorded s hs
    rw [hρ] at hnew hrecorded'
    exact hold.rename (hrecorded.mono hf.extents hk.ext) hrecorded' hnew hin

/-- Images are not marked as parts of a factored reduction. -/
theorem repeatTransforms_unmarked (hf : Sound f) (hts : ∀ t ∈ ts, f.HasTransform t)
    (hm : f.Images m) (hstart : ∀ a b, m.get? a = some b → (f.axis b).isRFactor = false)
    (h : (repeatTransforms tensor ts m).Returns f m' f') :
    ∀ a b, m'.get? a = some b → (f'.axis b).isRFactor = false := by
  refine repeatTransforms_pairs hf hts hm (fun a b hab => ?_)
    (fun t _ s ρ _ _ hρ hunmarked _ a ha => ?_) h
  · rw [(repeatTransforms_axes hf hts hm h).1 b (hm.get? hab)]
    exact hstart a b hab
  · rw [hρ, Transform.outputs_rename] at hunmarked
    exact hunmarked _ (List.mem_map_of_mem ha)

/-! ## Executions -/

/-- Axes that are changed one after another are changed once, if a second change does nothing. -/
theorem axis_foldl_modifyAxis_eq {ρ : AxisId → AxisId} {g : Axis → Axis} {l : List AxisId}
    (hg : ∀ x, g (g x) = g x) (hb : f.HasAxis b) :
    (l.foldl (fun f a => f.modifyAxis (ρ a) g) f).axis b =
      if b ∈ l.map ρ then g (f.axis b) else f.axis b := by
  induction l generalizing f with
  | nil => simp
  | cons a l ih =>
      have hb' : (f.modifyAxis (ρ a) g).HasAxis b := by
        simpa [HasAxis, size_modifyAxis] using hb
      rw [List.foldl_cons, ih hb', axis_modifyAxis]
      by_cases hab : b = ρ a
      · subst hab
        simp [hb, hg]
      · simp [hab]

/-- Copying executions to other axes changes one axis at most once. -/
theorem axis_copyParallel {pairs : List (AxisId × AxisId)} {u : Unit}
    (hapart : ∀ p ∈ pairs, ∀ q ∈ pairs, q.2 ≠ p.1) (hb : f.HasAxis b)
    (h : Edit.Gives (copyParallel pairs) f u f') :
    (b ∉ pairs.map (·.2) ∧ f'.axis b = f.axis b) ∨
      ∃ p ∈ pairs, p.2 = b ∧ f'.axis b = { f.axis b with parallel := (f.axis p.1).parallel } := by
  unfold copyParallel at h
  induction pairs generalizing f with
  | nil =>
      obtain ⟨-, rfl⟩ := Edit.gives_pure.1 h
      exact .inl ⟨by simp, rfl⟩
  | cons p pairs ih =>
      obtain ⟨_, f₁, hstep, h⟩ := Edit.gives_bind.1 h
      obtain rfl := Edit.gives_modify.1 hstep
      have hsource : ∀ q ∈ pairs, ((f.modifyAxis p.2
          fun x => { x with parallel := (f.axis p.1).parallel }).axis q.1) = f.axis q.1 := by
        intro q hq
        rw [axis_modifyAxis, if_neg]
        rintro ⟨heq, -⟩
        exact hapart q (List.mem_cons_of_mem p hq) p List.mem_cons_self heq.symm
      have hb' : (f.modifyAxis p.2
          fun x => { x with parallel := (f.axis p.1).parallel }).HasAxis b := by
        simpa [HasAxis, size_modifyAxis] using hb
      rcases ih (fun q hq r hr => hapart q (List.mem_cons_of_mem p hq) r (List.mem_cons_of_mem p hr))
        hb' h with ⟨hnot, hsame⟩ | ⟨q, hq, rfl, hsame⟩
      · by_cases heq : p.2 = b
        · subst heq
          refine .inr ⟨p, List.mem_cons_self, rfl, ?_⟩
          rw [hsame, axis_modifyAxis, if_pos ⟨rfl, hb⟩]
        · refine .inl ⟨by simpa [heq, Ne.symm heq] using hnot, ?_⟩
          rw [hsame, axis_modifyAxis, if_neg fun h => heq h.1.symm]
      · refine .inr ⟨q, List.mem_cons_of_mem p hq, rfl, ?_⟩
        rw [hsame, hsource q hq, axis_modifyAxis]
        split
        case isTrue heq => rw [heq.1]
        case isFalse => rfl

/-- A list of axes beside other names for them. -/
theorem mem_zip_map {ρ : AxisId → AxisId} {l : List AxisId} {q : AxisId × AxisId} :
    q ∈ l.zip (l.map ρ) ↔ q.1 ∈ l ∧ q.2 = ρ q.1 := by
  rw [← List.map_prod_left_eq_zip]
  refine ⟨fun hq => ?_, fun hq => List.mem_map.2 ⟨q.1, hq.1, Prod.ext rfl hq.2.symm⟩⟩
  obtain ⟨a, ha, rfl⟩ := List.mem_map.1 hq
  exact ⟨ha, rfl⟩

/-- Copies of different axes get the executions of the axes, and nothing else changes. -/
theorem copyParallel_copies {axes : List AxisId} {ρ : AxisId → AxisId} {u : Unit}
    (hapart : ∀ a ∈ axes, ∀ b ∈ axes, ρ b ≠ a)
    (hinjective : ∀ a ∈ axes, ∀ b ∈ axes, ρ a = ρ b → a = b)
    (h : Edit.Gives (copyParallel (axes.zip (axes.map ρ))) f u f') :
    (∀ b, f.HasAxis b → (f'.axis b).isRFactor = (f.axis b).isRFactor) ∧
      ∀ a ∈ axes, f.HasAxis (ρ a) → (f'.axis (ρ a)).parallel = (f.axis a).parallel := by
  have hcopied := fun b (hb : f.HasAxis b) => axis_copyParallel (fun q hq r hr => by
    obtain ⟨hq, -⟩ := mem_zip_map.1 hq
    obtain ⟨hr, hrq⟩ := mem_zip_map.1 hr
    rw [hrq]
    exact hapart q.1 hq r.1 hr) hb h
  constructor
  · intro b hb
    rcases hcopied b hb with ⟨-, hsame⟩ | ⟨q, -, -, hsame⟩
    · rw [hsame]
    · rw [hsame]
  · intro a ha hhas
    rcases hcopied (ρ a) hhas with ⟨hnot, -⟩ | ⟨q, hq, hqa, hsame⟩
    · exact absurd (List.mem_map.2 ⟨(a, ρ a), mem_zip_map.2 ⟨ha, rfl⟩, rfl⟩) hnot
    · obtain ⟨hq, hq'⟩ := mem_zip_map.1 hq
      rw [hsame, hinjective q.1 hq a ha (hq'.symm.trans hqa)]

end Schedule
end FusionCompiler
