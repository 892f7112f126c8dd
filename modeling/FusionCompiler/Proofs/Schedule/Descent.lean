import FusionCompiler.Proofs.Schedule.Factoring
import FusionCompiler.Proofs.Schedule.OwningStages

/-!
# Descent from a root

An axis descends from a root if it is a root axis, or if a transform makes it from
axes that do.  Where no transform makes a root axis, whatever a walk backwards
from descending axes meets descends as well, and the walk ends in the root.  So
repeating a whole history on copies of the root gives an image to every axis of
the history.

Main results:

- Theorem `Fusion.Descends.mono`: descent outlives further steps.
- Theorem `Fusion.Unmade.history_descends`: the axes of a history descend.
- Theorem `Fusion.Unmade.mem_axesOfHistory`: the leaves and their ancestors are axes
  of the history.
- Theorem `Schedule.repeatTransforms_contains`: a repeated history gives all its
  axes images.
- Theorem `Schedule.repeatTransforms_descends`: the images descend from the copies
  of the root.
-/

namespace FusionCompiler

namespace Fusion

variable {f f' : Fusion} {root start goal leaf : List AxisId} {a b : AxisId} {t : TransformId}

/-- A root axis descends from the root, and so does an axis that a transform makes from axes that
do. -/
inductive Descends (f : Fusion) (root : List AxisId) : AxisId → Prop where
  | root {a : AxisId} (ha : a ∈ root) : Descends f root a
  | made {t : TransformId} {a : AxisId} (ht : f.HasTransform t)
      (ha : a ∈ (f.transform t).outputs)
      (hin : ∀ b ∈ (f.transform t).inputs, Descends f root b) : Descends f root a

/-- Descent outlives further steps. -/
theorem Descends.mono (h : f.Descends root a) (hext : Extends f f') : f'.Descends root a := by
  induction h with
  | root ha => exact .root ha
  | made ht ha hin ih =>
      rw [← hext.transform _ ht] at ha ih
      exact .made (hext.hasTransform ht) ha ih

/-- What a recorded transform makes of descending axes descends. -/
theorem Records.descends {x : Transform} (h : Records f f' x)
    (hin : ∀ a ∈ x.inputs, f.Descends root a) (hb : b ∈ x.outputs) : f'.Descends root b := by
  have hhas : f'.HasTransform ⟨f.transforms.size⟩ := by
    rw [HasTransform, h.transforms, Array.size_push]
    exact Nat.lt_succ_self _
  rw [← h.transform_last] at hin hb
  exact .made hhas hb fun a ha => (hin a ha).mono h.ext

/-! ## Walks over all transforms -/

/-- Every transform, in creation order. -/
def allTransforms (f : Fusion) : List TransformId :=
  (List.range f.transforms.size).map TransformId.mk

theorem mem_allTransforms : t ∈ f.allTransforms ↔ f.HasTransform t := by
  unfold allTransforms HasTransform
  rw [List.mem_map]
  constructor
  · rintro ⟨i, hi, rfl⟩
    exact List.mem_range.1 hi
  · intro ht
    exact ⟨t.index, List.mem_range.2 ht, rfl⟩

theorem allTransforms_sorted (f : Fusion) :
    f.allTransforms.Pairwise fun s t => s.index < t.index := by
  unfold allTransforms
  rw [List.pairwise_map]
  exact List.pairwise_lt_range

theorem zipIdx_transforms (f : Fusion) :
    f.transforms.toList.zipIdx = f.allTransforms.map fun t => (f.transform t, t.index) := by
  unfold allTransforms
  apply List.ext_getElem
  · simp
  · intro i hi hi'
    have hsize : i < f.transforms.size := by simpa using hi
    simp [transform, Array.getD_eq_getD_getElem?, Array.getElem?_eq_getElem hsize]

/-- A walk backwards visits all transforms, the latest first. -/
theorem foldr_zipIdx_transforms (f : Fusion) (start : List AxisId) (w : Trace) :
    f.transforms.toList.zipIdx.foldr (fun (x, i) w => traceStep start ⟨i⟩ x w) w =
      f.allTransforms.foldr (fun t w => traceStep start t (f.transform t) w) w := by
  rw [zipIdx_transforms, List.foldr_map]

/-- The walk that finds a history. -/
def walk (f : Fusion) (start goal : List AxisId) : Trace :=
  f.allTransforms.foldr (fun t w => traceStep start t (f.transform t) w) ⟨goal, []⟩

theorem transformsBetween_eq_walk (f : Fusion) (start goal : List AxisId) :
    f.transformsBetween start goal = (f.walk start goal).found := by
  unfold transformsBetween
  exact congrArg Trace.found (foldr_zipIdx_transforms f start ⟨goal, []⟩)

theorem withAncestors_eq_walk (f : Fusion) (goal : List AxisId) :
    Schedule.withAncestors f goal = (f.walk [] goal).wanted := by
  unfold Schedule.withAncestors
  exact congrArg Trace.wanted (foldr_zipIdx_transforms f [] ⟨goal, []⟩)

/-- What holds of wanted axes at the start of a walk, and of the inputs of every transform that
makes one, holds of all wanted axes. -/
theorem walk_wanted (P : AxisId → Prop) (hgoal : ∀ a ∈ goal, P a)
    (hstep : ∀ t, f.HasTransform t → ∀ b ∈ (f.transform t).outputs, P b →
      ∀ a ∈ (f.transform t).inputs, P a) : ∀ a ∈ (f.walk start goal).wanted, P a := by
  unfold walk
  refine List.foldrRecOn (motive := fun w : Trace => ∀ a ∈ w.wanted, P a) _ _ hgoal
    fun w hw t ht a ha => ?_
  unfold traceStep at ha
  split at ha
  case isTrue hcond =>
      obtain ⟨b, hb, hwant⟩ := List.any_eq_true.1 hcond
      have hb' : b ∈ w.wanted := by
        simp only [Bool.and_eq_true, List.contains_eq_mem, decide_eq_true_eq] at hwant
        exact hwant.1
      rcases List.mem_append.1 ha with hin | hold
      · exact hstep t (mem_allTransforms.1 ht) b hb (hw b hb') a hin
      · exact hw a hold
  case isFalse => exact hw a ha

/-- The transforms of a history are in creation order. -/
theorem transformsBetween_sorted (hf : Sound f) (start goal : List AxisId) :
    (f.transformsBetween start goal).Pairwise fun s t => s.index < t.index := by
  rw [transformsBetween_eq_walk]
  obtain ⟨hsub, -⟩ := foldr_traceStep_spec hf start goal f.allTransforms_sorted
    fun t ht => mem_allTransforms.1 ht
  exact f.allTransforms_sorted.sublist hsub

/-- What a history leads to: goals, and what its transforms consume. -/
theorem mem_wanted (hf : Sound f) : a ∈ (f.walk start goal).wanted ↔
    a ∈ goal ∨ ∃ t ∈ f.transformsBetween start goal, a ∈ (f.transform t).inputs := by
  rw [transformsBetween_eq_walk]
  exact (foldr_traceStep_spec hf start goal f.allTransforms_sorted
    fun t ht => mem_allTransforms.1 ht).2.1 a

/-- A transform is part of a history if it makes something that the history leads to. -/
theorem mem_transformsBetween (hf : Sound f) (ht : f.HasTransform t)
    (ha : a ∈ (f.transform t).outputs) (hstart : a ∉ start)
    (huse : a ∈ goal ∨ ∃ s ∈ f.transformsBetween start goal, a ∈ (f.transform s).inputs) :
    t ∈ f.transformsBetween start goal := by
  have hwant : a ∈ (f.walk start goal).wanted := (mem_wanted hf).2 huse
  rw [transformsBetween_eq_walk]
  exact (foldr_traceStep_spec hf start goal f.allTransforms_sorted
    fun t ht => mem_allTransforms.1 ht).2.2 t (mem_allTransforms.2 ht) a ha hwant hstart

/-! ## Roots that are not made -/

/-- No transform makes an axis of the root. -/
def Unmade (f : Fusion) (root : List AxisId) : Prop :=
  ∀ a ∈ root, ¬ f.Made a

namespace Unmade

variable (hf : Sound f) (hroot : f.Unmade root)

include hf hroot

/-- What makes a descending axis consumes descending axes. -/
theorem inputs_descend (ht : f.HasTransform t) (hb : b ∈ (f.transform t).outputs)
    (h : f.Descends root b) : ∀ a ∈ (f.transform t).inputs, f.Descends root a := by
  cases h with
  | root hmem => exact absurd ⟨t, ht, hb⟩ (hroot b hmem)
  | made hs hb' hin => rwa [hf.eq_of_produces ht hs hb hb']

/-- The axes of a history that leads to descending axes descend. -/
theorem history_descends (hgoal : ∀ a ∈ goal, f.Descends root a)
    (ht : t ∈ f.transformsBetween start goal) :
    ∀ a ∈ (f.transform t).inputs ++ (f.transform t).outputs, f.Descends root a := by
  have hhas := hasTransform_of_mem_transformsBetween ht
  have hwanted : ∀ a ∈ (f.walk start goal).wanted, f.Descends root a :=
    walk_wanted _ hgoal fun s hs b hb hd => hroot.inputs_descend hf hs hb hd
  have hin : ∀ a ∈ (f.transform t).inputs, f.Descends root a := fun a ha =>
    hwanted a ((mem_wanted hf).2 (.inr ⟨t, ht, ha⟩))
  intro a ha
  rcases List.mem_append.1 ha with ha | ha
  · exact hin a ha
  · exact .made hhas ha hin

/-- What a history from the root leads to starts in the root or is made on the way. -/
theorem mem_axesOfHistory (hgoal : ∀ a ∈ goal, f.Descends root a)
    (huse : a ∈ goal ∨ ∃ t ∈ f.transformsBetween root goal, a ∈ (f.transform t).inputs) :
    a ∈ root ∨ ∃ t ∈ f.transformsBetween root goal, a ∈ (f.transform t).outputs := by
  have hdescends : f.Descends root a := by
    rcases huse with ha | ⟨t, ht, ha⟩
    · exact hgoal a ha
    · exact hroot.history_descends hf hgoal ht a (List.mem_append_left _ ha)
  by_cases hmem : a ∈ root
  · exact .inl hmem
  · cases hdescends with
    | root ha => exact absurd ha hmem
    | made ht ha _ => exact .inr ⟨_, mem_transformsBetween hf ht ha hmem huse, ha⟩

/-- The ancestors of leaves are leaves or are consumed along the history of all leaves. -/
theorem mem_of_mem_withAncestors (hgoal : ∀ a ∈ goal, a ∈ leaf)
    (ha : a ∈ Schedule.withAncestors f goal) :
    a ∈ leaf ∨ ∃ t ∈ f.transformsBetween root leaf, a ∈ (f.transform t).inputs := by
  rw [withAncestors_eq_walk] at ha
  refine walk_wanted (fun a => a ∈ leaf ∨ ∃ t ∈ f.transformsBetween root leaf,
    a ∈ (f.transform t).inputs) (fun a ha => .inl (hgoal a ha)) (fun t ht b hb huse a hin => ?_) a ha
  have hnot : b ∉ root := fun hmem => hroot b hmem ⟨t, ht, hb⟩
  exact .inr ⟨t, mem_transformsBetween hf ht hb hnot huse, hin⟩

end Unmade

end Fusion

open Fusion

namespace Schedule

variable {f f' : Fusion} {m m' : AxisMap} {tensor : ValueId} {t : TransformId}
  {ts : List TransformId} {root : List AxisId} {a : AxisId}

/-! ## Repeating a history -/

/-- What repeating one transform can do: nothing, if an input has no image; or record a transform
over images of its inputs, and give images to its outputs. -/
inductive Repeated (f : Fusion) (m : AxisMap) (x : Transform) : Fusion → AxisMap → Prop
  | idle (hnone : ∃ a ∈ x.inputs, m.contains a = false) : Repeated f m x f m
  | recorded {y : Transform} {f' : Fusion} {m' : AxisMap} (hrec : Records f f' y)
      (hin : ∀ a ∈ y.inputs, a ∈ m.images) (hout : ∀ a ∈ x.outputs, m'.contains a = true)
      (himages : ∀ b ∈ m'.images, b ∈ m.images ∨ b ∈ y.outputs) : Repeated f m x f' m'

theorem contains_eq_false (h : m.get? a = none) : m.contains a = false := by
  by_contra hne
  obtain ⟨b, hb⟩ := AxisMap.contains_iff.1 (by simpa using hne)
  rw [h] at hb
  cases hb

theorem contains_insert_self (m : AxisMap) (a b : AxisId) : (m.insert a b).contains a = true := by
  rw [AxisMap.contains_iff, AxisMap.get?_insert, if_pos rfl]
  exact ⟨b, rfl⟩

theorem repeatTransform_repeated (hf : Sound f) (ht : f.HasTransform t) (hm : f.Images m)
    (h : (repeatTransform tensor t m).Returns f m' f') : Repeated f m (f.transform t) f' m' := by
  unfold repeatTransform at h
  obtain ⟨f₀, f₁, hget, h⟩ := EditE.returns_bind.1 h
  obtain ⟨rfl, rfl⟩ := EditE.returns_get.1 hget
  have hrecorded := hf.recorded t ht
  split at h
  case h_1 input outer inner factor innerSplit hx =>
      rw [hx] at hrecorded ⊢
      split at h
      case h_1 hnone =>
          obtain ⟨rfl, rfl⟩ := EditE.returns_pure.1 h
          exact .idle ⟨input, by simp [Transform.inputs], contains_eq_false hnone⟩
      case h_2 image himage =>
          obtain ⟨⟨o, i⟩, f₁, hsplit, h⟩ := EditE.returns_bind.1 h
          obtain ⟨rfl, rfl⟩ := EditE.returns_pure.1 h
          have hrec := splitAxis_records hf (hm.get? himage) hrecorded.2.2.2.1 hsplit
          refine .recorded hrec (fun a ha => ?_) (fun a ha => ?_) fun b hb => ?_
          · rw [Transform.inputs, List.mem_singleton] at ha
            rw [ha]
            exact AxisMap.mem_images_of_get? himage
          · rcases List.mem_pair.1 ha with rfl | rfl
            · exact AxisMap.contains_insert (contains_insert_self m _ o)
            · exact contains_insert_self _ _ i
          · rcases AxisMap.mem_images_insert hb with rfl | hb
            · exact .inr (by simp [Transform.outputs])
            rcases AxisMap.mem_images_insert hb with rfl | hb
            · exact .inr (by simp [Transform.outputs])
            · exact .inl hb
  case h_2 outer inner output hx =>
      rw [hx]
      split at h
      case h_1 o i ho hi =>
          simp only [EditE.returns_bind, EditE.returns_mapError, EditE.returns_pure] at h
          obtain ⟨out, f₁, hmerge, rfl, rfl⟩ := h
          have hrec := mergeAxes_records hf (hm.get? ho) (hm.get? hi) hmerge
          refine .recorded hrec (fun a ha => ?_) (fun a ha => ?_) fun b hb => ?_
          · rcases List.mem_pair.1 ha with rfl | rfl
            · exact AxisMap.mem_images_of_get? ho
            · exact AxisMap.mem_images_of_get? hi
          · rw [Transform.outputs, List.mem_singleton] at ha
            rw [ha]
            exact contains_insert_self m _ out
          · rcases AxisMap.mem_images_insert hb with rfl | hb
            · exact .inr (by simp [Transform.outputs])
            · exact .inl hb
      case h_2 hnone =>
          obtain ⟨rfl, rfl⟩ := EditE.returns_pure.1 h
          cases ho : m.get? outer with
          | none => exact .idle ⟨outer, by simp [Transform.inputs], contains_eq_false ho⟩
          | some o =>
              cases hi : m.get? inner with
              | none => exact .idle ⟨inner, by simp [Transform.inputs], contains_eq_false hi⟩
              | some i => exact absurd hi (hnone o i ho)

/-- Where every axis that a history consumes has an image or is made by the history, repeating it
gives all axes that it makes images. -/
theorem repeatTransforms_contains (hf : Sound f) (hts : ∀ t ∈ ts, f.HasTransform t)
    (hsorted : ts.Pairwise fun s t => s.index < t.index) (hm : f.Images m)
    (hclosed : ∀ t ∈ ts, ∀ a ∈ (f.transform t).inputs,
      m.contains a = true ∨ ∃ s ∈ ts, a ∈ (f.transform s).outputs)
    (h : (repeatTransforms tensor ts m).Returns f m' f') :
    ∀ t ∈ ts, ∀ a ∈ (f.transform t).outputs, m'.contains a = true := by
  induction ts generalizing f m with
  | nil => simp
  | cons t ts ih =>
      obtain ⟨m₁, f₁, hstep, hlater⟩ := EditE.returns_bind.1 h
      obtain ⟨hfirst, hsorted⟩ := List.pairwise_cons.1 hsorted
      have ht := hts t List.mem_cons_self
      have hts' : ∀ s ∈ ts, f.HasTransform s := fun s hs => hts s (List.mem_cons_of_mem t hs)
      obtain ⟨hkeeps, hm₁⟩ := repeatTransform_keeps hf ht hm hstep
      have hext := hkeeps.ext
      -- the first transform consumes nothing that a later one makes
      have hready : ∀ a ∈ (f.transform t).inputs, m.contains a = true := by
        intro a ha
        rcases hclosed t List.mem_cons_self a ha with hmem | ⟨s, hs, hout⟩
        · exact hmem
        · have hlt := hf.index_lt_of_consumes (hts s hs) ht hout ha
          rcases List.mem_cons.1 hs with rfl | hs
          · omega
          · have := hfirst s hs
            omega
      have houtputs : ∀ a ∈ (f.transform t).outputs, m₁.contains a = true := by
        cases repeatTransform_repeated hf ht hm hstep with
        | idle hnone =>
            obtain ⟨a, ha, hno⟩ := hnone
            rw [hready a ha] at hno
            cases hno
        | recorded _ _ hout _ => exact hout
      have hts₁ : ∀ s ∈ ts, f₁.HasTransform s := fun s hs => hext.hasTransform (hts' s hs)
      have hsame : ∀ s ∈ ts, f₁.transform s = f.transform s := fun s hs =>
        hext.transform s (hts' s hs)
      have hrest := ih hkeeps.sound hts₁ hsorted hm₁ (fun s hs a ha => ?_) hlater
      · intro s hs a ha
        rcases List.mem_cons.1 hs with rfl | hs
        · exact (repeatTransforms_images hkeeps.sound hts₁ hm₁ hlater).1 a (houtputs a ha)
        · exact hrest s hs a (hsame s hs ▸ ha)
      · rw [hsame s hs] at ha
        rcases hclosed s (List.mem_cons_of_mem t hs) a ha with hmem | ⟨r, hr, hout⟩
        · exact .inl (repeatTransform_contains hstep hmem)
        · rcases List.mem_cons.1 hr with rfl | hr
          · exact .inl (houtputs a hout)
          · exact .inr ⟨r, hr, (hsame r hr).symm ▸ hout⟩

/-- Images of descending axes descend. -/
theorem repeatTransforms_descends (hf : Sound f) (hts : ∀ t ∈ ts, f.HasTransform t)
    (hm : f.Images m) (hdescends : ∀ b ∈ m.images, f.Descends root b)
    (h : (repeatTransforms tensor ts m).Returns f m' f') :
    ∀ b ∈ m'.images, f'.Descends root b := by
  induction ts generalizing f m with
  | nil =>
      obtain ⟨rfl, rfl⟩ := EditE.returns_pure.1 h
      exact hdescends
  | cons t ts ih =>
      obtain ⟨m₁, f₁, hstep, h⟩ := EditE.returns_bind.1 h
      have ht := hts t List.mem_cons_self
      obtain ⟨hkeeps, hm₁⟩ := repeatTransform_keeps hf ht hm hstep
      refine ih hkeeps.sound (fun s hs => hkeeps.ext.hasTransform (hts s (List.mem_cons_of_mem t hs)))
        hm₁ (fun b hb => ?_) h
      cases repeatTransform_repeated hf ht hm hstep with
      | idle _ => exact hdescends b hb
      | recorded hrec hin _ himages =>
          rcases himages b hb with hold | hnew
          · exact (hdescends b hold).mono hrec.ext
          · exact hrec.descends (fun a ha => hdescends a (hin a ha)) hnew

end Schedule
end FusionCompiler
