import FusionCompiler.Proofs.Fusion.AxisMap
import FusionCompiler.Proofs.Schedule.Staging

/-!
# Schedules repeated on copies

Factoring a reduction copies axes and repeats transforms on the copies.  A copy has
the extent of the axis it stands for.  What is repeated does to the copies what a
history does to the axes: it leads from the copies of a root to the copies of the
leaves, and it is the history with other names for its axes.  A transform that
consumes an axis without a copy is left out.

Main results:

- Theorem `Schedule.copyAxes_duplicates`: copying axes adds one new axis for each.
- Theorem `Schedule.repeatTransforms_copies`: the transforms that are repeated are a
  history with other names for its axes.
-/

namespace FusionCompiler

/-! ## Other names for axes -/

/-- A transform with other names for its axes. -/
def Transform.rename (ρ : AxisId → AxisId) : Transform → Transform
  | .split a o i k innerSplit => .split (ρ a) (ρ o) (ρ i) k innerSplit
  | .merge o i out => .merge (ρ o) (ρ i) (ρ out)

namespace Transform

variable {ρ σ : AxisId → AxisId} {x : Transform}

/-- A renamed transform reads renamed axes. -/
@[simp]
theorem inputs_rename (ρ : AxisId → AxisId) (x : Transform) :
    (x.rename ρ).inputs = x.inputs.map ρ := by
  cases x <;> rfl

/-- A renamed transform makes renamed axes. -/
@[simp]
theorem outputs_rename (ρ : AxisId → AxisId) (x : Transform) :
    (x.rename ρ).outputs = x.outputs.map ρ := by
  cases x <;> rfl

/-- A renaming matters only on the axes of the transform. -/
theorem rename_congr (h : ∀ a ∈ x.inputs ++ x.outputs, ρ a = σ a) : x.rename ρ = x.rename σ := by
  cases x with
  | split a o i k innerSplit =>
      simp only [rename, h a (by simp [inputs]), h o (by simp [outputs]), h i (by simp [outputs])]
  | merge o i out =>
      simp only [rename, h o (by simp [inputs]), h i (by simp [inputs]), h out (by simp [outputs])]

end Transform

namespace AxisMap

variable {pairs : List (AxisId × AxisId)} {a : AxisId}

/-- What is in no pair has no image. -/
theorem get?_ofPairs_of_not_mem (h : a ∉ pairs.map (·.1)) : (ofPairs pairs).get? a = none :=
  get?_insertAll_of_not_mem (m := {}) h

/-- Pairs with distinct first axes are what their map says. -/
theorem get?_ofPairs (h : (pairs.map (·.1)).Nodup) {p : AxisId × AxisId} (hp : p ∈ pairs) :
    (ofPairs pairs).get? p.1 = some p.2 := by
  have hlength : (pairs.map (·.1)).length = (pairs.map (·.2)).length := by
    simp
  have hmap := map_get?_insertAll (m := {}) h hlength
  have hzip : (pairs.map (·.1)).zip (pairs.map (·.2)) = pairs := by
    simp [List.zip_map']
  rw [hzip, List.map_map, List.map_map] at hmap
  exact List.map_inj_left.1 hmap p hp

end AxisMap

namespace Fusion

variable {f f₁ f₂ f₃ : Fusion}

/-- The later fusion has more scalars, axes and transforms, and what there was is as before. -/
structure Adjoins (f f₁ : Fusion) : Prop where
  sound : Sound f₁
  ext : Extends f f₁
  view : ∀ v, f₁.view v = f.view v
  axis : ∀ a, f.HasAxis a → f₁.axis a = f.axis a
  definition : ∀ v, f.HasValue v → f₁.definition v = f.definition v
  definingExpr : ∀ v, f.HasValue v → f₁.definingExpr? v = f.definingExpr? v

namespace Adjoins

/-- Nothing is added. -/
protected theorem refl (hf : Sound f) : Adjoins f f :=
  ⟨hf, .refl f, fun _ => rfl, fun _ _ => rfl, fun _ _ => rfl, fun _ _ => rfl⟩

/-- Additions one after another. -/
protected theorem trans (h : Adjoins f₁ f₂) (h' : Adjoins f₂ f₃) : Adjoins f₁ f₃ where
  sound := h'.sound
  ext := h.ext.trans h'.ext
  view v := (h'.view v).trans (h.view v)
  axis a ha := (h'.axis a (h.ext.hasAxis ha)).trans (h.axis a ha)
  definition v hv := (h'.definition v (h.ext.hasValue hv)).trans (h.definition v hv)
  definingExpr v hv := (h'.definingExpr v (h.ext.hasValue hv)).trans (h.definingExpr v hv)

/-- Changing how a new axis is executed and counted. -/
theorem modifyAxis (h : Adjoins f f₁) {b : AxisId} (hb : ¬ f.HasAxis b) {g : Axis → Axis}
    (hg : ∀ x, (g x).extent = x.extent) : Adjoins f (f₁.modifyAxis b g) := by
  have hsame := SameExtents.modifyAxis f₁ b hg
  have hflow := SameFlow.ofExtents hsame
  refine ⟨h.sound.sameExtents hsame, h.ext.trans hsame.toExtends, fun v => ?_, fun a ha => ?_,
    fun v hv => ?_, fun v hv => ?_⟩
  · rw [hsame.view, h.view]
  · rw [axis_modifyAxis, if_neg, h.axis a ha]
    rintro ⟨rfl, -⟩
    exact hb ha
  · rw [hflow.definition, h.definition v hv]
  · rw [hsame.definingExpr?, h.definingExpr v hv]

end Adjoins

/-- A history of another fusion that is the same up to the names of its axes. -/
structure Renamed (f f₁ : Fusion) (ρ : AxisId → AxisId) (root : List AxisId)
    (ts : List TransformId) (leaf : List AxisId) (ts' : List TransformId) : Prop where
  source : f.Balanced root ts leaf
  target : f₁.Balanced (root.map ρ) ts' (leaf.map ρ)
  transforms : ts'.map f₁.transform = ts.map fun t => (f.transform t).rename ρ

namespace Renamed

variable {ρ : AxisId → AxisId} {root leaf : List AxisId} {ts ts' : List TransformId}

/-- Every transform has its counterpart. -/
theorem exists_transform (h : Renamed f f₁ ρ root ts leaf ts') {t : TransformId} (ht : t ∈ ts) :
    ∃ t' ∈ ts', f₁.transform t' = (f.transform t).rename ρ := by
  have hmem : (f.transform t).rename ρ ∈ ts'.map f₁.transform := by
    rw [h.transforms]
    exact List.mem_map.2 ⟨t, ht, rfl⟩
  exact List.mem_map.1 hmem

/-- Transforms that stay as they are. -/
theorem congr (h : Renamed f f₁ ρ root ts leaf ts')
    (hkeep : ∀ t, f₁.HasTransform t → f₂.HasTransform t ∧ f₂.transform t = f₁.transform t) :
    Renamed f f₂ ρ root ts leaf ts' := by
  have hsame : ∀ t ∈ ts', f₂.transform t = f₁.transform t :=
    fun t ht => (hkeep t (h.target.has t ht)).2
  refine ⟨h.source, ⟨h.target.sorted, fun t ht => (hkeep t (h.target.has t ht)).1, ?_, ?_⟩,
    h.transforms ▸ List.map_congr_left hsame⟩
  · rw [Balanced.outputsOf_congr hsame]
    exact h.target.nodup
  · rw [Balanced.outputsOf_congr hsame, Balanced.inputsOf_congr hsame]
    exact h.target.perm

/-- Renamed transforms stay so in later fusions. -/
theorem mono (h : Renamed f f₁ ρ root ts leaf ts') (hext : Extends f₁ f₂) :
    Renamed f f₂ ρ root ts leaf ts' :=
  h.congr fun t ht => ⟨hext.hasTransform ht, hext.transform t ht⟩

/-- Different axes along a history have different names. -/
theorem injOn (h : Renamed f f₁ ρ root ts leaf ts') {a b : AxisId}
    (ha : a ∈ root ++ f.outputsOf ts) (hb : b ∈ root ++ f.outputsOf ts) (hab : ρ a = ρ b) :
    a = b := by
  have hout : f₁.outputsOf ts' = (f.outputsOf ts).map ρ := by
    have hflat := congrArg (List.flatMap Transform.outputs) h.transforms
    simp only [List.flatMap_map, Transform.outputs_rename] at hflat
    rw [outputsOf, hflat, outputsOf, List.map_flatMap]
  have hnodup := h.target.nodup
  rw [hout, ← List.map_append] at hnodup
  exact List.inj_on_of_nodup_map hnodup ha hb hab

end Renamed

/-- A recorded transform is an addition. -/
theorem Records.adjoins {x : Transform} (h : Records f f₁ x) : Adjoins f f₁ :=
  ⟨h.sound, h.ext, h.view, h.axis, h.definition, h.definingExpr⟩

end Fusion

open Fusion

namespace Schedule

variable {f g f₁ f₂ : Fusion} {m m' : AxisMap} {a : AxisId}

/-! ## Copies of axes -/

/-- One new axis for each of several axes, with the same extent and a kind of its own. -/
structure Duplicates (f f₁ : Fusion) (axes : List (AxisId × AxisKind))
    (pairs : List (AxisId × AxisId)) : Prop where
  adjoins : Adjoins f f₁
  kinds : (pairs.map fun p => (p.1, (f₁.axis p.2).kind)) = axes
  nodup : (pairs.map (·.2)).Nodup
  new : ∀ p ∈ pairs, f₁.HasAxis p.2 ∧ ¬ f.HasAxis p.2
  extent : ∀ p ∈ pairs, f₁.extent p.2 = f.extent p.1
  unmarked : ∀ p ∈ pairs, (f₁.axis p.2).isRFactor = false

/-- A copy of an axis. -/
theorem freshAxis_duplicates {b : AxisId} {kind : AxisKind} (hf : Sound f) (ha : f.HasAxis a)
    (h : Edit.Gives (freshAxis a kind) f b f₁) : Duplicates f f₁ [(a, kind)] [(a, b)] := by
  unfold freshAxis Edit.copyAxis at h
  simp only [Edit.gives_bind, Edit.gives_get, Edit.gives_addAxis, Edit.gives_modify,
    Edit.gives_pure] at h
  obtain ⟨c, f₁, ⟨f₀, f₂, ⟨rfl, rfl⟩, rfl, rfl⟩, _, f₃, rfl, rfl, rfl⟩ := h
  have hpush := Builds.pushAxis (x := { f.axis a with origin := none, isRFactor := false })
    hf (hf.extents a ha)
  have hflow := SameFlow.pushAxis f { f.axis a with origin := none, isRFactor := false }
  have hadjoins : Adjoins f (f.pushAxis { f.axis a with origin := none, isRFactor := false }) :=
    ⟨hpush.sound, hpush.ext, fun _ => rfl, hpush.axis, fun v _ => hflow.definition v,
      fun _ _ => rfl⟩
  have hnew : ¬ f.HasAxis ⟨f.axes.size⟩ := Nat.lt_irrefl _
  have hhas : (f.pushAxis { f.axis a with origin := none, isRFactor := false }).HasAxis
      ⟨f.axes.size⟩ := by
    simp [HasAxis]
  refine ⟨hadjoins.modifyAxis hnew fun _ => rfl, ?_, List.nodup_singleton _, ?_, ?_, ?_⟩
  · simp [axis_modifyAxis, hhas]
  · simp only [List.mem_singleton, forall_eq]
    exact ⟨by simp [HasAxis], hnew⟩
  · simp only [List.mem_singleton, forall_eq, Fusion.extent, axis_modifyAxis, hhas, and_self,
      if_true, axis_pushAxis]
  · simp only [List.mem_singleton, forall_eq, axis_modifyAxis, hhas, and_self, if_true,
      axis_pushAxis]

/-- Copying axes adds one new axis for each. -/
theorem copyAxes_duplicates {axes : List (AxisId × AxisKind)} {pairs : List (AxisId × AxisId)}
    (hf : Sound f) (haxes : ∀ p ∈ axes, f.HasAxis p.1) (h : Edit.Gives (copyAxes axes) f pairs f₁) :
    Duplicates f f₁ axes pairs := by
  induction axes generalizing f pairs with
  | nil =>
      obtain ⟨rfl, rfl⟩ := Edit.gives_pure.1 h
      exact ⟨.refl hf, rfl, List.nodup_nil, by simp, by simp, by simp⟩
  | cons p axes ih =>
      unfold copyAxes at h
      simp only [Edit.gives_bind, Edit.gives_pure] at h
      obtain ⟨b, f₂, hb, pairs, f₃, hpairs, rfl, rfl⟩ := h
      have hone := freshAxis_duplicates hf (haxes p List.mem_cons_self) hb
      have hrest := ih hone.adjoins.sound
        (fun q hq => hone.adjoins.ext.hasAxis (haxes q (List.mem_cons_of_mem p hq))) hpairs
      obtain ⟨hhas, hnew⟩ := hone.new (p.1, b) List.mem_cons_self
      refine ⟨hone.adjoins.trans hrest.adjoins, ?_, ?_, fun q hq => ?_, fun q hq => ?_,
        fun q hq => ?_⟩
      · have hkind : [(p.1, (f₂.axis b).kind)] = [p] := hone.kinds
        rw [List.map_cons, hrest.kinds, hrest.adjoins.axis b hhas, (List.cons.inj hkind).1]
      · refine List.nodup_cons.2 ⟨fun hmem => ?_, hrest.nodup⟩
        obtain ⟨q, hq, rfl⟩ := List.mem_map.1 hmem
        exact (hrest.new q hq).2 hhas
      · rcases List.mem_cons.1 hq with rfl | hq
        · exact ⟨hrest.adjoins.ext.hasAxis hhas, hnew⟩
        · exact ⟨(hrest.new q hq).1, fun hold => (hrest.new q hq).2 (hone.adjoins.ext.hasAxis hold)⟩
      · rcases List.mem_cons.1 hq with rfl | hq
        · exact (hrest.adjoins.ext.extent b hhas).trans (hone.extent (p.1, b) List.mem_cons_self)
        · rw [hrest.extent q hq]
          refine hone.adjoins.ext.extent q.1 (haxes (q.1, (f₃.axis q.2).kind) ?_)
          refine List.mem_cons_of_mem p (hrest.kinds ▸ List.mem_map.2 ⟨q, hq, rfl⟩)
      · rcases List.mem_cons.1 hq with rfl | hq
        · rw [hrest.adjoins.axis b hhas]
          exact hone.unmarked (p.1, b) List.mem_cons_self
        · exact hrest.unmarked q hq

/-! ## Copies of transforms -/

/-- An axis of the fusion `f` has an image that came in after `g`, and it is a reduction if the axis
is one. -/
structure Copied (f g f₁ : Fusion) (m : AxisMap) (a : AxisId) : Prop where
  image : m.get? a = some (imageOf m a)
  has : f₁.HasAxis (imageOf m a)
  new : ¬ g.HasAxis (imageOf m a)
  reduces : (f.axis a).isReduction = true → (f₁.axis (imageOf m a)).isReduction = true

/-- The image of an axis depends on its own entry only. -/
theorem imageOf_congr (h : m'.get? a = m.get? a) : imageOf m' a = imageOf m a := by
  rw [imageOf, h, imageOf]

/-- A copy stays one in later fusions and larger maps. -/
theorem Copied.mono (h : Copied f g f₁ m a) (hg : Adjoins f₁ f₂) (hm : m'.get? a = m.get? a) :
    Copied f g f₂ m' a := by
  have himage := imageOf_congr hm
  refine ⟨by rw [hm, h.image, himage], ?_, ?_, fun hred => ?_⟩
  · rw [himage]
    exact hg.ext.hasAxis h.has
  · rw [himage]
    exact h.new
  · rw [himage, hg.axis _ h.has]
    exact h.reduces hred

namespace Duplicates

variable {axes : List (AxisId × AxisKind)} {pairs : List (AxisId × AxisId)}
  (h : Duplicates g f₁ axes pairs) (hnodup : (axes.map (·.1)).Nodup)

include h

/-- Copies are paired with the axes that they copy. -/
theorem map_fst : pairs.map (·.1) = axes.map (·.1) := by
  rw [← h.kinds, List.map_map]
  rfl

include hnodup

/-- The map of copies knows the copies. -/
theorem get? {p : AxisId × AxisId} (hp : p ∈ pairs) :
    (AxisMap.ofPairs pairs).get? p.1 = some p.2 :=
  AxisMap.get?_ofPairs (h.map_fst ▸ hnodup) hp

/-- The images of the axes are their copies. -/
theorem map_imageOf : (axes.map (·.1)).map (imageOf (.ofPairs pairs)) = pairs.map (·.2) := by
  rw [← h.map_fst, List.map_map]
  exact List.map_congr_left fun p hp => imageOf_eq (h.get? hnodup hp)

/-- Every axis has a copy, of the kind that is asked for. -/
theorem exists_copy {p : AxisId × AxisKind} (hp : p ∈ axes) : ∃ b,
    (AxisMap.ofPairs pairs).get? p.1 = some b ∧ f₁.HasAxis b ∧ ¬ g.HasAxis b ∧
      (f₁.axis b).kind = p.2 ∧ f₁.extent b = g.extent p.1 := by
  rw [← h.kinds] at hp
  obtain ⟨q, hq, rfl⟩ := List.mem_map.1 hp
  obtain ⟨hhas, hnew⟩ := h.new q hq
  exact ⟨q.2, h.get? hnodup hq, hhas, hnew, rfl, h.extent q hq⟩

end Duplicates

/-- A transform that consumes an axis without an image is not repeated. -/
theorem repeatTransform_eq_self {tensor : ValueId} {t : TransformId}
    (ha : a ∈ (f.transform t).inputs) (hnone : m.get? a = none)
    (h : (repeatTransform tensor t m).Returns f m' f₁) : m' = m ∧ f₁ = f := by
  unfold repeatTransform at h
  obtain ⟨f₀, f₂, hget, h⟩ := EditE.returns_bind.1 h
  obtain ⟨rfl, rfl⟩ := EditE.returns_get.1 hget
  split at h
  case h_1 input outer inner factor innerSplit hx =>
      rw [hx, Transform.inputs, List.mem_singleton] at ha
      rw [← ha, hnone] at h
      obtain ⟨rfl, rfl⟩ := EditE.returns_pure.1 h
      exact ⟨rfl, rfl⟩
  case h_2 outer inner output hx =>
      split at h
      case h_1 o i ho hi =>
          rw [hx, Transform.inputs] at ha
          rcases List.mem_pair.1 ha with rfl | rfl
          · rw [hnone] at ho
            cases ho
          · rw [hnone] at hi
            cases hi
      case h_2 =>
          obtain ⟨rfl, rfl⟩ := EditE.returns_pure.1 h
          exact ⟨rfl, rfl⟩

/-- What repeating a transform of axes that have images does: it records the transform with other
names for its axes, and gives its outputs images. -/
structure Renames (f : Fusion) (x : Transform) (m : AxisMap) (f₁ : Fusion) (m' : AxisMap) :
    Prop where
  records : Records f f₁ (x.rename (imageOf m'))
  get? : ∀ a ∉ x.outputs, m'.get? a = m.get? a
  image : ∀ a ∈ x.outputs, m'.get? a = some (imageOf m' a)

/-- A repeated transform is the original one, renamed. -/
theorem repeatTransform_renames {tensor : ValueId} {t : TransformId} (hf : Sound f)
    (ht : f.HasTransform t)
    (hin : ∀ a ∈ (f.transform t).inputs, ∃ b, m.get? a = some b ∧ f.HasAxis b)
    (h : (repeatTransform tensor t m).Returns f m' f₁) : Renames f (f.transform t) m f₁ m' := by
  have hrecorded := hf.recorded t ht
  unfold repeatTransform at h
  obtain ⟨f₀, f₃, hget, h⟩ := EditE.returns_bind.1 h
  obtain ⟨rfl, rfl⟩ := EditE.returns_get.1 hget
  clear hget
  generalize f.transform t = x at *
  cases x with
  | split a o i k innerSplit =>
      obtain ⟨a', ha, hhas⟩ := hin a (by simp [Transform.inputs])
      have hne : o ≠ i := fun heq => absurd hrecorded.2.2.1 (heq ▸ Nat.lt_irrefl _)
      have hao : a ≠ o := fun heq => absurd hrecorded.2.1 (heq ▸ Nat.lt_irrefl _)
      have hai : a ≠ i := fun heq =>
        absurd (Nat.lt_trans hrecorded.2.1 hrecorded.2.2.1) (heq ▸ Nat.lt_irrefl _)
      dsimp only at h
      rw [ha] at h
      obtain ⟨⟨o', i'⟩, f₃, hsplit, h⟩ := EditE.returns_bind.1 h
      obtain ⟨rfl, rfl⟩ := EditE.returns_pure.1 h
      have hrec := splitAxis_records hf hhas hrecorded.2.2.2.1 hsplit
      have hget : ∀ b, ((m.insert o o').insert i i').get? b =
          if b = i then some i' else if b = o then some o' else m.get? b := by
        intro b
        rw [AxisMap.get?_insert, AxisMap.get?_insert]
      have ho : ((m.insert o o').insert i i').get? o = some o' := by
        rw [hget, if_neg hne, if_pos rfl]
      have hi : ((m.insert o o').insert i i').get? i = some i' := by
        rw [hget, if_pos rfl]
      have ha' : ((m.insert o o').insert i i').get? a = some a' := by
        rw [hget, if_neg hai, if_neg hao, ha]
      refine ⟨?_, fun b hb => ?_, fun b hb => ?_⟩
      · rw [Transform.rename, imageOf_eq ha', imageOf_eq ho, imageOf_eq hi]
        exact hrec
      · obtain ⟨hbo, hbi⟩ : b ≠ o ∧ b ≠ i := by simpa [Transform.outputs] using hb
        rw [hget, if_neg hbi, if_neg hbo]
      · rcases List.mem_pair.1 hb with rfl | rfl
        · rw [imageOf_eq ho, ho]
        · rw [imageOf_eq hi, hi]
  | merge o i out =>
      obtain ⟨o', ho, hhaso⟩ := hin o (by simp [Transform.inputs])
      obtain ⟨i', hi, hhasi⟩ := hin i (by simp [Transform.inputs])
      have hoo : o ≠ out := fun heq => absurd hrecorded.2.1 (heq ▸ Nat.lt_irrefl _)
      have hio : i ≠ out := fun heq => absurd hrecorded.2.2.1 (heq ▸ Nat.lt_irrefl _)
      dsimp only at h
      rw [ho, hi] at h
      simp only [EditE.returns_bind, EditE.returns_mapError, EditE.returns_pure] at h
      obtain ⟨out', f₃, hmerge, rfl, rfl⟩ := h
      have hrec := mergeAxes_records hf hhaso hhasi hmerge
      have hkeep : ∀ b, b ≠ out → (m.insert out out').get? b = m.get? b := by
        intro b hb
        rw [AxisMap.get?_insert, if_neg hb]
      have hnew : (m.insert out out').get? out = some out' := by
        rw [AxisMap.get?_insert, if_pos rfl]
      refine ⟨?_, fun b hb => ?_, fun b hb => ?_⟩
      · rw [Transform.rename, imageOf_eq ((hkeep o hoo).trans ho), imageOf_eq ((hkeep i hio).trans hi),
          imageOf_eq hnew]
        exact hrec
      · exact hkeep b (by simpa [Transform.outputs] using hb)
      · rw [List.mem_singleton.1 hb, imageOf_eq hnew, hnew]

/-- What repeating one transform of a history does: it records the transform with other names for
its axes, and gives its outputs copies. -/
structure Repeats (f g f₁ : Fusion) (x : Transform) (m : AxisMap) (f₂ : Fusion) (m' : AxisMap) :
    Prop where
  records : Records f₁ f₂ (x.rename (imageOf m'))
  get? : ∀ a ∉ x.outputs, m'.get? a = m.get? a
  copied : ∀ a ∈ x.outputs, Copied f g f₂ m' a

/-- Recording a transform over images of the inputs and new images of the outputs. -/
theorem Repeats.ofRecords {x : Transform} (hg : Extends g f₁)
    (hin : ∀ a ∈ x.inputs, Copied f g f₁ m a) (hapart : ∀ a ∈ x.inputs, a ∉ x.outputs)
    (hred : ∀ b ∈ x.outputs, (f.axis b).isReduction = true →
      ∀ a ∈ x.inputs, (f.axis a).isReduction = true)
    (hkeep : ∀ a ∉ x.outputs, m'.get? a = m.get? a)
    (hnew : ∀ a ∈ x.outputs, m'.get? a = some (imageOf m' a))
    (hrec : Records f₁ f₂ (x.rename (imageOf m'))) : Repeats f g f₁ x m f₂ m' := by
  have hmem : ∀ a ∈ x.outputs, imageOf m' a ∈ (x.rename (imageOf m')).outputs := by
    intro a ha
    rw [Transform.outputs_rename]
    exact List.mem_map_of_mem ha
  refine ⟨hrec, hkeep, fun a ha => ⟨hnew a ha, hrec.recorded.hasAxis_output (hmem a ha),
    fun hold => hrec.fresh _ (hmem a ha) (hg.hasAxis hold), fun h => ?_⟩⟩
  refine beq_iff_eq.2 (hrec.kind .reduction (fun b hb => ?_) _ (hmem a ha))
  rw [Transform.inputs_rename] at hb
  obtain ⟨c, hc, rfl⟩ := List.mem_map.1 hb
  rw [imageOf_congr (hkeep c (hapart c hc))]
  exact beq_iff_eq.1 ((hin c hc).reduces (hred a ha h c hc))

/-- A repeated transform does to copies what the original does to the axes. -/
theorem repeatTransform_repeats {tensor : ValueId} {t : TransformId} (ht : f.HasTransform t)
    (hf₁ : Sound f₁) (hext : Extends f f₁) (hg : Extends g f₁)
    (hin : ∀ a ∈ (f.transform t).inputs, Copied f g f₁ m a)
    (hapart : ∀ a ∈ (f.transform t).inputs, a ∉ (f.transform t).outputs)
    (hred : ∀ b ∈ (f.transform t).outputs, (f.axis b).isReduction = true →
      ∀ a ∈ (f.transform t).inputs, (f.axis a).isReduction = true)
    (h : (repeatTransform tensor t m).Returns f₁ m' f₂) :
    Repeats f g f₁ (f.transform t) m f₂ m' := by
  have hsame := hext.transform t ht
  have hrenames := repeatTransform_renames hf₁ (hext.hasTransform ht) (fun a ha => by
    rw [hsame] at ha
    exact ⟨_, (hin a ha).image, (hin a ha).has⟩) h
  rw [hsame] at hrenames
  exact .ofRecords hg hin hapart hred hrenames.get? hrenames.image hrenames.records

/-- What repeating a history does: all its axes get copies, and other transforms lead from a root on
to the copies of the leaves as the history leads from a cut to the leaves. -/
structure RepeatsAll (f g f₁ : Fusion) (cut : List AxisId) (ts : List TransformId)
    (leaf : List AxisId) (m : AxisMap) (root : List AxisId) (done : List TransformId) (f₂ : Fusion)
    (m' : AxisMap) : Prop where
  adjoins : Adjoins f₁ f₂
  get? : ∀ a ∉ f.outputsOf ts, m'.get? a = m.get? a
  copied : ∀ a ∈ cut ++ f.outputsOf ts, Copied f g f₂ m' a
  history : ∃ ts', f₂.Balanced root (done ++ ts') (leaf.map (imageOf m')) ∧
    ts'.map f₂.transform = ts.map fun t => (f.transform t).rename (imageOf m')

/-- Repeating a history after its first transform. -/
theorem RepeatsAll.cons {t : TransformId} {ts done : List TransformId}
    {cut rest leaf root : List AxisId} {f₃ : Fusion} {m₁ : AxisMap}
    (hperm : cut.Perm ((f.transform t).inputs ++ rest))
    (hapart : ((f.transform t).inputs ++
      (rest ++ (f.transform t).outputs ++ f.outputsOf ts)).Nodup)
    (hcut : ∀ a ∈ cut, Copied f g f₁ m a) (hone : Repeats f g f₁ (f.transform t) m f₃ m₁)
    (hrest : RepeatsAll f g f₃ (rest ++ (f.transform t).outputs) ts leaf m₁ root
      (done ++ [⟨f₁.transforms.size⟩]) f₂ m') :
    RepeatsAll f g f₁ cut (t :: ts) leaf m root done f₂ m' := by
  have hadjoins := hone.records.adjoins.trans hrest.adjoins
  have houtputs : f.outputsOf (t :: ts) = (f.transform t).outputs ++ f.outputsOf ts := rfl
  obtain ⟨hin, hout, hnot⟩ := List.nodup_append.1 hapart
  obtain ⟨hnext, -, hlater⟩ := List.nodup_append.1 hout
  have hget : ∀ a ∉ f.outputsOf (t :: ts), m'.get? a = m.get? a := by
    intro a ha
    obtain ⟨hfirst, hothers⟩ : a ∉ (f.transform t).outputs ∧ a ∉ f.outputsOf ts := by
      simpa [houtputs] using ha
    rw [hrest.get? a hothers, hone.get? a hfirst]
  have hcutout : ∀ a ∈ cut, a ∉ f.outputsOf (t :: ts) := by
    intro a ha hmem
    have hright : a ∈ (f.transform t).outputs ++ f.outputsOf ts := houtputs ▸ hmem
    rcases List.mem_append.1 (hperm.mem_iff.1 ha) with ha | ha
    · exact hnot a ha a (by rw [List.append_assoc]; exact List.mem_append_right _ hright) rfl
    · rw [List.append_assoc] at hout
      exact (List.nodup_append.1 hout).2.2 a ha a hright rfl
  refine ⟨hadjoins, hget, fun a ha => ?_, ?_⟩
  · rcases List.mem_append.1 ha with ha | ha
    · exact (hcut a ha).mono hadjoins (hget a (hcutout a ha))
    · refine hrest.copied a ?_
      rw [houtputs] at ha
      rcases List.mem_append.1 ha with ha | ha
      · exact List.mem_append_left _ (List.mem_append_right _ ha)
      · exact List.mem_append_right _ ha
  · obtain ⟨ts', hbalanced, hsame⟩ := hrest.history
    refine ⟨⟨f₁.transforms.size⟩ :: ts', by simpa using hbalanced, ?_⟩
    have hnew : f₃.HasTransform ⟨f₁.transforms.size⟩ := by
      simp [HasTransform, hone.records.transforms]
    have hrename : (f.transform t).rename (imageOf m₁) = (f.transform t).rename (imageOf m') := by
      refine Transform.rename_congr fun a ha => (imageOf_congr (hrest.get? a fun hmem => ?_)).symm
      rcases List.mem_append.1 ha with ha | ha
      · exact hnot a ha a (List.mem_append_right _ hmem) rfl
      · exact hlater a (List.mem_append_right _ ha) a hmem rfl
    rw [List.map_cons, List.map_cons, hsame, hrest.adjoins.ext.transform _ hnew,
      hone.records.transform_last, hrename]

/-- The transforms that are repeated are a history with other names for its axes. -/
theorem repeatTransforms_copies {tensor : ValueId} {ts done : List TransformId}
    {keep : TransformId → Bool} {cut leaf root : List AxisId} (hf : Sound f)
    (hhas : ∀ t ∈ ts, f.HasTransform t) (hf₁ : Sound f₁) (hext : Extends f f₁)
    (hg : Extends g f₁)
    (hb : f.Balanced cut (ts.filter keep) leaf)
    (hred : ∀ t ∈ ts, ∀ b ∈ (f.transform t).outputs, (f.axis b).isReduction = true →
      ∀ a ∈ (f.transform t).inputs, (f.axis a).isReduction = true)
    (hskip : ∀ t ∈ ts, keep t = false →
      ∃ a ∈ (f.transform t).inputs, m.get? a = none ∧ a ∉ f.outputsOf (ts.filter keep))
    (hcut : ∀ a ∈ cut, Copied f g f₁ m a) (hroot : ∀ b ∈ root, f₁.HasAxis b)
    (htarget : f₁.Balanced root done (cut.map (imageOf m)))
    (h : (repeatTransforms tensor ts m).Returns f₁ m' f₂) :
    RepeatsAll f g f₁ cut (ts.filter keep) leaf m root done f₂ m' := by
  induction ts generalizing f₁ m cut done with
  | nil =>
      obtain ⟨rfl, rfl⟩ := EditE.returns_pure.1 h
      have hperm : cut.Perm leaf := by simpa [outputsOf, inputsOf] using hb.perm
      refine ⟨.refl hf₁, fun _ _ => rfl, fun a ha => hcut a (by simpa [outputsOf] using ha),
        [], ?_, rfl⟩
      rw [List.append_nil]
      exact htarget.reorder (hperm.symm.map _)
  | cons t ts ih =>
      obtain ⟨m₁, f₃, hstep, hrun⟩ := EditE.returns_bind.1 h
      have hhas' : ∀ s ∈ ts, f.HasTransform s := fun s hs => hhas s (List.mem_cons_of_mem t hs)
      have hred' := fun s (hs : s ∈ ts) => hred s (List.mem_cons_of_mem t hs)
      cases hkeep : keep t with
      | false =>
          rw [List.filter_cons_of_neg (by simp [hkeep])] at hb hskip ⊢
          obtain ⟨a, ha, hnone, -⟩ := hskip t List.mem_cons_self hkeep
          rw [← hext.transform t (hhas t List.mem_cons_self)] at ha
          obtain ⟨rfl, rfl⟩ := repeatTransform_eq_self ha hnone hstep
          exact ih hhas' hf₁ hext hg hb hred' (fun s hs => hskip s (List.mem_cons_of_mem t hs)) hcut
            hroot htarget hrun
      | true =>
          rw [List.filter_cons_of_pos hkeep] at hb hskip ⊢
          obtain ⟨rest, -, hperm, hnext, hapart⟩ := hb.step hf
          obtain ⟨hin, hout, hnot⟩ := List.nodup_append.1 hapart
          obtain ⟨hrestout, -, -⟩ := List.nodup_append.1 hout
          have hinputs : ∀ a ∈ (f.transform t).inputs, a ∉ (f.transform t).outputs :=
            fun a ha hmem => hnot a ha a (by simp [hmem]) rfl
          have hcutout : ∀ a ∈ cut, a ∉ (f.transform t).outputs := by
            intro a ha hmem
            rcases List.mem_append.1 (hperm.mem_iff.1 ha) with ha | ha
            · exact hinputs a ha hmem
            · exact (List.nodup_append.1 hrestout).2.2 a ha a hmem rfl
          have hone := repeatTransform_repeats (hhas t List.mem_cons_self) hf₁ hext hg
            (fun a ha => hcut a (hperm.mem_iff.2 (List.mem_append_left _ ha))) hinputs
            (hred t List.mem_cons_self) hstep
          have hadjoins := hone.records.adjoins
          have hsame : cut.map (imageOf m) = cut.map (imageOf m₁) :=
            List.map_congr_left fun a ha => (imageOf_congr (hone.get? a (hcutout a ha))).symm
          refine .cons hperm hapart hcut hone (ih hhas' hadjoins.sound (hext.trans hadjoins.ext)
            (hg.trans hadjoins.ext) hnext hred' (fun s hs hskipped => ?_) (fun a ha => ?_)
            (fun b hb => hadjoins.ext.hasAxis (hroot b hb)) ?_ hrun)
          · obtain ⟨a, ha, hnone, hnew⟩ := hskip s (List.mem_cons_of_mem t hs) hskipped
            obtain ⟨hfirst, hothers⟩ :
                a ∉ (f.transform t).outputs ∧ a ∉ f.outputsOf (ts.filter keep) := by
              simpa [outputsOf] using hnew
            exact ⟨a, ha, (hone.get? a hfirst).trans hnone, hothers⟩
          · rcases List.mem_append.1 ha with ha | ha
            · have hmem := hperm.mem_iff.2 (List.mem_append_right _ ha)
              exact (hcut a hmem).mono hadjoins (hone.get? a (hcutout a hmem))
            · exact hone.copied a ha
          · refine hone.records.balanced hf₁ htarget hroot ?_
            rw [hsame, Transform.inputs_rename, Transform.outputs_rename, ← List.map_append,
              ← List.map_append]
            refine List.Perm.map _ ?_
            rw [List.perm_iff_count] at hperm ⊢
            intro a
            have hcount := hperm a
            simp only [List.count_append] at hcount ⊢
            omega

end Schedule
end FusionCompiler
