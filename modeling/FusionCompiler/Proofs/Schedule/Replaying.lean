import FusionCompiler.Schedule.Replay
import FusionCompiler.Proofs.Fusion.AxisMap
import FusionCompiler.Proofs.Fusion.Ordering
import FusionCompiler.Proofs.Schedule.Leaves

/-!
# Replaying transforms

A replay works on a list of leaves of the target.  It undoes transforms of the
target that stand in the way, records new ones over the images of the source's
axes, and at the end puts the images of the source's leaves in front.  Whatever
it does, the fusion stays sound.

The leaves stay balanced when the replay is steady: when both axes of a merge
are still where they were found once the second one has been brought back among
the leaves, and the images to be put in front are leaves at the end.

Main results:

- Theorem `Schedule.exposeWith_balanced`: bringing an axis back among the leaves
  keeps them balanced.
- Theorem `Schedule.replay_keeps`: a replay keeps a fusion sound.
- Theorem `Schedule.replaySteadily_keeps`: a steady replay keeps the leaves of
  every tensor balanced as well.
-/

namespace FusionCompiler

namespace Fusion

variable {f f' f₁ f₂ f₃ : Fusion} {steady : Prop}

/-- What every edit inside a call does: the fusion stays sound and is extended, and a steady edit
keeps all leaves balanced. -/
structure Edits (steady : Prop) (f f' : Fusion) : Prop where
  sound : Sound f'
  ext : Extends f f'
  cuts : steady → Cuts f → Cuts f'

/-- Edits one after another. -/
protected theorem Edits.trans (h : Edits steady f₁ f₂) (h' : Edits steady f₂ f₃) :
    Edits steady f₁ f₃ :=
  ⟨h'.sound, h.ext.trans h'.ext, fun hs hc => h'.cuts hs (h.cuts hs hc)⟩

/-- What every call of building and scheduling does: a wired fusion also stays wired. -/
structure Keeps (steady : Prop) (f f' : Fusion) : Prop extends Edits steady f f' where
  wired : Wired f → Wired f'

namespace Keeps

/-- Doing nothing keeps everything. -/
protected theorem refl (hf : Sound f) : Keeps steady f f :=
  ⟨⟨hf, Extends.refl f, fun _ hc => hc⟩, id⟩

/-- Steps one after another keep what each of them keeps. -/
protected theorem trans (h : Keeps steady f₁ f₂) (h' : Keeps steady f₂ f₃) : Keeps steady f₁ f₃ :=
  ⟨h.toEdits.trans h'.toEdits, fun hw => h'.wired (h.wired hw)⟩

/-- Changing a view and its siblings, after other steps. -/
theorem modify_sync (h : Keeps steady f f₁) {v : ValueId} {g : TensorView → TensorView}
    (hg : ∀ a ∈ (g (f₁.view v)).domain.listed, f₁.HasAxis a)
    (hbal : steady → Cuts f →
      ∃ ts, f₁.Balanced (g (f₁.view v)).domain.root ts (g (f₁.view v)).domain.leaf) :
    Keeps steady f ((f₁.modifyView v g).syncSiblings v) := by
  obtain ⟨hsound, hext⟩ := h.sound.modify_sync hg
  refine ⟨⟨hsound, h.ext.trans hext, fun hs hc => ?_⟩, fun hw => ?_⟩
  · exact (h.cuts hs hc).modify_sync hext (hbal hs hc)
  · exact (h.wired hw).sameFlow (.modify_sync f₁ v g) hext

/-- A change of a view that leaves its domain alone. -/
theorem modify_sync_domain (h : Keeps steady f f₁) {v : ValueId} {g : TensorView → TensorView}
    (hg : (g (f₁.view v)).domain = (f₁.view v).domain) :
    Keeps steady f ((f₁.modifyView v g).syncSiblings v) := by
  refine h.modify_sync ?_ fun hs hc => ?_
  · rw [hg]
    exact h.sound.domains v
  · rw [hg]
    exact h.cuts hs hc v

end Keeps

/-- Transforming leaves keeps what replays need. -/
theorem Schedules.keeps (h : Schedules f f') : Keeps steady f f' :=
  ⟨⟨h.sound, h.ext, fun _ => h.cuts⟩, h.wired⟩

/-- Building keeps what replays need. -/
theorem Builds.keeps (h : Builds f f') : Keeps steady f f' :=
  ⟨⟨h.sound, h.ext, fun _ => h.cuts⟩, h.wired⟩

/-! ## Histories and their axes -/

/-- A step back through the history finds its own transform and no other. -/
theorem mem_found_traceStep {start : List AxisId} {s t : TransformId} {x : Transform} {w : Trace}
    (h : t ∈ (traceStep start s x w).found) : t = s ∨ t ∈ w.found := by
  unfold traceStep at h
  split at h
  · exact List.mem_cons.1 h
  · exact .inr h

/-- A walk over recorded transforms finds recorded transforms. -/
theorem hasTransform_of_found {start : List AxisId} {w : Trace}
    (hw : ∀ t ∈ w.found, f.HasTransform t) {l : List (Transform × Nat)}
    (hl : ∀ p ∈ l, p.2 < f.transforms.size) :
    ∀ t ∈ (l.foldr (fun (x, i) w => traceStep start ⟨i⟩ x w) w).found, f.HasTransform t := by
  induction l with
  | nil => exact hw
  | cons p l ih =>
      intro t ht
      rcases mem_found_traceStep ht with rfl | ht
      · exact hl p List.mem_cons_self
      · exact ih (fun q hq => hl q (List.mem_cons_of_mem p hq)) t ht

/-- A history lists recorded transforms. -/
theorem hasTransform_of_mem_transformsBetween {start goal : List AxisId} {t : TransformId}
    (h : t ∈ f.transformsBetween start goal) : f.HasTransform t := by
  refine hasTransform_of_found (w := ⟨goal, []⟩) (by simp) (fun p hp => ?_) t h
  simpa using (List.mem_zipIdx' hp).1

/-- A use of an axis in a history is one of its transforms. -/
theorem mem_of_useIn {history : List TransformId} {a : AxisId} {t : TransformId}
    (h : f.useIn history a = some t) : t ∈ history :=
  List.mem_reverse.1 (List.mem_of_find?_eq_some h)

/-- A use of an axis reads it. -/
theorem mem_inputs_of_useIn {history : List TransformId} {a : AxisId} {t : TransformId}
    (h : f.useIn history a = some t) : a ∈ (f.transform t).inputs := by
  have := List.find?_some h
  simpa using this

/-! ## Matching histories -/

/-- Two transforms do the same: both are merges, or splits on one side by factors that are found to
be equal. -/
def Alike (f : Fusion) : Transform → Transform → Prop
  | .split _ _ _ k innerSplit, .split _ _ _ k' innerSplit' =>
      innerSplit' = innerSplit ∧ f.sameScalar k' k = true
  | .merge .., .merge .. => True
  | _, _ => False

/-- Transforms that are alike have as many inputs and outputs. -/
theorem Alike.length_eq {x y : Transform} (h : f.Alike x y) :
    x.inputs.length = y.inputs.length ∧ x.outputs.length = y.outputs.length := by
  cases x <;> cases y <;> first | exact h.elim | exact ⟨rfl, rfl⟩

/-- A scalar is the same as itself. -/
theorem sameScalar_self (f : Fusion) (k : ValueId) : f.sameScalar k k = true := by
  unfold sameScalar sameScalarWith
  exact if_pos rfl

/-- Every image of a map exists. -/
def Images (f : Fusion) (m : AxisMap) : Prop :=
  ∀ b ∈ m.images, f.HasAxis b

/-- One more pair in a map. -/
theorem Images.insert {m : AxisMap} (hm : f.Images m) {a b : AxisId} (hb : f.HasAxis b) :
    f.Images (m.insert a b) := by
  intro d hd
  rcases AxisMap.mem_images_insert hd with rfl | hd
  · exact hb
  · exact hm d hd

/-- Several more pairs in a map. -/
theorem Images.insertAll {m : AxisMap} (hm : f.Images m) {l : List (AxisId × AxisId)}
    (hl : ∀ p ∈ l, f.HasAxis p.2) : f.Images (m.insertAll l) := by
  intro d hd
  rcases AxisMap.mem_images_insertAll hd with hd | hd
  · obtain ⟨p, hp, rfl⟩ := List.mem_map.1 hd
    exact hl p hp
  · exact hm d hd

/-- Images stay axes in later fusions. -/
theorem Images.mono {m : AxisMap} (hm : f.Images m) (hext : Extends f f') : f'.Images m :=
  fun b hb => hext.hasAxis (hm b hb)

/-- A map leads to axes. -/
theorem Images.get? {m : AxisMap} (hm : f.Images m) {a b : AxisId} (h : m.get? a = some b) :
    f.HasAxis b :=
  hm b (AxisMap.mem_images_of_get? h)

section Matching

variable {history : List TransformId} {P : AxisId → Prop} {m : AxisMap}

/-- What holds of all that a history makes holds of what a used transform makes. -/
theorem of_useIn (hhistory : ∀ t ∈ history, ∀ b ∈ (f.transform t).outputs, P b) {a b : AxisId}
    {x : Transform} (h : (f.useIn history a).map f.transform = some x) (hb : b ∈ x.outputs) :
    P b := by
  obtain ⟨t, ht, rfl⟩ := Option.map_eq_some_iff.1 h
  exact hhistory t (mem_of_useIn ht) b hb

/-- Following merges leads from an axis to outputs of transforms, so a property of both is kept. -/
theorem of_followMergesWith (hhistory : ∀ t ∈ history, ∀ b ∈ (f.transform t).outputs, P b)
    {images : List AxisId} {fuel : Nat} {a : AxisId} (ha : P a) :
    P (f.followMergesWith history images fuel a) := by
  induction fuel generalizing a with
  | zero => exact ha
  | succ fuel ih =>
      unfold followMergesWith
      split
      case h_1 outer inner output hx =>
          dsimp only
          generalize (if outer = a then inner else outer) = other
          split
          · exact ha
          · exact ih (of_useIn hhistory hx (by simp [Transform.outputs]))
      case h_2 => exact ha

/-- Mapping an axis through merges adds images that are reached by merges. -/
theorem mapThrough_images (hhistory : ∀ t ∈ history, ∀ b ∈ (f.transform t).outputs, P b)
    (hm : ∀ b ∈ m.images, P b) {a b : AxisId} (hb : P b) :
    ∀ d ∈ (f.mapThrough history m a b).images, P d := by
  intro d hd
  rcases AxisMap.mem_images_insert hd with rfl | hd
  · exact of_followMergesWith hhistory hb
  · exact hm d hd

/-- Matching a transform adds images that are reached by merges. -/
theorem matchTransform_images (hhistory : ∀ t ∈ history, ∀ b ∈ (f.transform t).outputs, P b)
    (hm : ∀ b ∈ m.images, P b) (x : Transform) :
    ∀ d ∈ (f.matchTransform history m x).images, P d := by
  cases x with
  | split input outer inner factor innerSplit =>
      rw [Fusion.matchTransform]
      split
      case h_1 a o i factor' innerSplit' hx =>
          split
          · obtain ⟨t, ht, hx⟩ := Option.map_eq_some_iff.1 hx
            obtain ⟨b, -, hb⟩ := Option.bind_eq_some_iff.1 ht
            have huse : (f.useIn history b).map f.transform =
                some (.split a o i factor' innerSplit') := by rw [hb, Option.map_some, hx]
            have ho : P o := of_useIn hhistory huse (by simp [Transform.outputs])
            have hi : P i := of_useIn hhistory huse (by simp [Transform.outputs])
            exact mapThrough_images hhistory (mapThrough_images hhistory hm ho) hi
          · exact hm
      case h_2 => exact hm
  | merge outer inner output =>
      rw [Fusion.matchTransform]
      split
      case h_1 b hb =>
          refine mapThrough_images hhistory hm ?_
          split at hb
          · split at hb
            case h_1 o' i' out hx =>
                split at hb
                · cases hb
                  exact of_useIn hhistory hx (by simp [Transform.outputs])
                · cases hb
            case h_2 => cases hb
          case h_2 hi =>
              split at hb
              · cases hb
                exact hm b (AxisMap.mem_images_of_get? hi)
              · cases hb
          case h_3 ho hi =>
              split at hb
              · cases hb
                exact hm b (AxisMap.mem_images_of_get? ho)
              · cases hb
          · cases hb
      case h_2 => exact hm

/-- Matching the history of a source with that of a target maps to what the pairs map to, and to
what the history of the target makes. -/
theorem bestEffortMap_images {source target : ValueId} {pairs : List (AxisId × AxisId)}
    (hhistory : ∀ t ∈ f.history target, ∀ b ∈ (f.transform t).outputs, P b)
    (hpairs : ∀ p ∈ pairs, P p.2) : ∀ d ∈ (f.bestEffortMap source target pairs).images, P d := by
  unfold Fusion.bestEffortMap
  refine List.foldlRecOn (motive := fun m : AxisMap => ∀ d ∈ m.images, P d) _ _
    (List.foldlRecOn (motive := fun m : AxisMap => ∀ d ∈ m.images, P d) _ _ ?_
      fun m hm p hp => ?_) fun m hm t _ => ?_
  · simp [AxisMap.images]
  · exact mapThrough_images hhistory hm (hpairs p hp)
  · exact matchTransform_images hhistory hm _

/-- It maps to axes that exist. -/
theorem Images.bestEffortMap (hf : Sound f) {source target : ValueId}
    {pairs : List (AxisId × AxisId)} (hpairs : ∀ p ∈ pairs, f.HasAxis p.2) :
    f.Images (f.bestEffortMap source target pairs) :=
  bestEffortMap_images (fun t ht _ hb =>
    (hf.recorded t (hasTransform_of_mem_transformsBetween ht)).hasAxis_output hb) hpairs

end Matching

end Fusion

open Fusion

namespace Schedule

variable {f f' : Fusion}

/-! ## Undoing transforms -/

/-- The transform that was made last is one of those that are looked through. -/
theorem mem_of_latestDerived {a : AxisId} {live : List TransformId} {t : TransformId}
    (h : latestDerived f a live = some t) : t ∈ live := by
  have hrun : ∀ s, latestDerived f a live = some s → s ∈ live := by
    unfold latestDerived
    refine List.foldlRecOn (motive := fun w : List AxisId × Option TransformId =>
      ∀ s, w.2 = some s → s ∈ live) live _ (by simp) fun w hw u hu s hs => ?_
    dsimp only at hs
    split at hs
    · cases hs
      exact hu
    · exact hw s hs
  exact hrun t h

/-- What is left after a removal was there before. -/
theorem mem_of_mem_removeAt {α : Type} {positions : List Nat} {l : List α} {a : α}
    (h : a ∈ removeAt positions l) : a ∈ l := by
  rw [removeAt_eq] at h
  obtain ⟨i, -, hi⟩ := List.mem_filterMap.1 h
  exact List.mem_of_getElem? hi

/-- A search gives a position at which the element is. -/
theorem getElem?_of_idxOf? {α : Type} [BEq α] [LawfulBEq α] {l : List α} {a : α} {i : Nat}
    (h : l.idxOf? a = some i) : l[i]? = some a := by
  obtain ⟨hi, heq, -⟩ := List.findIdx?_eq_some_iff_getElem.1 h
  rw [List.getElem?_eq_getElem hi]
  exact congrArg some (by simpa using heq)

/-- Positions of distinct elements of a list are distinct and lead back to the elements. -/
theorem positions_spec {as leaf : List AxisId} (has : as.Nodup)
    (hlength : (as.filterMap leaf.idxOf?).length = as.length) :
    (as.filterMap leaf.idxOf?).Nodup ∧ (∀ i ∈ as.filterMap leaf.idxOf?, i < leaf.length) ∧
      (as.filterMap leaf.idxOf?).filterMap (fun i => leaf[i]?) = as := by
  have hsome : ∀ a ∈ as, ∃ i, leaf.idxOf? a = some i := by
    intro a ha
    exact Option.isSome_iff_exists.1 (List.filterMap_length_eq_length.1 hlength a ha)
  have hback : ∀ i ∈ as.filterMap leaf.idxOf?, ∃ a ∈ as, leaf[i]? = some a := by
    intro i hi
    obtain ⟨a, ha, hidx⟩ := List.mem_filterMap.1 hi
    exact ⟨a, ha, getElem?_of_idxOf? hidx⟩
  refine ⟨?_, ?_, ?_⟩
  · refine has.filterMap fun a b i ha hb => ?_
    have h₁ := getElem?_of_idxOf? ha
    have h₂ := getElem?_of_idxOf? hb
    exact Option.some.inj (h₁.symm.trans h₂)
  · intro i hi
    obtain ⟨a, -, hget⟩ := hback i hi
    exact (List.getElem?_eq_some_iff.1 hget).1
  · rw [List.filterMap_filterMap]
    refine (List.filterMap_congr fun a ha => ?_).trans List.filterMap_some
    obtain ⟨i, hi⟩ := hsome a ha
    rw [hi, Option.bind_some, getElem?_of_idxOf? hi]

/-- Undoing a transform puts back its inputs and keeps other leaves. -/
theorem mem_of_undo {fixed : Nat} {leaf leaf' : List AxisId} {x : Transform} {a : AxisId}
    (h : undo fixed leaf x = some leaf') (ha : a ∈ leaf') : a ∈ leaf ∨ a ∈ x.inputs := by
  unfold undo at h
  dsimp only at h
  split at h
  · cases h
    simp only [List.append_assoc, List.mem_append] at ha
    rcases ha with ha | ha | ha
    · exact .inl (mem_of_mem_removeAt (List.mem_of_mem_take ha))
    · exact .inr ha
    · exact .inl (mem_of_mem_removeAt (List.mem_of_mem_drop ha))
  · cases h

/-- Undoing a transform replaces its outputs by its inputs. -/
theorem undo_perm {fixed : Nat} {leaf leaf' : List AxisId} {x : Transform}
    (hout : x.outputs.Nodup) (h : undo fixed leaf x = some leaf') :
    ∃ rest, leaf.Perm (x.outputs ++ rest) ∧ leaf'.Perm (rest ++ x.inputs) := by
  unfold undo at h
  dsimp only at h
  split at h
  case isTrue hcond =>
      simp only [Bool.and_eq_true, decide_eq_true_eq] at hcond
      obtain ⟨hnodup, hlt, hback⟩ := positions_spec hout hcond.1
      cases h
      have hperm := perm_append_removeAt hnodup hlt
      rw [hback] at hperm
      refine ⟨_, hperm, ?_⟩
      generalize removeAt (x.outputs.filterMap leaf.idxOf?) leaf = rest
      generalize List.foldl _ _ _ = place
      rw [List.perm_iff_count]
      intro c
      have hsplit := congrArg (List.count c) (List.take_append_drop place rest)
      simp only [List.count_append] at hsplit ⊢
      omega
  case isFalse => cases h

/-- What holds of leaves, and of what the transforms behind such leaves consume, holds of the leaves
after an axis has been brought back among them. -/
theorem exposeWith_leaves {P : AxisId → Prop} {root : List AxisId}
    (hundone : ∀ leaf, (∀ b ∈ leaf, P b) → ∀ t ∈ f.transformsBetween root leaf,
      ∀ b ∈ (f.transform t).inputs, P b) {fixed fuel : Nat} {a : AxisId}
    {leaf leaf' : List AxisId} (hleaf : ∀ b ∈ leaf, P b)
    (h : exposeWith f root fixed a fuel leaf = some leaf') : a ∈ leaf' ∧ ∀ b ∈ leaf', P b := by
  induction fuel generalizing leaf with
  | zero => cases h
  | succ fuel ih =>
      unfold exposeWith at h
      split at h
      case isTrue ha =>
          cases h
          exact ⟨by simpa using ha, hleaf⟩
      case isFalse =>
          obtain ⟨t, ht, h⟩ := Option.bind_eq_some_iff.1 h
          obtain ⟨leaf₁, hundo, h⟩ := Option.bind_eq_some_iff.1 h
          refine ih (fun b hb => ?_) h
          rcases mem_of_undo hundo hb with hb | hb
          · exact hleaf b hb
          · exact hundone leaf hleaf t (mem_of_latestDerived ht) b hb

/-- Bringing an axis back among leaves that exist gives leaves that exist. -/
theorem exposeWith_hasAxis (hf : Sound f) {root : List AxisId} {fixed fuel : Nat} {a : AxisId}
    {leaf leaf' : List AxisId} (hleaf : ∀ b ∈ leaf, f.HasAxis b)
    (h : exposeWith f root fixed a fuel leaf = some leaf') :
    a ∈ leaf' ∧ ∀ b ∈ leaf', f.HasAxis b :=
  exposeWith_leaves (fun _ _ t ht _ hb =>
    (hf.recorded t (hasTransform_of_mem_transformsBetween ht)).hasAxis_input hb) hleaf h

/-- Bringing an axis back among the leaves keeps them balanced. -/
theorem exposeWith_balanced (hf : Sound f) {root : List AxisId} {fixed fuel : Nat} {a : AxisId}
    {leaf leaf' : List AxisId} {ts : List TransformId} (hb : f.Balanced root ts leaf)
    (h : exposeWith f root fixed a fuel leaf = some leaf') : ∃ ts', f.Balanced root ts' leaf' := by
  induction fuel generalizing leaf ts with
  | zero => cases h
  | succ fuel ih =>
      unfold exposeWith at h
      split at h
      · cases h
        exact ⟨ts, hb⟩
      · obtain ⟨t, ht, h⟩ := Option.bind_eq_some_iff.1 h
        obtain ⟨leaf₁, hundo, h⟩ := Option.bind_eq_some_iff.1 h
        have hmem : t ∈ ts := by
          have hlive := mem_of_latestDerived ht
          rwa [hb.transformsBetween_eq hf] at hlive
        have hout : (f.transform t).outputs.Nodup := by
          have hall := (List.nodup_append.1 hb.nodup).2.1
          exact (List.nodup_flatMap.1 hall).1 t hmem
        obtain ⟨rest, hrest, hleaf⟩ := undo_perm hout hundo
        exact ih (hb.undo hmem hrest hleaf) h

/-- Brings axes back among the leaves, one after another. -/
def exposeAll (f : Fusion) (g : ReplayGoal) (bs leaf : List AxisId) : Option (List AxisId) :=
  bs.foldlM (fun leaf b => exposeWith f g.root g.fixed b (f.transforms.size + 1) leaf) leaf

section ExposeAll

variable {g : ReplayGoal} {bs leaf leaf' : List AxisId}

/-- Exposing axes one after another. -/
theorem exposeAll_cons {b : AxisId} : exposeAll f g (b :: bs) leaf = some leaf' ↔
    ∃ leaf₁, exposeWith f g.root g.fixed b (f.transforms.size + 1) leaf = some leaf₁ ∧
      exposeAll f g bs leaf₁ = some leaf' := by
  unfold exposeAll
  rw [List.foldlM_cons]
  exact Option.bind_eq_some_iff

/-- Exposing one axis. -/
theorem exposeAll_singleton {b : AxisId} : exposeAll f g [b] leaf = some leaf' ↔
    exposeWith f g.root g.fixed b (f.transforms.size + 1) leaf = some leaf' := by
  rw [exposeAll_cons]
  constructor
  · rintro ⟨leaf₁, h, h'⟩
    cases h'
    exact h
  · exact fun h => ⟨leaf', h, rfl⟩

/-- Exposing the two axes of a merge. -/
theorem exposeAll_pair {b c : AxisId} : exposeAll f g [b, c] leaf = some leaf' ↔
    ∃ leaf₁, exposeWith f g.root g.fixed b (f.transforms.size + 1) leaf = some leaf₁ ∧
      exposeWith f g.root g.fixed c (f.transforms.size + 1) leaf₁ = some leaf' := by
  rw [exposeAll_cons]
  simp only [exposeAll_singleton]

/-- Exposing axes puts inputs of earlier transforms among the leaves, and nothing else. -/
theorem exposeAll_leaves {P : AxisId → Prop}
    (hundone : ∀ leaf, (∀ b ∈ leaf, P b) → ∀ t ∈ f.transformsBetween g.root leaf,
      ∀ b ∈ (f.transform t).inputs, P b) (hleaf : ∀ a ∈ leaf, P a)
    (h : exposeAll f g bs leaf = some leaf') : ∀ a ∈ leaf', P a := by
  induction bs generalizing leaf with
  | nil =>
      cases h
      exact hleaf
  | cons b bs ih =>
      obtain ⟨leaf₁, hone, h⟩ := exposeAll_cons.1 h
      exact ih (exposeWith_leaves hundone hleaf hone).2 h

/-- Leaves are axes, also after axes were exposed. -/
theorem exposeAll_hasAxis (hf : Sound f) (hleaf : ∀ a ∈ leaf, f.HasAxis a)
    (h : exposeAll f g bs leaf = some leaf') : ∀ a ∈ leaf', f.HasAxis a :=
  exposeAll_leaves (fun _ _ t ht _ hb =>
    (hf.recorded t (hasTransform_of_mem_transformsBetween ht)).hasAxis_input hb) hleaf h

/-- Exposing axes leaves the history balanced, though shorter. -/
theorem exposeAll_balanced (hf : Sound f) {ts : List TransformId}
    (hb : f.Balanced g.root ts leaf) (h : exposeAll f g bs leaf = some leaf') :
    ∃ ts', f.Balanced g.root ts' leaf' := by
  induction bs generalizing leaf ts with
  | nil =>
      cases h
      exact ⟨ts, hb⟩
  | cons b bs ih =>
      obtain ⟨leaf₁, hone, h⟩ := exposeAll_cons.1 h
      obtain ⟨ts₁, hb₁⟩ := exposeWith_balanced hf hb hone
      exact ih hb₁ h

end ExposeAll

/-- What exposing an axis returns: the leaves and the position of the axis. -/
theorem returns_expose {g : ReplayGoal} {leaf leaf' : List AxisId} {a : AxisId} {i : Nat} :
    (expose g leaf a).Returns f (leaf', i) f' ↔
      exposeWith f g.root g.fixed a (f.transforms.size + 1) leaf = some leaf' ∧
        i = (leaf'.idxOf? a).getD 0 ∧ f = f' := by
  unfold expose
  simp only [EditE.returns_bind, EditE.returns_get]
  constructor
  · rintro ⟨f₀, f₁, ⟨rfl, rfl⟩, h⟩
    split at h
    case h_1 leaf₁ hleaf =>
        obtain ⟨heq, rfl⟩ := EditE.returns_pure.1 h
        cases heq
        exact ⟨hleaf, rfl, rfl⟩
    case h_2 => simp at h
  · rintro ⟨hleaf, rfl, rfl⟩
    refine ⟨f, f, ⟨rfl, rfl⟩, ?_⟩
    rw [hleaf]
    exact EditE.returns_pure.2 ⟨rfl, rfl⟩

/-- The position at which an axis is found. -/
theorem getElem?_idxOf?_getD {leaf : List AxisId} {a : AxisId} (ha : a ∈ leaf) :
    leaf[(leaf.idxOf? a).getD 0]? = some a := by
  have hsome : (leaf.idxOf? a).isSome = true := List.isSome_idxOf?.2 ha
  obtain ⟨i, hi⟩ := Option.isSome_iff_exists.1 hsome
  rw [hi, Option.getD_some]
  exact getElem?_of_idxOf? hi

/-! ## Steady replays -/

/-- Whether both axes of a merge are where they were found, once the second one has been brought
back among the leaves. -/
def mergesInPlace (g : ReplayGoal) (f : Fusion) (leaf : List AxisId) (o i : AxisId) : Bool :=
  match exposeWith f g.root g.fixed o (f.transforms.size + 1) leaf with
  | none => true
  | some leaf₁ =>
    match exposeWith f g.root g.fixed i (f.transforms.size + 1) leaf₁ with
    | none => true
    | some leaf₂ => o != i && leaf₂.idxOf? o == leaf₁.idxOf? o

/-- Whether the replay of one transform is steady: if it is a merge, it happens in place. -/
def isSteadyStep (g : ReplayGoal) (f : Fusion) (p : Progress) (t : TransformId) : Bool :=
  match f.transform t with
  | .split .. => true
  | .merge outer inner output =>
    p.images.contains output || match p.images.get? outer, p.images.get? inner with
      | some o, some i => mergesInPlace g f p.leaf o i
      | _, _ => true

/-- Whether the replay of transforms is steady at every step that is reached. -/
def isSteadyRun (g : ReplayGoal) : List TransformId → Progress → Fusion → Bool
  | [], _, _ => true
  | t :: rest, p, f =>
    isSteadyStep g f p t && match (replayTransform g p t).run.run f with
      | (.ok p', f') => isSteadyRun g rest p' f'
      | (.error _, _) => true

/-- Whether a replay is steady: every merge happens in place, and the images that are put in front
are leaves at the end. -/
def isSteady (f : Fusion) (source target : ValueId) (pairs : List (AxisId × AxisId)) (pos : Nat)
    (mode : ReplayMode) (unmappable : AxisId → ScheduleError) : Bool :=
  let g := ReplayGoal.of f source target mode unmappable
  let needed := neededTransforms f source target pos
  let start := Progress.start f source target pairs
  let leading := (f.leaf source).take pos
  let collected := do
    let p ← replayTransforms g needed start
    collectLeading g p.images leading p.leaf []
  isSteadyRun g needed start f && match collected.run.run f with
    | (.ok (leaf, images), _) => images.all leaf.contains
    | (.error _, _) => true

/-- Replays as `replay` does, and fails where that is not steady. -/
def replaySteadily : Replayer := fun source target pairs pos mode unmappable => do
  let f ← get
  EditE.ensure (isSteady f source target pairs pos mode unmappable) (.replayConflict target)
  replay source target pairs pos mode unmappable

/-! ## The steps of a replay -/

/-- What steps of a replay do: the fusion is extended, what there was is left alone, and balanced
leaves stay balanced if the steps are steady. -/
structure Replays (steady : Prop) (root : List AxisId) (f : Fusion) (p : Progress) (f' : Fusion)
    (p' : Progress) : Prop where
  sound : Sound f'
  ext : Extends f f'
  view : ∀ v, f'.view v = f.view v
  axis : ∀ a, f.HasAxis a → f'.axis a = f.axis a
  isTensor : ∀ v, f'.isTensor v = f.isTensor v
  definingExpr : ∀ v, f.HasValue v → f'.definingExpr? v = f.definingExpr? v
  inputs : f'.inputs = f.inputs
  outputs : f'.outputs = f.outputs
  leaf : ∀ a ∈ p'.leaf, f'.HasAxis a
  images : f'.Images p'.images
  balanced : steady → (∃ ts, f.Balanced root ts p.leaf) → ∃ ts, f'.Balanced root ts p'.leaf
  wired : Wired f → Wired f'

namespace Replays

variable {steady : Prop} {root : List AxisId} {f₁ : Fusion} {p p' p₁ : Progress}

/-- A step that only changes images. -/
theorem ofImages {m : AxisMap} (hf : Sound f) (hleaf : ∀ a ∈ p.leaf, f.HasAxis a)
    (himages : f.Images m) : Replays steady root f p f { p with images := m } :=
  ⟨hf, Extends.refl f, fun _ => rfl, fun _ _ => rfl, fun _ => rfl, fun _ _ => rfl, rfl, rfl, hleaf,
    himages, fun _ hb => hb, id⟩

/-- No transform is replayed. -/
protected theorem refl (hf : Sound f) (hleaf : ∀ a ∈ p.leaf, f.HasAxis a)
    (himages : f.Images p.images) : Replays steady root f p f p :=
  ofImages hf hleaf himages

/-- Replays one after another. -/
protected theorem trans (h : Replays steady root f p f₁ p₁)
    (h' : Replays steady root f₁ p₁ f' p') : Replays steady root f p f' p' :=
  ⟨h'.sound, h.ext.trans h'.ext, fun v => (h'.view v).trans (h.view v),
    fun a ha => (h'.axis a (h.ext.hasAxis ha)).trans (h.axis a ha),
    fun v => (h'.isTensor v).trans (h.isTensor v),
    fun v hv => (h'.definingExpr v (h.ext.hasValue hv)).trans (h.definingExpr v hv),
    h'.inputs.trans h.inputs, h'.outputs.trans h.outputs, h'.leaf, h'.images,
    fun hs hb => h'.balanced hs (h.balanced hs hb), fun hw => h'.wired (h.wired hw)⟩

/-- Recording a transform over leaves, after leaves have been brought back. -/
theorem record {x : Transform} {leaf leaf' : List AxisId} {m : AxisMap} (hf : Sound f)
    (hroot : ∀ a ∈ root, f.HasAxis a) (hleaf : ∀ a ∈ leaf, f.HasAxis a)
    (hrec : Records f f' x) (hmem : ∀ a ∈ leaf', a ∈ leaf ∨ a ∈ x.outputs)
    (hperm : steady → (leaf' ++ x.inputs).Perm (leaf ++ x.outputs)) (himages : f'.Images m)
    (hbal : (∃ ts, f.Balanced root ts p.leaf) → ∃ ts, f.Balanced root ts leaf) :
    Replays steady root f p f' ⟨leaf', m⟩ := by
  refine ⟨hrec.sound, hrec.ext, hrec.view, hrec.axis, hrec.isTensor, hrec.definingExpr, hrec.inputs,
    hrec.outputs, fun a ha => ?_, himages, fun hs hb => ?_, hrec.wired⟩
  · rcases hmem a ha with ha | ha
    · exact hrec.ext.hasAxis (hleaf a ha)
    · exact hrec.recorded.hasAxis_output ha
  · obtain ⟨ts, hb⟩ := hbal hb
    exact ⟨_, hrec.balanced hf hb hroot (hperm hs)⟩

end Replays

section Steps

variable {g : ReplayGoal} {p p' : Progress} {steady : Prop}

/-- A merge puts its output in the place of two leaves. -/
theorem mem_of_mem_placeMerged {leaf : List AxisId} {lo hi : Nat} {a b : AxisId}
    (h : a ∈ placeMerged leaf lo hi b) : a ∈ leaf ∨ a = b := by
  rcases List.mem_or_eq_of_mem_set h with h | h
  · exact .inl (List.mem_of_mem_eraseIdx h)
  · exact .inr h

/-- There is nothing to replay for a transform: its outputs have images, or an input has none. -/
def Handled (m : AxisMap) (x : Transform) : Prop :=
  (∀ a ∈ x.outputs, m.contains a = true) ∨ ∃ a ∈ x.inputs, m.get? a = none

/-- What replaying one transform can do: nothing, if there is nothing to replay; give the output of a
merge the image of one input, if the other is a broadcast without an image; or bring the images of
its inputs back among the leaves and record a transform like it over them. -/
inductive Replayed (steady : Prop) (g : ReplayGoal) (f : Fusion) (p : Progress) (x : Transform) :
    Fusion → Progress → Prop
  | idle (hidle : Handled p.images x) : Replayed steady g f p x f p
  | passed {a b c d : AxisId} (ha : a ∈ x.inputs) (hbroad : (f.axis a).isBroadcast = true)
      (hget : p.images.get? b = some c) :
      Replayed steady g f p x f { p with images := p.images.insert d c }
  | recorded {y : Transform} {f' : Fusion} {leaf leaf' : List AxisId}
      (hnew : ∃ a ∈ x.outputs, p.images.contains a = false) (halike : f'.Alike x y)
      (hinputs : x.inputs.map p.images.get? = y.inputs.map some)
      (hexpose : exposeAll f g y.inputs p.leaf = some leaf) (hrec : Records f f' y)
      (hmem : ∀ a ∈ leaf', a ∈ leaf ∨ a ∈ y.outputs)
      (hperm : steady → (leaf' ++ y.inputs).Perm (leaf ++ y.outputs)) :
      Replayed steady g f p x f' ⟨leaf', p.images.insertAll (x.outputs.zip y.outputs)⟩

/-- Replaying a split: it is there already, it is added, or it is looked through. -/
theorem replayTransform_split {t : TransformId} {input outer inner : AxisId} {factor : ValueId}
    {innerSplit : Bool} (hf : Sound f) (ht : f.HasTransform t)
    (hx : f.transform t = .split input outer inner factor innerSplit)
    (hleaf : ∀ a ∈ p.leaf, f.HasAxis a) (himages : f.Images p.images)
    (h : (replayTransform g p t).Returns f p' f') :
    Replayed steady g f p (f.transform t) f' p' := by
  unfold replayTransform at h
  obtain ⟨f₀, f₁, hget, h⟩ := EditE.returns_bind.1 h
  obtain ⟨rfl, rfl⟩ := EditE.returns_get.1 hget
  have hrecorded := hf.recorded t ht
  rw [hx] at h hrecorded ⊢
  dsimp only at h
  split at h
  case isTrue hdone =>
      obtain ⟨rfl, rfl⟩ := EditE.returns_pure.1 h
      exact .idle (.inl (by simpa [Transform.outputs] using hdone))
  case isFalse hnew =>
      split at h
      case h_1 hnone =>
          obtain ⟨rfl, rfl⟩ := EditE.returns_pure.1 h
          exact .idle (.inr ⟨input, by simp [Transform.inputs], hnone⟩)
      case h_2 a ha =>
          obtain ⟨⟨leaf, i⟩, f₁, hreturns, h⟩ := EditE.returns_bind.1 h
          obtain ⟨hexpose, hi, rfl⟩ := returns_expose.1 hreturns
          simp only [EditE.returns_bind, EditE.returns_ensure, EditE.returns_pure] at h
          obtain ⟨-, f₁, ⟨-, rfl⟩, ⟨o, n⟩, f₂, hsplit, rfl, rfl⟩ := h
          obtain ⟨hmem, -⟩ := exposeWith_hasAxis hf hleaf hexpose
          have hrec := splitAxis_records hf (himages.get? ha) hrecorded.2.2.2.1 hsplit
          have hget : leaf[i]? = some a := by
            rw [hi]
            exact getElem?_idxOf?_getD hmem
          refine .recorded (y := .split a o n factor innerSplit) ?_ ⟨rfl, sameScalar_self _ factor⟩ ?_
            (exposeAll_singleton.2 hexpose) hrec (fun b hb => ?_) fun _ => split_perm hget
          · by_contra hnone
            push Not at hnone
            exact hnew (by simpa [Transform.outputs] using hnone)
          · simp [Transform.inputs, ha]
          · simp only [List.append_assoc, List.mem_append] at hb
            rcases hb with hb | hb | hb
            · exact .inl (List.mem_of_mem_take hb)
            · exact .inr hb
            · exact .inl (List.mem_of_mem_drop hb)

/-- Replaying a merge: it is there already, it is added, or only one half has an image. -/
theorem replayTransform_merge {t : TransformId} {outer inner output : AxisId} (hf : Sound f)
    (hx : f.transform t = .merge outer inner output) (hleaf : ∀ a ∈ p.leaf, f.HasAxis a)
    (himages : f.Images p.images) (hsteady : steady → isSteadyStep g f p t = true)
    (h : (replayTransform g p t).Returns f p' f') :
    Replayed steady g f p (f.transform t) f' p' := by
  unfold replayTransform at h
  obtain ⟨f₀, f₁, hget, h⟩ := EditE.returns_bind.1 h
  obtain ⟨rfl, rfl⟩ := EditE.returns_get.1 hget
  unfold isSteadyStep at hsteady
  rw [hx] at h hsteady ⊢
  dsimp only at h hsteady
  split at h
  case isTrue hdone =>
      obtain ⟨rfl, rfl⟩ := EditE.returns_pure.1 h
      exact .idle (.inl (by simpa [Transform.outputs] using hdone))
  case isFalse hnew =>
      split at h
      case h_1 o i ho hi =>
          obtain ⟨⟨leaf₁, atOuter⟩, f₁, hreturns₁, h⟩ := EditE.returns_bind.1 h
          obtain ⟨hexpose₁, hatOuter, rfl⟩ := returns_expose.1 hreturns₁
          obtain ⟨⟨leaf₂, atInner⟩, f₁, hreturns₂, h⟩ := EditE.returns_bind.1 h
          obtain ⟨hexpose₂, hatInner, rfl⟩ := returns_expose.1 hreturns₂
          simp only [EditE.returns_bind, EditE.returns_ensure, EditE.returns_mapError,
            EditE.returns_pure] at h
          obtain ⟨-, f₁, ⟨-, rfl⟩, out, f₂, hmerge, rfl, rfl⟩ := h
          obtain ⟨hmem₁, hleaf₁⟩ := exposeWith_hasAxis hf hleaf hexpose₁
          obtain ⟨hmem₂, -⟩ := exposeWith_hasAxis hf hleaf₁ hexpose₂
          have hrec := mergeAxes_records hf (himages.get? ho) (himages.get? hi) hmerge
          refine .recorded (y := .merge o i out) ⟨output, by simp [Transform.outputs],
            by simpa using hnew⟩ trivial ?_ (exposeAll_pair.2 ⟨leaf₁, hexpose₁, hexpose₂⟩) hrec
            (fun b hb => ?_) fun hs => ?_
          · simp [Transform.inputs, ho, hi]
          · rcases mem_of_mem_placeMerged hb with hb | rfl
            · exact .inl hb
            · exact .inr (by simp [Transform.outputs])
          · -- both axes are where they were found
            have hplace := hsteady hs
            simp only [hnew, Bool.false_or, ho, hi, mergesInPlace, hexpose₁, hexpose₂,
              Bool.and_eq_true, bne_iff_ne, beq_iff_eq] at hplace
            have hget₁ : leaf₂[atOuter]? = some o := by
              obtain ⟨j, hj⟩ := Option.isSome_iff_exists.1 (List.isSome_idxOf?.2 hmem₁)
              rw [hatOuter, hj, Option.getD_some]
              exact getElem?_of_idxOf? (hplace.2.trans hj)
            have hget₂ : leaf₂[atInner]? = some i := by
              rw [hatInner]
              exact getElem?_idxOf?_getD hmem₂
            have hne : atOuter ≠ atInner := by
              intro heq
              rw [heq, hget₂] at hget₁
              exact hplace.1 (Option.some.inj hget₁).symm
            exact placeMerged_perm_of_ne hne hget₁ hget₂
      case h_2 i hnone hi =>
          obtain ⟨heq, rfl⟩ := EditE.returns_pure.1 h
          subst heq
          split
          case isTrue hbroad => exact .passed (by simp [Transform.inputs]) hbroad hi
          case isFalse => exact .idle (.inr ⟨outer, by simp [Transform.inputs], hnone⟩)
      case h_3 o ho hnone =>
          obtain ⟨heq, rfl⟩ := EditE.returns_pure.1 h
          subst heq
          split
          case isTrue hbroad => exact .passed (by simp [Transform.inputs]) hbroad ho
          case isFalse => exact .idle (.inr ⟨inner, by simp [Transform.inputs], hnone⟩)
      case h_4 hnone _ =>
          obtain ⟨rfl, rfl⟩ := EditE.returns_pure.1 h
          exact .idle (.inr ⟨outer, by simp [Transform.inputs], hnone⟩)

/-- Replaying any transform. -/
theorem replayTransform_replayed {t : TransformId} (hf : Sound f) (ht : f.HasTransform t)
    (hleaf : ∀ a ∈ p.leaf, f.HasAxis a) (himages : f.Images p.images)
    (hsteady : steady → isSteadyStep g f p t = true)
    (h : (replayTransform g p t).Returns f p' f') :
    Replayed steady g f p (f.transform t) f' p' := by
  cases hx : f.transform t with
  | split input outer inner factor innerSplit =>
      exact hx ▸ replayTransform_split hf ht hx hleaf himages h
  | merge outer inner output =>
      exact hx ▸ replayTransform_merge hf hx hleaf himages hsteady h

/-- A transform that consumes no broadcast is left out where there is nothing to replay. -/
theorem replayTransform_of_handled {t : TransformId}
    (hx : ∀ a ∈ (f.transform t).inputs, (f.axis a).isBroadcast = false)
    (h : Handled p.images (f.transform t)) : (replayTransform g p t).Returns f p f := by
  unfold replayTransform
  refine EditE.returns_bind.2 ⟨f, f, EditE.returns_get.2 ⟨rfl, rfl⟩, ?_⟩
  cases hform : f.transform t with
  | split input outer inner factor innerSplit =>
      rw [hform] at h
      dsimp only
      rcases h with hout | ⟨a, ha, hnone⟩
      · rw [if_pos (by simpa [Transform.outputs] using hout)]
        exact EditE.returns_pure.2 ⟨rfl, rfl⟩
      · rw [List.mem_singleton.1 ha] at hnone
        rw [hnone]
        split <;> exact EditE.returns_pure.2 ⟨rfl, rfl⟩
  | merge outer inner output =>
      rw [hform] at h hx
      dsimp only
      rcases h with hout | ⟨a, ha, hnone⟩
      · rw [if_pos (by simpa [Transform.outputs] using hout)]
        exact EditE.returns_pure.2 ⟨rfl, rfl⟩
      · have houter := hx outer (by simp [Transform.inputs])
        have hinner := hx inner (by simp [Transform.inputs])
        simp only [houter, hinner, Bool.false_eq_true, if_false]
        split
        · exact EditE.returns_pure.2 ⟨rfl, rfl⟩
        · rcases List.mem_pair.1 ha with rfl | rfl
          · rw [hnone]
            split <;> first | contradiction | exact EditE.returns_pure.2 ⟨rfl, rfl⟩
          · rw [hnone]
            split <;> first | contradiction | exact EditE.returns_pure.2 ⟨rfl, rfl⟩

/-- One transform replayed. -/
theorem Replayed.replays {x : Transform} (hf : Sound f) (hroot : ∀ a ∈ g.root, f.HasAxis a)
    (hleaf : ∀ a ∈ p.leaf, f.HasAxis a) (himages : f.Images p.images)
    (h : Replayed steady g f p x f' p') : Replays steady g.root f p f' p' := by
  cases h with
  | idle => exact .refl hf hleaf himages
  | passed _ _ hget => exact .ofImages hf hleaf (himages.insert (himages.get? hget))
  | recorded _ _ _ hexpose hrec hmem hperm =>
      refine .record hf hroot (exposeAll_hasAxis hf hleaf hexpose) hrec hmem hperm ?_ ?_
      · refine (himages.mono hrec.ext).insertAll fun q hq => ?_
        exact hrec.recorded.hasAxis_output (List.of_mem_zip hq).2
      · rintro ⟨ts, hb⟩
        exact exposeAll_balanced hf hb hexpose

/-- Replaying transforms is replaying the first one and then the others; if it is steady, both
are. -/
theorem returns_replayTransforms_cons {t : TransformId} {ts : List TransformId}
    (hsteady : steady → isSteadyRun g (t :: ts) p f = true)
    (h : (replayTransforms g (t :: ts) p).Returns f p' f') :
    ∃ p₁ f₁, (replayTransform g p t).Returns f p₁ f₁ ∧ (steady → isSteadyStep g f p t = true) ∧
      (replayTransforms g ts p₁).Returns f₁ p' f' ∧ (steady → isSteadyRun g ts p₁ f₁ = true) := by
  obtain ⟨p₁, f₁, hstep, h⟩ := EditE.returns_bind.1 h
  have hparts : steady → isSteadyStep g f p t = true ∧ isSteadyRun g ts p₁ f₁ = true := by
    intro hs
    have hrun := hsteady hs
    rw [EditE.Returns] at hstep
    simpa only [isSteadyRun, hstep, Bool.and_eq_true] using hrun
  exact ⟨p₁, f₁, hstep, fun hs => (hparts hs).1, h, fun hs => (hparts hs).2⟩

/-- Replaying transforms one after another. -/
theorem replayTransforms_replays {ts : List TransformId} (hf : Sound f)
    (hroot : ∀ a ∈ g.root, f.HasAxis a) (hts : ∀ t ∈ ts, f.HasTransform t)
    (hleaf : ∀ a ∈ p.leaf, f.HasAxis a) (himages : f.Images p.images)
    (hsteady : steady → isSteadyRun g ts p f = true)
    (h : (replayTransforms g ts p).Returns f p' f') : Replays steady g.root f p f' p' := by
  induction ts generalizing f p with
  | nil =>
      obtain ⟨rfl, rfl⟩ := EditE.returns_pure.1 h
      exact .refl hf hleaf himages
  | cons t ts ih =>
      obtain ⟨p₁, f₁, hstep, hsteady₁, h, hsteady₂⟩ := returns_replayTransforms_cons hsteady h
      have hone := (replayTransform_replayed hf (hts t List.mem_cons_self) hleaf himages
        hsteady₁ hstep).replays hf hroot hleaf himages
      refine hone.trans (ih hone.sound (fun a ha => hone.ext.hasAxis (hroot a ha)) ?_ hone.leaf
        hone.images hsteady₂ h)
      exact fun s hs => hone.ext.hasTransform (hts s (List.mem_cons_of_mem t hs))

/-- Collecting the leading leaves brings the images of axes back among the leaves, one after
another; an axis without an image is a broadcast or left behind. -/
theorem returns_collectLeading {images : AxisMap} {as leaf leading : List AxisId}
    {r : List AxisId × List AxisId} : (collectLeading g images as leaf leading).Returns f r f' ↔
      exposeAll f g (as.filterMap images.get?) leaf = some r.1 ∧
        r.2 = (as.filterMap images.get?).foldl addNew leading ∧
        (∀ a ∈ as, images.get? a = none →
          ((f.axis a).isBroadcast || g.mode == .propagate) = true) ∧ f = f' := by
  induction as generalizing leaf leading with
  | nil =>
      unfold collectLeading
      rw [EditE.returns_pure]
      constructor
      · rintro ⟨rfl, rfl⟩
        exact ⟨rfl, rfl, by simp, rfl⟩
      · rintro ⟨hleaf, hleading, -, rfl⟩
        cases r
        cases hleaf
        exact ⟨congrArg _ hleading.symm, rfl⟩
  | cons a as ih =>
      unfold collectLeading
      cases hget : images.get? a with
      | some b =>
          have hfilter : (a :: as).filterMap images.get? = b :: as.filterMap images.get? := by
            rw [List.filterMap_cons, hget]
          rw [hfilter, EditE.returns_bind, exposeAll_cons]
          constructor
          · rintro ⟨⟨leaf₁, i⟩, f₁, hreturns, h⟩
            obtain ⟨hexpose, -, rfl⟩ := returns_expose.1 hreturns
            obtain ⟨hrest, hleading, hnone, heq⟩ := ih.1 h
            exact ⟨⟨leaf₁, hexpose, hrest⟩, hleading, by simpa [hget] using hnone, heq⟩
          · rintro ⟨⟨leaf₁, hexpose, hrest⟩, hleading, hnone, rfl⟩
            refine ⟨(leaf₁, _), f, returns_expose.2 ⟨hexpose, rfl, rfl⟩, ih.2 ⟨hrest, hleading, ?_, rfl⟩⟩
            exact fun c hc => hnone c (List.mem_cons_of_mem a hc)
      | none =>
          have hfilter : (a :: as).filterMap images.get? = as.filterMap images.get? := by
            rw [List.filterMap_cons, hget]
          simp only [hfilter, EditE.returns_bind, EditE.returns_get, EditE.returns_ensure]
          constructor
          · rintro ⟨f₀, f₁, ⟨rfl, rfl⟩, -, f₂, ⟨hcond, rfl⟩, h⟩
            obtain ⟨hrest, hleading, hnone, heq⟩ := ih.1 h
            refine ⟨hrest, hleading, fun c hc => ?_, heq⟩
            rcases List.mem_cons.1 hc with rfl | hc
            · exact fun _ => hcond
            · exact hnone c hc
          · rintro ⟨hrest, hleading, hnone, rfl⟩
            refine ⟨f, f, ⟨rfl, rfl⟩, (), f, ⟨hnone a List.mem_cons_self hget, rfl⟩, ih.2 ⟨hrest,
              hleading, fun c hc => hnone c (List.mem_cons_of_mem a hc), rfl⟩⟩

end Steps

/-- Distinct leaves put in front of the others. -/
theorem leading_perm {leading leaf : List AxisId} (hnodup : leading.Nodup) (hleaf : leaf.Nodup)
    (hmem : ∀ b ∈ leading, b ∈ leaf) :
    (leading ++ leaf.filter fun a => !leading.contains a).Perm leaf := by
  refine (List.perm_ext_iff_of_nodup ?_ hleaf).2 fun a => ?_
  · refine List.nodup_append.2 ⟨hnodup, hleaf.filter _, fun a ha b hb hab => ?_⟩
    subst hab
    have hnot := (List.mem_filter.1 hb).2
    simp [ha] at hnot
  · simp only [List.mem_append, List.mem_filter, List.contains_eq_mem, Bool.not_eq_true',
      decide_eq_false_iff_not]
    constructor
    · rintro (ha | ⟨ha, -⟩)
      · exact hmem a ha
      · exact ha
    · intro ha
      by_cases hlead : a ∈ leading
      · exact .inl hlead
      · exact .inr ⟨ha, hlead⟩

/-! ## Whole replays -/

/-- What a replay returns: its transforms are replayed one by one, and the leaves that follow are
put in the order of the source. -/
theorem returns_replay {source target : ValueId} {pairs : List (AxisId × AxisId)} {pos n : Nat}
    {mode : ReplayMode} {unmappable : AxisId → ScheduleError} :
    (replay source target pairs pos mode unmappable).Returns f n f' ↔
      ∃ p f₁ leaf leading f₂ newLeaf,
        (replayTransforms (.of f source target mode unmappable)
          (neededTransforms f source target pos) (.start f source target pairs)).Returns f p f₁ ∧
        (collectLeading (.of f source target mode unmappable) p.images ((f.leaf source).take pos)
          p.leaf []).Returns f₁ (leaf, leading) f₂ ∧
        newLeaf = (leading ++ leaf.filter fun a => !leading.contains a) ∧
        (let fixed := Min.min (f.view target).fixedPosition (f.leaf target).length;
          (fixed ≤ newLeaf.length && newLeaf.take fixed == (f.leaf target).take fixed) = true) ∧
        leading.length = n ∧
        (f₂.modifyView target (·.withLeaf newLeaf)).syncSiblings target = f' := by
  unfold replay
  simp only [EditE.returns_bind, EditE.returns_get, EditE.returns_ensure, EditE.returns_lift,
    EditE.returns_pure]
  constructor
  · rintro ⟨f₀, f₁, ⟨rfl, rfl⟩, p, f₁, hrun, ⟨leaf, leading⟩, f₂, hcollect, -, f₃, ⟨hfixed, rfl⟩, u,
      f₄, hset, hn, rfl⟩
    exact ⟨p, f₁, leaf, leading, f₂, _, hrun, hcollect, rfl, hfixed, hn, Edit.gives_modify.1 hset⟩
  · rintro ⟨p, f₁, leaf, leading, f₂, newLeaf, hrun, hcollect, rfl, hfixed, hn, hset⟩
    exact ⟨f, f, ⟨rfl, rfl⟩, p, f₁, hrun, (leaf, leading), f₂, hcollect, (), f₂, ⟨hfixed, rfl⟩, (),
      f', Edit.gives_modify.2 hset, hn, rfl⟩

/-- A steady replay is a replay of which no step looks at a stale position. -/
theorem returns_replaySteadily {source target : ValueId} {pairs : List (AxisId × AxisId)}
    {pos n : Nat} {mode : ReplayMode} {unmappable : AxisId → ScheduleError} :
    (replaySteadily source target pairs pos mode unmappable).Returns f n f' ↔
      isSteady f source target pairs pos mode unmappable = true ∧
        (replay source target pairs pos mode unmappable).Returns f n f' := by
  unfold replaySteadily
  simp only [EditE.returns_bind, EditE.returns_get, EditE.returns_ensure]
  constructor
  · rintro ⟨f₀, f₁, ⟨rfl, rfl⟩, -, f₂, ⟨hsteady, rfl⟩, h⟩
    exact ⟨hsteady, h⟩
  · rintro ⟨hsteady, h⟩
    exact ⟨f, f, ⟨rfl, rfl⟩, (), f, ⟨hsteady, rfl⟩, h⟩

/-- The steps of a steady replay are steady, and the images that it puts in front are leaves. -/
theorem isSteady_parts {source target : ValueId} {pairs : List (AxisId × AxisId)} {pos : Nat}
    {mode : ReplayMode} {unmappable : AxisId → ScheduleError} {p : Progress} {f₁ f₂ : Fusion}
    {leaf leading : List AxisId}
    (hsteady : isSteady f source target pairs pos mode unmappable = true)
    (hrun : (replayTransforms (.of f source target mode unmappable)
      (neededTransforms f source target pos) (.start f source target pairs)).Returns f p f₁)
    (hcollect : (collectLeading (.of f source target mode unmappable) p.images
      ((f.leaf source).take pos) p.leaf []).Returns f₁ (leaf, leading) f₂) :
    isSteadyRun (.of f source target mode unmappable) (neededTransforms f source target pos)
      (.start f source target pairs) f = true ∧ ∀ b ∈ leading, b ∈ leaf := by
  have hboth : (do
      let p ← replayTransforms (.of f source target mode unmappable)
        (neededTransforms f source target pos) (.start f source target pairs)
      collectLeading (.of f source target mode unmappable) p.images ((f.leaf source).take pos)
        p.leaf [] : Schedule (List AxisId × List AxisId)).Returns f (leaf, leading) f₂ :=
    EditE.returns_bind.2 ⟨p, f₁, hrun, hcollect⟩
  rw [EditE.Returns] at hboth
  unfold isSteady at hsteady
  dsimp only at hsteady
  rw [hboth, Bool.and_eq_true, List.all_eq_true] at hsteady
  exact ⟨hsteady.1, fun b hb => by simpa using hsteady.2 b hb⟩

/-- The transforms that a replay starts with. -/
theorem replayTransforms_start {steady : Prop} {source target : ValueId}
    {pairs : List (AxisId × AxisId)} {pos : Nat} {mode : ReplayMode}
    {unmappable : AxisId → ScheduleError} {p : Progress} {f₁ : Fusion} (hf : Sound f)
    (hpairs : ∀ q ∈ pairs, f.HasAxis q.2)
    (hsteady : steady → isSteadyRun (.of f source target mode unmappable)
      (neededTransforms f source target pos) (.start f source target pairs) f = true)
    (hrun : (replayTransforms (.of f source target mode unmappable)
      (neededTransforms f source target pos) (.start f source target pairs)).Returns f p f₁) :
    Replays steady (f.view target).domain.root f (.start f source target pairs) f₁ p := by
  refine replayTransforms_replays (g := .of f source target mode unmappable) hf (fun a ha => ?_)
    (fun t ht => hasTransform_of_mem_transformsBetween ht)
    (fun a ha => hf.domains target a (List.mem_append_right _ ha)) (Images.bestEffortMap hf hpairs)
    hsteady hrun
  exact hf.domains target a (List.mem_append_left _ (List.mem_append_left _ ha))

/-- A replay keeps a fusion sound, and a steady one keeps all leaves balanced. -/
theorem replay_keeps_of_isSteady {steady : Prop} {source target : ValueId}
    {pairs : List (AxisId × AxisId)} {pos n : Nat} {mode : ReplayMode}
    {unmappable : AxisId → ScheduleError} (hf : Sound f) (hpairs : ∀ p ∈ pairs, f.HasAxis p.2)
    (hsteady : steady → isSteady f source target pairs pos mode unmappable = true)
    (h : (replay source target pairs pos mode unmappable).Returns f n f') : Keeps steady f f' := by
  obtain ⟨p, f₁, leaf, leading, f₂, newLeaf, hrun, hcollect, rfl, -, -, rfl⟩ :=
    returns_replay.1 h
  have hparts := fun hs : steady => isSteady_parts (hsteady hs) hrun hcollect
  have hruns := replayTransforms_start hf hpairs (fun hs => (hparts hs).1) hrun
  obtain ⟨hexpose, rfl, -, rfl⟩ := returns_collectLeading.1 hcollect
  have hkeeps : Keeps steady f f₁ := by
    refine ⟨⟨hruns.sound, hruns.ext, fun _ hc v => ?_⟩, hruns.wired⟩
    obtain ⟨ts, hb⟩ := hc v
    unfold Fusion.leaf at hb ⊢
    rw [hruns.view v]
    exact ⟨ts, hb.mono hruns.ext⟩
  refine hkeeps.modify_sync (fun a ha => ?_) fun hs hc => ?_
  · rcases List.mem_append.1 ha with ha | ha
    · exact hruns.sound.domains target a (List.mem_append_left _ ha)
    · rcases List.mem_append.1 ha with ha | ha
      · obtain ⟨b, -, hget⟩ := List.mem_filterMap.1 ((mem_foldl_addNew.1 ha).resolve_left (by simp))
        exact hruns.images.get? hget
      · exact exposeAll_hasAxis hruns.sound hruns.leaf hexpose a (List.mem_filter.1 ha).1
  · obtain ⟨ts, hb⟩ := hruns.balanced hs (hc target)
    obtain ⟨ts, hb⟩ := exposeAll_balanced hruns.sound hb hexpose
    refine ⟨ts, ?_⟩
    rw [hruns.view target]
    exact hb.reorder (leading_perm (nodup_foldl_addNew List.nodup_nil) hb.leaf_nodup (hparts hs).2)

/-- A way to replay keeps a fusion sound, and balanced if it is steady. -/
def Replayer.Keeps (steady : Prop) (replayer : Replayer) : Prop :=
  ∀ {f f' : Fusion} {source target : ValueId} {pairs : List (AxisId × AxisId)} {pos n : Nat}
    {mode : ReplayMode} {unmappable : AxisId → ScheduleError}, Sound f →
    (∀ p ∈ pairs, f.HasAxis p.2) →
    (replayer source target pairs pos mode unmappable).Returns f n f' → Fusion.Keeps steady f f'

/-- A replay keeps a fusion sound. -/
theorem replay_keeps : Replayer.Keeps False replay :=
  fun hf hpairs h => replay_keeps_of_isSteady hf hpairs False.elim h

/-- A steady replay keeps the leaves of every tensor balanced as well. -/
theorem replaySteadily_keeps : Replayer.Keeps True replaySteadily := by
  intro f f' source target pairs pos n mode unmappable hf hpairs h
  obtain ⟨hsteady, h⟩ := returns_replaySteadily.1 h
  exact replay_keeps_of_isSteady hf hpairs (fun _ => hsteady) h

end Schedule
end FusionCompiler
