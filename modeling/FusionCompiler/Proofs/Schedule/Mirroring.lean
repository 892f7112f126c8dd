import FusionCompiler.Proofs.Fusion.Scalars
import FusionCompiler.Proofs.Schedule.Replaying

/-!
# Mirrored histories

A map of axes is faithful when it follows the transforms of a source: an axis
that a transform of the source produces has an image only if some transform of
the target does the same with the images of the inputs, and no two axes share an
image.  A faithful map is all that a replay needs to know of its target.

Bringing an image back among the leaves undoes transforms of the target.  As long
as nothing in the target mirrors what the source does with the axis itself, none
of the transforms undone mirrors a transform of the source, so a faithful map
stays faithful.

Matching two histories misses none of the transforms that mirror each other, and there
is only one faithful map that misses none.

Main results:

- Theorem `Schedule.Faithful.extend`: a faithful map is extended by the outputs of
  one more mirrored transform.
- Theorem `Schedule.exposeWith_faithful`: bringing an image back among the leaves
  keeps a map faithful.
- Theorem `Schedule.bestEffortMap_faithful`: where no axis is a broadcast, matching
  two histories gives a faithful map.
- Theorem `Schedule.bestEffortMap_matched`: and it misses no mirrored transform.
- Theorem `Schedule.Faithful.get?_eq`: maps that are faithful and complete agree.
-/

namespace FusionCompiler

open Fusion

namespace Schedule

variable {f f' : Fusion} {m m' : AxisMap} {x y : Transform} {a b : AxisId}

/-! ## Transforms from a root to leaves -/

/-- An element of a concatenation without repetition comes from one part only. -/
theorem eq_of_mem_flatMap {α β : Type} {part : α → List β} {l : List α} {s t : α} {c : β}
    (h : (l.flatMap part).Nodup) (hs : s ∈ l) (ht : t ∈ l) (hcs : c ∈ part s) (hct : c ∈ part t) :
    s = t := by
  induction l with
  | nil => cases hs
  | cons u l ih =>
      obtain ⟨-, hl, hapart⟩ := List.nodup_append.1 h
      have hlater : ∀ v ∈ l, c ∈ part v → c ∉ part u :=
        fun v hv hcv hcu => hapart c hcu c (List.mem_flatMap.2 ⟨v, hv, hcv⟩) rfl
      rcases List.mem_cons.1 hs with rfl | hsl
      · rcases List.mem_cons.1 ht with rfl | htl
        · rfl
        · exact absurd hcs (hlater t htl hct)
      · rcases List.mem_cons.1 ht with rfl | htl
        · exact absurd hct (hlater s hsl hcs)
        · exact ih hl hsl htl

/-- The axis is in a list or produced by a transform. -/
def Met (root : List AxisId) (xs : List Transform) (a : AxisId) : Prop :=
  a ∈ root ∨ ∃ x ∈ xs, a ∈ x.outputs

/-- Transforms in order that lead from a root to leaves: every axis is produced once, before it is
consumed, and consumed once at most. -/
structure Lineage (root : List AxisId) (xs : List Transform) (leaf : List AxisId) : Prop where
  nodup : (root ++ xs.flatMap Transform.outputs).Nodup
  consumed : ∀ x ∈ xs, ∀ a ∈ x.inputs, Met root xs a
  leaves : ∀ a ∈ leaf, Met root xs a ∧ ∀ x ∈ xs, a ∉ x.inputs
  consumedOnce : ∀ x ∈ xs, ∀ y ∈ xs, ∀ a, a ∈ x.inputs → a ∈ y.inputs → x = y
  apart : ∀ x ∈ xs, ∀ a ∈ x.inputs, a ∉ x.outputs
  ordered : xs.Pairwise fun x y => ∀ a ∈ x.inputs, a ∉ y.outputs

namespace Lineage

variable {root leaf : List AxisId} {xs : List Transform}

/-- What a transform makes is no root axis. -/
theorem new (h : Lineage root xs leaf) (hx : x ∈ xs) (ha : a ∈ x.outputs) : a ∉ root := by
  intro hroot
  exact (List.nodup_append.1 h.nodup).2.2 a hroot a (List.mem_flatMap.2 ⟨x, hx, ha⟩) rfl

/-- A transform makes different axes. -/
theorem outputs_nodup (h : Lineage root xs leaf) (hx : x ∈ xs) : x.outputs.Nodup :=
  (List.nodup_flatMap.1 (List.nodup_append.1 h.nodup).2.1).1 x hx

/-- Each axis is made by one transform. -/
theorem producedOnce (h : Lineage root xs leaf) (hx : x ∈ xs) (hy : y ∈ xs) (hax : a ∈ x.outputs)
    (hay : a ∈ y.outputs) : x = y :=
  eq_of_mem_flatMap (List.nodup_append.1 h.nodup).2.1 hx hy hax hay

/-- An input of a transform is met before the transform. -/
theorem met_before {before after : List Transform} (h : Lineage root (before ++ x :: after) leaf)
    (ha : a ∈ x.inputs) : Met root before a := by
  have hx : x ∈ before ++ x :: after := by simp
  rcases h.consumed x hx a ha with hroot | ⟨z, hz, hout⟩
  · exact .inl hroot
  rcases List.mem_append.1 hz with hz | hz
  · exact .inr ⟨z, hz, hout⟩
  rcases List.mem_cons.1 hz with rfl | hz
  · exact absurd hout (h.apart z hx a ha)
  · have hlater := (List.pairwise_cons.1 (List.pairwise_append.1 h.ordered).2.1).1 z hz
    exact absurd hout (hlater a ha)

end Lineage

/-- Balanced leaves have a lineage. -/
theorem lineage_of_balanced {root leaf : List AxisId} {ts : List TransformId} (hf : Sound f)
    (h : f.Balanced root ts leaf) : Lineage root (ts.map f.transform) leaf := by
  have hall : (leaf ++ f.inputsOf ts).Nodup := h.perm.nodup_iff.1 h.nodup
  have hmet : ∀ a, (a ∈ leaf ∨ ∃ s ∈ ts, a ∈ (f.transform s).inputs) →
      Met root (ts.map f.transform) a := by
    intro a ha
    rcases h.mem_of_consumed ha with hroot | ⟨t, ht, hout⟩
    · exact .inl hroot
    · exact .inr ⟨f.transform t, List.mem_map_of_mem ht, hout⟩
  refine ⟨?_, ?_, ?_, ?_, ?_, ?_⟩
  · rw [List.flatMap_map]
    exact h.nodup
  · intro x hx a ha
    obtain ⟨t, ht, rfl⟩ := List.mem_map.1 hx
    exact hmet a (.inr ⟨t, ht, ha⟩)
  · intro a ha
    refine ⟨hmet a (.inl ha), fun x hx hin => ?_⟩
    obtain ⟨t, ht, rfl⟩ := List.mem_map.1 hx
    exact (List.nodup_append.1 hall).2.2 a ha a (mem_inputsOf.2 ⟨t, ht, hin⟩) rfl
  · intro x hx y hy a hax hay
    obtain ⟨s, hs, rfl⟩ := List.mem_map.1 hx
    obtain ⟨t, ht, rfl⟩ := List.mem_map.1 hy
    rw [eq_of_mem_flatMap (List.nodup_append.1 hall).2.1 hs ht hax hay]
  · intro x hx a ha hout
    obtain ⟨t, ht, rfl⟩ := List.mem_map.1 hx
    exact absurd ((hf.recorded t (h.has t ht)).input_lt_output ha hout) (Nat.lt_irrefl _)
  · rw [List.pairwise_map]
    refine h.sorted.imp_of_mem fun hs ht hlt a ha hout => ?_
    have hback := hf.index_lt_of_consumes (h.has _ ht) (h.has _ hs) hout ha
    omega

/-! ## Faithful maps -/

/-- One transform does to images what the other does to the axes they are images of. -/
structure Mirrors (f : Fusion) (m : AxisMap) (x y : Transform) : Prop where
  alike : f.Alike x y
  inputs : x.inputs.map m.get? = y.inputs.map some
  outputs : x.outputs.map m.get? = y.outputs.map some

/-- An axis among inputs has its image among the images. -/
theorem exists_image {as bs : List AxisId} (h : as.map m.get? = bs.map some) (ha : a ∈ as) :
    ∃ b ∈ bs, m.get? a = some b := by
  have hmem : m.get? a ∈ bs.map some := h ▸ List.mem_map_of_mem ha
  obtain ⟨b, hb, heq⟩ := List.mem_map.1 hmem
  exact ⟨b, hb, heq.symm⟩

/-- An image comes from one of the inputs. -/
theorem exists_preimage {as bs : List AxisId} (h : as.map m.get? = bs.map some) (hb : b ∈ bs) :
    ∃ a ∈ as, m.get? a = some b := by
  have hmem : some b ∈ as.map m.get? := h ▸ List.mem_map_of_mem hb
  exact List.mem_map.1 hmem

/-- The images of a list depend on the map on this list only. -/
theorem map_get?_congr {as : List AxisId} (h : ∀ a ∈ as, m'.get? a = m.get? a) :
    as.map m'.get? = as.map m.get? :=
  List.map_congr_left h

/-- Mirroring depends on the map on the axes of the transform only. -/
theorem Mirrors.congr (h : Mirrors f m x y) (hin : ∀ a ∈ x.inputs, m'.get? a = m.get? a)
    (hout : ∀ a ∈ x.outputs, m'.get? a = m.get? a) : Mirrors f m' x y :=
  ⟨h.alike, (map_get?_congr hin).trans h.inputs, (map_get?_congr hout).trans h.outputs⟩

/-- A map that follows the transforms `xs` of a source: the images of its root are those of the
pairs, every other image is produced by a transform among `ys` that mirrors one of the source, and
no two axes share an image. -/
structure Faithful (f : Fusion) (pairs : List (AxisId × AxisId)) (root : List AxisId)
    (xs ys : List Transform) (m : AxisMap) : Prop where
  roots : ∀ a ∈ root, m.get? a = (AxisMap.ofPairs pairs).get? a
  linked : ∀ x ∈ xs, ∀ a ∈ x.outputs, ∀ b, m.get? a = some b → ∃ y ∈ ys, Mirrors f m x y
  injective : ∀ a a' b, Met root xs a → Met root xs a' → m.get? a = some b →
    m.get? a' = some b → a = a'

/-- Pairs of root axes of a source and a target, no two of them with the same second axis. -/
structure Seeds (pairs : List (AxisId × AxisId)) (root target : List AxisId) : Prop where
  sources : ∀ p ∈ pairs, p.1 ∈ root
  targets : ∀ p ∈ pairs, p.2 ∈ target
  distinct : ∀ p ∈ pairs, ∀ q ∈ pairs, p.2 = q.2 → p.1 = q.1

section Source

variable {pairs : List (AxisId × AxisId)} {sroot sleaf root leaf : List AxisId}
  {xs ys : List Transform}

namespace Faithful

/-- If one output of a transform has no image, none has. -/
theorem get?_outputs_eq_none (h : Faithful f pairs sroot xs ys m) (hx : x ∈ xs)
    (hnew : ∃ a ∈ x.outputs, m.contains a = false) : ∀ a ∈ x.outputs, m.get? a = none := by
  intro a ha
  refine Option.eq_none_iff_forall_ne_some.2 fun b hb => ?_
  obtain ⟨y, -, hmirrors⟩ := h.linked x hx a ha b hb
  obtain ⟨a', ha', hnone⟩ := hnew
  obtain ⟨b', -, hb'⟩ := exists_image hmirrors.outputs ha'
  rw [AxisMap.contains_iff.2 ⟨b', hb'⟩] at hnone
  cases hnone

/-- An image is a root of the target or produced by a mirroring transform. -/
theorem image_cases (h : Faithful f pairs sroot xs ys m) (hp : Seeds pairs sroot root)
    (hmet : Met sroot xs a) (hget : m.get? a = some b) :
    b ∈ root ∨ ∃ x ∈ xs, ∃ y ∈ ys, a ∈ x.outputs ∧ b ∈ y.outputs ∧ Mirrors f m x y := by
  rcases hmet with hroot | ⟨x, hx, ha⟩
  · rw [h.roots a hroot] at hget
    exact .inl (hp.targets _ (AxisMap.mem_of_get?_ofPairs hget))
  · obtain ⟨y, hy, hmirrors⟩ := h.linked x hx a ha b hget
    obtain ⟨b', hb', heq⟩ := exists_image hmirrors.outputs ha
    rw [hget] at heq
    cases heq
    exact .inr ⟨x, hx, y, hy, ha, hb', hmirrors⟩

/-- The images of the roots alone. -/
theorem ofPairs (hs : Lineage sroot xs sleaf) (hp : Seeds pairs sroot root) :
    Faithful f pairs sroot xs ys (AxisMap.ofPairs pairs) := by
  refine ⟨fun _ _ => rfl, fun x hx a ha b hget => ?_, fun a a' b _ _ hget hget' => ?_⟩
  · exact absurd (hp.sources _ (AxisMap.mem_of_get?_ofPairs hget)) (hs.new hx ha)
  · exact hp.distinct _ (AxisMap.mem_of_get?_ofPairs hget) _ (AxisMap.mem_of_get?_ofPairs hget') rfl

/-- More transforms of the target do no harm. -/
theorem mono (h : Faithful f pairs sroot xs ys m) {ys' : List Transform}
    (hsub : ∀ y ∈ ys, y ∈ ys') : Faithful f pairs sroot xs ys' m := by
  refine ⟨h.roots, fun x hx a ha b hget => ?_, h.injective⟩
  obtain ⟨y, hy, hmirrors⟩ := h.linked x hx a ha b hget
  exact ⟨y, hsub y hy, hmirrors⟩

/-- A transform that mirrors nothing can be dropped. -/
theorem drop (h : Faithful f pairs sroot xs ys m) {ys' : List Transform}
    (hsub : ∀ y ∈ ys, (∃ x ∈ xs, Mirrors f m x y) → y ∈ ys') :
    Faithful f pairs sroot xs ys' m := by
  refine ⟨h.roots, fun x hx a ha b hget => ?_, h.injective⟩
  obtain ⟨y, hy, hmirrors⟩ := h.linked x hx a ha b hget
  exact ⟨y, hsub y hy ⟨x, hx, hmirrors⟩, hmirrors⟩

/-- A faithful map is extended by the outputs of one more mirrored transform. -/
theorem extend (h : Faithful f pairs sroot xs ys m) (hs : Lineage sroot xs sleaf)
    (ht : Lineage root ys leaf) (hp : Seeds pairs sroot root) (hx : x ∈ xs) (hy : y ∈ ys)
    (hnew : ∃ a ∈ x.outputs, m.contains a = false) (halike : f.Alike x y)
    (hinputs : x.inputs.map m.get? = y.inputs.map some) :
    Faithful f pairs sroot xs ys (m.insertAll (x.outputs.zip y.outputs)) := by
  have hnone := h.get?_outputs_eq_none hx hnew
  have hkeep : ∀ a, a ∉ x.outputs →
      (m.insertAll (x.outputs.zip y.outputs)).get? a = m.get? a :=
    fun a ha => AxisMap.get?_insertAll_zip ha
  have houtputs : x.outputs.map (m.insertAll (x.outputs.zip y.outputs)).get? =
      y.outputs.map some :=
    AxisMap.map_get?_insertAll (hs.outputs_nodup hx) halike.length_eq.2
  have hold : ∀ a b, m.get? a = some b → a ∉ x.outputs := by
    intro a b hget ha
    rw [hnone a ha] at hget
    cases hget
  generalize m.insertAll (x.outputs.zip y.outputs) = m' at hkeep houtputs ⊢
  -- an axis outside `x` shares no image with an output of `x`: the inputs of `y` would be shared
  have hapart : ∀ a a' b, a ∈ x.outputs → Met sroot xs a' → a' ∉ x.outputs → m'.get? a = some b →
      m'.get? a' ≠ some b := by
    intro a a' b ha hmet ha' hget hget'
    obtain ⟨b', hb, heq⟩ := exists_image houtputs ha
    rw [hget] at heq
    cases heq
    rw [hkeep a' ha'] at hget'
    rcases h.image_cases hp hmet hget' with hroot | ⟨z, hz, w, hw, haz, hbw, hmirrors⟩
    · exact ht.new hy hb hroot
    · have hwy : w = y := ht.producedOnce hw hy hbw hb
      subst hwy
      obtain ⟨c, hc⟩ := List.exists_mem_of_ne_nil _ w.inputs_ne_nil
      obtain ⟨d, hd, hdc⟩ := exists_preimage hinputs hc
      obtain ⟨e, he, hec⟩ := exists_preimage hmirrors.inputs hc
      have hde := h.injective d e c (hs.consumed x hx d hd) (hs.consumed z hz e he) hdc hec
      subst hde
      exact ha' (hs.consumedOnce x hx z hz d hd he ▸ haz)
  refine ⟨fun a ha => ?_, fun z hz a ha b hget => ?_, fun a a' b hmet hmet' hget hget' => ?_⟩
  · rw [hkeep a fun hout => hs.new hx hout ha]
    exact h.roots a ha
  · by_cases hzx : z = x
    · subst hzx
      refine ⟨y, hy, halike, ?_, houtputs⟩
      rw [map_get?_congr fun c hc => hkeep c (hs.apart z hz c hc)]
      exact hinputs
    · have hout : ∀ c ∈ z.outputs, c ∉ x.outputs :=
        fun c hc hcx => hzx (hs.producedOnce hz hx hc hcx)
      rw [hkeep a (hout a ha)] at hget
      obtain ⟨w, hw, hmirrors⟩ := h.linked z hz a ha b hget
      refine ⟨w, hw, hmirrors.congr (fun c hc => hkeep c ?_) fun c hc => hkeep c (hout c hc)⟩
      obtain ⟨d, -, hd⟩ := exists_image hmirrors.inputs hc
      exact hold c d hd
  · by_cases ha : a ∈ x.outputs
    · by_cases ha' : a' ∈ x.outputs
      · have hinj : (x.outputs.map m'.get?).Nodup := by
          rw [houtputs]
          exact (ht.outputs_nodup hy).map fun _ _ => Option.some.inj
        exact List.inj_on_of_nodup_map hinj ha ha' (hget.trans hget'.symm)
      · exact absurd hget' (hapart a a' b ha hmet' ha' hget)
    · by_cases ha' : a' ∈ x.outputs
      · exact absurd hget (hapart a' a b ha' hmet ha hget')
      · rw [hkeep a ha] at hget
        rw [hkeep a' ha'] at hget'
        exact h.injective a a' b hmet hmet' hget hget'

end Faithful

/-- Transforms do the same in an extended fusion exactly if they did before. -/
theorem alike_iff (hf : Sound f) (hext : Extends f f') (hx : f.Recorded x) (hy : f.Recorded y) :
    f'.Alike x y ↔ f.Alike x y := by
  cases x with
  | split a o i k innerSplit =>
      cases y with
      | split a' o' i' k' innerSplit' =>
          simp only [Alike, hext.sameScalar hf hy.2.2.2.1 hx.2.2.2.1]
      | merge => exact Iff.rfl
  | merge =>
      cases y with
      | split => exact Iff.rfl
      | merge => exact Iff.rfl

/-- A faithful map is faithful in every extension of the fusion. -/
theorem Faithful.extended (h : Faithful f pairs sroot xs ys m) (hf : Sound f) (hext : Extends f f')
    (hxs : ∀ x ∈ xs, f.Recorded x) (hys : ∀ y ∈ ys, f.Recorded y) :
    Faithful f' pairs sroot xs ys m := by
  refine ⟨h.roots, fun x hx a ha b hget => ?_, h.injective⟩
  obtain ⟨y, hy, hmirrors⟩ := h.linked x hx a ha b hget
  exact ⟨y, hy, (alike_iff hf hext (hxs x hx) (hys y hy)).2 hmirrors.alike, hmirrors.inputs,
    hmirrors.outputs⟩

/-! ## Complete maps -/

/-- A map that misses no mirrored transform: where one of the target does what one of the source
does, and does it with the images of the inputs, the outputs have images too. -/
def Complete (f : Fusion) (xs ys : List Transform) (m : AxisMap) : Prop :=
  ∀ x ∈ xs, ∀ y ∈ ys, f.Alike x y → x.inputs.map m.get? = y.inputs.map some →
    x.outputs.map m.get? = y.outputs.map some

/-- What a faithful map has as images of the outputs of a transform, a complete map has that agrees
on the inputs. -/
theorem Faithful.get?_of_inputs (h : Faithful f pairs sroot xs ys m) (hc : Complete f xs ys m')
    (hx : x ∈ xs) (hin : ∀ a ∈ x.inputs, m'.get? a = m.get? a) (ha : a ∈ x.outputs)
    (hget : m.get? a = some b) : m'.get? a = some b := by
  obtain ⟨y, hy, hmirrors⟩ := h.linked x hx a ha b hget
  have houtputs := hc x hx y hy hmirrors.alike ((map_get?_congr hin).trans hmirrors.inputs)
  exact (List.map_inj_left.1 (houtputs.trans hmirrors.outputs.symm) a ha).trans hget

/-- Maps that are faithful and complete agree. -/
theorem Faithful.get?_eq (hs : Lineage sroot xs sleaf) (h : Faithful f pairs sroot xs ys m)
    (hc : Complete f xs ys m) (h' : Faithful f pairs sroot xs ys m') (hc' : Complete f xs ys m')
    (hmet : Met sroot xs a) : m'.get? a = m.get? a := by
  have hrun : ∀ before, before <+: xs → ∀ a, Met sroot before a → m'.get? a = m.get? a := by
    intro before
    induction before using List.reverseRecOn with
    | nil =>
        rintro - a (hroot | ⟨x, hx, -⟩)
        · rw [h.roots a hroot, h'.roots a hroot]
        · cases hx
    | append_singleton before x ih =>
        rintro ⟨after, hxs⟩ a hmet
        have hcut : before ++ x :: after = xs := by simpa using hxs
        have hx : x ∈ xs := by simp [← hcut]
        have hbefore := ih ⟨x :: after, hcut⟩
        have hin : ∀ c ∈ x.inputs, m'.get? c = m.get? c := fun c hc =>
          hbefore c ((hcut ▸ hs).met_before hc)
        rcases hmet with hroot | ⟨z, hz, hout⟩
        · exact hbefore a (.inl hroot)
        rcases List.mem_append.1 hz with hz | hz
        · exact hbefore a (.inr ⟨z, hz, hout⟩)
        · obtain rfl := List.mem_singleton.1 hz
          refine Option.ext fun b => ⟨fun hget => ?_, fun hget => ?_⟩
          · exact h'.get?_of_inputs hc hx (fun c hc => (hin c hc).symm) hout hget
          · exact h.get?_of_inputs hc' hx hin hout hget
  exact hrun xs List.prefix_rfl a hmet

/-! ## Bringing images back among the leaves -/

/-- What holds of an axis and is passed on by the transforms of a list holds along the axis's latest
transform. -/
theorem latestDerived_induction {P : AxisId → Prop} {Q : TransformId → Prop} {c : AxisId}
    {live : List TransformId} {t : TransformId} (hc : P c)
    (hstep : ∀ s ∈ live, (∃ a ∈ (f.transform s).inputs, P a) →
      Q s ∧ ∀ b ∈ (f.transform s).outputs, P b) (h : latestDerived f c live = some t) : Q t := by
  have hrun : ∀ s, latestDerived f c live = some s → Q s := by
    unfold latestDerived
    refine (List.foldlRecOn (motive := fun w : List AxisId × Option TransformId =>
      (∀ a ∈ w.1, P a) ∧ ∀ s, w.2 = some s → Q s) live _ ⟨by simpa using hc, by simp⟩
      fun w hw u hu => ?_).2
    dsimp only
    split
    case isTrue hany =>
        obtain ⟨a, ha, hmem⟩ := List.any_eq_true.1 hany
        obtain ⟨hq, hout⟩ := hstep u hu ⟨a, ha, hw.1 a (by simpa using hmem)⟩
        refine ⟨fun b hb => ?_, fun s hs => ?_⟩
        · rcases List.mem_append.1 hb with hb | hb
          · exact hout b hb
          · exact hw.1 b hb
        · cases hs
          exact hq
    case isFalse => exact hw
  exact hrun t h

/-- No transform that an image went through mirrors the source, if nothing in the target mirrors
what the source does with the axis itself. -/
theorem not_mirrors_of_latestDerived {ts : List TransformId} {c : AxisId} {t : TransformId}
    (hs : Lineage sroot xs sleaf) (hp : Seeds pairs sroot root)
    (ht : Lineage root (ts.map f.transform) leaf)
    (h : Faithful f pairs sroot xs (ts.map f.transform) m) (hmet : Met sroot xs a)
    (hget : m.get? a = some c)
    (hfree : ∀ x ∈ xs, a ∈ x.inputs → ∃ o ∈ x.outputs, m.contains o = false)
    (hlatest : latestDerived f c ts = some t) : ∀ x ∈ xs, ¬ Mirrors f m x (f.transform t) := by
  refine latestDerived_induction (P := fun d => d = c ∨ ∀ a', Met sroot xs a' → m.get? a' ≠ some d)
    (Q := fun t => ∀ x ∈ xs, ¬ Mirrors f m x (f.transform t)) (.inl rfl)
    (fun s hmem ⟨d, hd, hP⟩ => ?_) hlatest
  have hnot : ∀ x ∈ xs, ¬ Mirrors f m x (f.transform s) := by
    intro x hx hmirrors
    obtain ⟨a₁, ha₁, hget₁⟩ := exists_preimage hmirrors.inputs hd
    have hmet₁ := hs.consumed x hx a₁ ha₁
    rcases hP with rfl | hP
    · have heq := h.injective a₁ a d hmet₁ hmet hget₁ hget
      subst heq
      obtain ⟨o, ho, hnone⟩ := hfree x hx ha₁
      obtain ⟨o', -, hsome⟩ := exists_image hmirrors.outputs ho
      rw [AxisMap.contains_iff.2 ⟨o', hsome⟩] at hnone
      cases hnone
    · exact hP a₁ hmet₁ hget₁
  refine ⟨hnot, fun b hb => .inr fun a' hmet' hget' => ?_⟩
  have hs' : f.transform s ∈ ts.map f.transform := List.mem_map_of_mem hmem
  rcases h.image_cases hp hmet' hget' with hroot | ⟨x, hx, y, hy, -, hby, hmirrors⟩
  · exact ht.new hs' hb hroot
  · exact hnot x hx (ht.producedOnce hy hs' hby hb ▸ hmirrors)

/-- Bringing an image back among the leaves keeps a map faithful. -/
theorem exposeWith_faithful {ts : List TransformId} {fixed fuel : Nat} {c : AxisId}
    {leaf' : List AxisId} (hf : Sound f) (hs : Lineage sroot xs sleaf) (hp : Seeds pairs sroot root)
    (hb : f.Balanced root ts leaf) (h : Faithful f pairs sroot xs (ts.map f.transform) m)
    (hmet : Met sroot xs a) (hget : m.get? a = some c)
    (hfree : ∀ x ∈ xs, a ∈ x.inputs → ∃ o ∈ x.outputs, m.contains o = false)
    (hexpose : exposeWith f root fixed c fuel leaf = some leaf') :
    ∃ ts', (∀ t ∈ ts', t ∈ ts) ∧ f.Balanced root ts' leaf' ∧
      Faithful f pairs sroot xs (ts'.map f.transform) m := by
  induction fuel generalizing leaf ts with
  | zero => cases hexpose
  | succ fuel ih =>
      unfold exposeWith at hexpose
      split at hexpose
      · cases hexpose
        exact ⟨ts, fun _ ht => ht, hb, h⟩
      · obtain ⟨t, ht, hexpose⟩ := Option.bind_eq_some_iff.1 hexpose
        obtain ⟨leaf₁, hundo, hexpose⟩ := Option.bind_eq_some_iff.1 hexpose
        rw [hb.transformsBetween_eq hf] at ht
        have hmem : t ∈ ts := mem_of_latestDerived ht
        have hnot := not_mirrors_of_latestDerived hs hp (lineage_of_balanced hf hb) h hmet hget
          hfree ht
        have hout : (f.transform t).outputs.Nodup :=
          (lineage_of_balanced hf hb).outputs_nodup (List.mem_map_of_mem hmem)
        obtain ⟨rest, hrest, hleaf⟩ := undo_perm hout hundo
        have hdrop : Faithful f pairs sroot xs ((ts.erase t).map f.transform) m := by
          refine h.drop fun y hy hmirrored => ?_
          obtain ⟨s, hs', rfl⟩ := List.mem_map.1 hy
          obtain ⟨x, hx, hmirrors⟩ := hmirrored
          have hne : s ≠ t := by
            rintro rfl
            exact hnot x hx hmirrors
          exact List.mem_map_of_mem ((List.mem_erase_of_ne hne).2 hs')
        obtain ⟨ts', hsub, hb', h'⟩ := ih (hb.undo hmem hrest hleaf) hdrop hexpose
        exact ⟨ts', fun s hs' => List.erase_subset (hsub s hs'), hb', h'⟩

/-- The same for several images, one after another. -/
theorem exposeAll_faithful {g : ReplayGoal} {ts : List TransformId} {bs leaf' : List AxisId}
    (hf : Sound f) (hs : Lineage sroot xs sleaf) (hp : Seeds pairs sroot g.root)
    (hb : f.Balanced g.root ts leaf) (h : Faithful f pairs sroot xs (ts.map f.transform) m)
    (hfree : ∀ b ∈ bs, ∃ a, Met sroot xs a ∧ m.get? a = some b ∧
      ∀ x ∈ xs, a ∈ x.inputs → ∃ o ∈ x.outputs, m.contains o = false)
    (hexpose : exposeAll f g bs leaf = some leaf') :
    ∃ ts', (∀ t ∈ ts', t ∈ ts) ∧ f.Balanced g.root ts' leaf' ∧
      Faithful f pairs sroot xs (ts'.map f.transform) m := by
  induction bs generalizing leaf ts with
  | nil =>
      cases hexpose
      exact ⟨ts, fun _ ht => ht, hb, h⟩
  | cons b bs ih =>
      obtain ⟨leaf₁, hone, hexpose⟩ := exposeAll_cons.1 hexpose
      obtain ⟨a, hmet, hget, hunused⟩ := hfree b List.mem_cons_self
      obtain ⟨ts₁, hsub₁, hb₁, h₁⟩ := exposeWith_faithful hf hs hp hb h hmet hget hunused hone
      obtain ⟨ts', hsub, hb', h'⟩ := ih hb₁ h₁
        (fun c hc => hfree c (List.mem_cons_of_mem b hc)) hexpose
      exact ⟨ts', fun t ht => hsub₁ t (hsub t ht), hb', h'⟩

end Source

/-! ## Matching without broadcasts -/

section Matching

variable {history : List TransformId} {s t : TransformId}
  (hplain : ∀ s ∈ history, ∀ a ∈ (f.transform s).inputs, (f.axis a).isBroadcast = false)

include hplain

/-- Where nothing consumes a broadcast, no merge is looked through. -/
theorem followMerges_eq (images : List AxisId) (a : AxisId) :
    f.followMerges history images a = a := by
  unfold followMerges followMergesWith
  split
  case h_2 => rfl
  case h_1 outer inner output hx =>
      obtain ⟨t, ht, hx⟩ := Option.map_eq_some_iff.1 hx
      have hconcrete := hplain t (mem_of_useIn ht)
      rw [hx] at hconcrete
      have hother : (f.axis (if outer = a then inner else outer)).isBroadcast = false := by
        split
        · exact hconcrete inner (by simp [Transform.inputs])
        · exact hconcrete outer (by simp [Transform.inputs])
      simp [hother]

/-- Without broadcasts a pair is put into the map as it is. -/
theorem mapThrough_eq (m : AxisMap) (a b : AxisId) :
    f.mapThrough history m a b = m.insert a b := by
  unfold mapThrough
  rw [followMerges_eq hplain]

/-- Matching a transform changes nothing or finds one that does the same with the images of the
inputs. -/
theorem matchTransform_cases (hx : ∀ a ∈ x.inputs, (f.axis a).isBroadcast = false) :
    f.matchTransform history m x = m ∨ ∃ s ∈ history, f.Alike x (f.transform s) ∧
      x.inputs.map m.get? = (f.transform s).inputs.map some ∧
      f.matchTransform history m x = m.insertAll (x.outputs.zip (f.transform s).outputs) := by
  cases x with
  | split input outer inner factor innerSplit =>
      rw [matchTransform]
      split
      case h_2 => exact .inl rfl
      case h_1 a o i factor' innerSplit' hy =>
          split
          case isFalse => exact .inl rfl
          case isTrue hcond =>
              obtain ⟨s, hs, hy⟩ := Option.map_eq_some_iff.1 hy
              obtain ⟨b, hget, hs⟩ := Option.bind_eq_some_iff.1 hs
              have hin := mem_inputs_of_useIn hs
              rw [hy] at hin
              have hba : b = a := List.mem_singleton.1 hin
              have hsame : innerSplit' = innerSplit ∧ f.sameScalar factor' factor = true := by
                simpa using hcond
              refine .inr ⟨s, mem_of_useIn hs, ?_, ?_, ?_⟩
              · rw [hy]
                exact hsame
              · simp [hy, Transform.inputs, hget, hba]
              · rw [mapThrough_eq hplain, mapThrough_eq hplain, hy]
                rfl
  | merge outer inner output =>
      rw [matchTransform]
      have houter : (f.axis outer).isBroadcast = false := hx outer (by simp [Transform.inputs])
      have hinner : (f.axis inner).isBroadcast = false := hx inner (by simp [Transform.inputs])
      split
      case h_2 => exact .inl rfl
      case h_1 b hb =>
          split at hb
          case h_1 o i ho hi =>
              split at hb
              case h_2 => cases hb
              case h_1 o' i' out hy =>
                  split at hb
                  case isFalse => cases hb
                  case isTrue hcond =>
                      cases hb
                      obtain ⟨rfl, rfl⟩ : o' = o ∧ i' = i := by simpa using hcond
                      obtain ⟨s, hs, hy⟩ := Option.map_eq_some_iff.1 hy
                      refine .inr ⟨s, mem_of_useIn hs, ?_, ?_, ?_⟩
                      · rw [hy]
                        trivial
                      · simp [hy, Transform.inputs, ho, hi]
                      · rw [mapThrough_eq hplain, hy]
                        rfl
          case h_2 => simp [houter] at hb
          case h_3 => simp [hinner] at hb
          case h_4 => cases hb

/-- Matching a transform changes images of its outputs only. -/
theorem matchTransform_get?_of_not_mem (hx : ∀ a ∈ x.inputs, (f.axis a).isBroadcast = false)
    (ha : a ∉ x.outputs) : (f.matchTransform history m x).get? a = m.get? a := by
  rcases matchTransform_cases hplain hx with heq | ⟨s, -, -, -, heq⟩
  · rw [heq]
  · rw [heq, AxisMap.get?_insertAll_zip ha]

omit hplain in
/-- The transform that consumes an axis is found. -/
theorem useIn_eq (hunique : (f.inputsOf history).Nodup) (hs : s ∈ history)
    (ha : a ∈ (f.transform s).inputs) : f.useIn history a = some s := by
  cases hfind : f.useIn history a with
  | none =>
      have hnone := List.find?_eq_none.1 hfind s (List.mem_reverse.2 hs)
      exact absurd ha (by simpa using hnone)
  | some t =>
      rw [eq_of_mem_flatMap hunique (mem_of_useIn hfind) hs (mem_inputs_of_useIn hfind) ha]

/-- A transform that does the same with the images of the inputs is found. -/
theorem matchTransform_eq (hunique : (f.inputsOf history).Nodup) (hs : s ∈ history)
    (halike : f.Alike x (f.transform s))
    (hinputs : x.inputs.map m.get? = (f.transform s).inputs.map some) :
    f.matchTransform history m x = m.insertAll (x.outputs.zip (f.transform s).outputs) := by
  cases x with
  | split input outer inner factor innerSplit =>
      cases hy : f.transform s with
      | merge => rw [hy] at halike; exact halike.elim
      | split a o i factor' innerSplit' =>
          rw [hy] at halike hinputs
          have hget : m.get? input = some a := by simpa [Transform.inputs] using hinputs
          have huse : f.useIn history a = some s :=
            useIn_eq hunique hs (by simp [hy, Transform.inputs])
          rw [matchTransform, hget, Option.bind_some, huse, Option.map_some, hy]
          dsimp only
          rw [if_pos (by simpa [Alike] using halike), mapThrough_eq hplain, mapThrough_eq hplain]
          rfl
  | merge outer inner output =>
      cases hy : f.transform s with
      | split => rw [hy] at halike; exact halike.elim
      | merge o i out =>
          rw [hy] at hinputs
          obtain ⟨ho, hi⟩ : m.get? outer = some o ∧ m.get? inner = some i := by
            simpa [Transform.inputs] using hinputs
          have huse : f.useIn history o = some s :=
            useIn_eq hunique hs (by simp [hy, Transform.inputs])
          rw [matchTransform]
          simp only [ho, hi, huse, Option.map_some, hy, decide_true, Bool.and_self, if_true]
          rw [mapThrough_eq hplain]
          rfl

end Matching

section BestEffort

variable {source target : ValueId} {pairs : List (AxisId × AxisId)}
  {sroot sleaf root leaf : List AxisId} (hf : Sound f)
  (hs : Lineage sroot ((f.history source).map f.transform) sleaf)
  (hb : f.Balanced root (f.history target) leaf) (hp : Seeds pairs sroot root)
  (hsource : ∀ t ∈ f.history source, ∀ a ∈ (f.transform t).inputs, (f.axis a).isBroadcast = false)
  (htarget : ∀ t ∈ f.history target, ∀ a ∈ (f.transform t).inputs, (f.axis a).isBroadcast = false)

include htarget

/-- The map of a replay matches one transform of the source after another. -/
theorem bestEffortMap_eq : f.bestEffortMap source target pairs =
    (f.history source).foldl (fun m t => f.matchTransform (f.history target) m (f.transform t))
      (AxisMap.ofPairs pairs) := by
  unfold bestEffortMap AxisMap.ofPairs
  simp only [mapThrough_eq htarget]

include hsource

/-- Matching transforms that do not make an axis leaves its image alone. -/
theorem foldl_matchTransform_get? {l : List TransformId} (hl : ∀ t ∈ l, t ∈ f.history source)
    (ha : ∀ t ∈ l, a ∉ (f.transform t).outputs) (m : AxisMap) :
    (l.foldl (fun m t => f.matchTransform (f.history target) m (f.transform t)) m).get? a =
      m.get? a := by
  induction l generalizing m with
  | nil => rfl
  | cons t l ih =>
      rw [List.foldl_cons, ih (fun s h => hl s (List.mem_cons_of_mem t h))
        (fun s h => ha s (List.mem_cons_of_mem t h))]
      exact matchTransform_get?_of_not_mem htarget (hsource t (hl t List.mem_cons_self))
        (ha t List.mem_cons_self)

include hf hs hb hp

/-- Matching two histories without broadcasts gives a faithful map. -/
theorem bestEffortMap_faithful :
    Faithful f pairs sroot ((f.history source).map f.transform)
      ((f.history target).map f.transform) (f.bestEffortMap source target pairs) := by
  have ht := lineage_of_balanced hf hb
  have hrun : ∀ (l : List TransformId) (m : AxisMap), (∀ t ∈ l, t ∈ f.history source) →
      (f.outputsOf l).Nodup → (∀ a ∈ f.outputsOf l, m.get? a = none) →
      Faithful f pairs sroot ((f.history source).map f.transform)
        ((f.history target).map f.transform) m →
      Faithful f pairs sroot ((f.history source).map f.transform)
        ((f.history target).map f.transform)
        (l.foldl (fun m t => f.matchTransform (f.history target) m (f.transform t)) m) := by
    intro l
    induction l with
    | nil => exact fun m _ _ _ h => h
    | cons t l ih =>
        intro m hl hnodup hnone h
        rw [List.foldl_cons]
        obtain ⟨-, hrest, hapart⟩ := List.nodup_append.1 hnodup
        have hmem := hl t List.mem_cons_self
        refine ih _ (fun s hsl => hl s (List.mem_cons_of_mem t hsl)) hrest (fun a ha => ?_) ?_
        · have hout : a ∉ (f.transform t).outputs := fun hin => hapart a hin a ha rfl
          rw [matchTransform_get?_of_not_mem htarget (hsource t hmem) hout]
          exact hnone a (List.mem_append_right _ ha)
        · rcases matchTransform_cases (m := m) htarget (hsource t hmem) with
            heq | ⟨s, hsmem, halike, hinputs, heq⟩
          · rw [heq]
            exact h
          · rw [heq]
            refine h.extend hs ht hp (List.mem_map_of_mem hmem) (List.mem_map_of_mem hsmem) ?_
              halike hinputs
            obtain ⟨a, ha⟩ := List.exists_mem_of_ne_nil _ (f.transform t).outputs_ne_nil
            refine ⟨a, ha, ?_⟩
            rw [← Bool.not_eq_true, AxisMap.contains_iff]
            rintro ⟨b, hget⟩
            rw [hnone a (List.mem_append_left _ ha)] at hget
            cases hget
  rw [bestEffortMap_eq htarget]
  have hall : (f.outputsOf (f.history source)).Nodup := by
    have hnodup := (List.nodup_append.1 hs.nodup).2.1
    rwa [List.flatMap_map] at hnodup
  refine hrun _ _ (fun _ h => h) hall (fun a ha => ?_) (.ofPairs hs hp)
  refine Option.eq_none_iff_forall_ne_some.2 fun b hget => ?_
  obtain ⟨t, htmem, hout⟩ := mem_outputsOf.1 ha
  exact hs.new (List.mem_map_of_mem htmem) hout (hp.sources _ (AxisMap.mem_of_get?_ofPairs hget))

omit hf hp in
/-- Matching two histories without broadcasts misses no mirrored transform. -/
theorem bestEffortMap_matched {s t : TransformId} (ht : t ∈ f.history source)
    (hst : s ∈ f.history target) (halike : f.Alike (f.transform t) (f.transform s))
    (hinputs : (f.transform t).inputs.map (f.bestEffortMap source target pairs).get? =
      (f.transform s).inputs.map some) :
    (f.transform t).outputs.map (f.bestEffortMap source target pairs).get? =
      (f.transform s).outputs.map some := by
  have hunique : (f.inputsOf (f.history target)).Nodup :=
    (List.nodup_append.1 (hb.perm.nodup_iff.1 hb.nodup)).2.1
  obtain ⟨before, after, hsplit⟩ := List.append_of_mem ht
  have hlater : ∀ u ∈ after, u ∈ f.history source := by
    intro u hu
    rw [hsplit]
    exact List.mem_append_right _ (List.mem_cons_of_mem t hu)
  have hall : ((f.transform t).outputs ++ f.outputsOf after).Nodup := by
    have hnodup := (List.nodup_append.1 hs.nodup).2.1
    rw [List.flatMap_map, hsplit, List.flatMap_append, List.flatMap_cons] at hnodup
    exact (List.nodup_append.1 hnodup).2.1
  have hordered : ∀ u ∈ after, ∀ a ∈ (f.transform t).inputs, a ∉ (f.transform u).outputs := by
    intro u hu
    have horder := hs.ordered
    rw [hsplit, List.pairwise_map, List.pairwise_append] at horder
    exact (List.pairwise_cons.1 horder.2.1).1 u hu
  rw [bestEffortMap_eq htarget] at hinputs ⊢
  rw [hsplit, List.foldl_append, List.foldl_cons] at hinputs ⊢
  generalize before.foldl (fun m t => f.matchTransform (f.history target) m (f.transform t))
    (AxisMap.ofPairs pairs) = m at hinputs ⊢
  have hkeep := fun a ha => foldl_matchTransform_get? (a := a) hsource htarget hlater ha
    (f.matchTransform (f.history target) m (f.transform t))
  have hinputs' : (f.transform t).inputs.map m.get? = (f.transform s).inputs.map some := by
    rw [← hinputs]
    refine (map_get?_congr fun a ha => ?_).symm
    rw [hkeep a fun u hu => hordered u hu a ha]
    exact matchTransform_get?_of_not_mem htarget (hsource t ht)
      (hs.apart _ (List.mem_map_of_mem ht) a ha)
  have hmatch := matchTransform_eq htarget hunique hst halike hinputs'
  rw [map_get?_congr fun a ha => hkeep a fun u hu hout =>
    (List.nodup_append.1 hall).2.2 a ha a (mem_outputsOf.2 ⟨u, hu, hout⟩) rfl, hmatch]
  exact AxisMap.map_get?_insertAll (List.nodup_append.1 hall).1 halike.length_eq.2

end BestEffort

end Schedule
end FusionCompiler
