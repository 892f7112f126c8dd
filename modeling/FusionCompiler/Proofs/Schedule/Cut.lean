import Mathlib.Data.List.Flatten
import Mathlib.Data.List.Nodup
import Mathlib.Data.List.Perm.Subperm
import FusionCompiler.Proofs.Fusion.Soundness

/-!
# Complete cuts

The transforms of a tensor lead from its root to its leaves: one after another
they replace the axes they consume by the axes they produce.  The leaves form a
complete cut when each transform of the history finds its inputs in place and
what remains at the end is the list of leaves, up to its order.

`Fusion.Balanced` is the invariant behind this: along a list of transforms every
axis is produced once, and what is produced is either consumed once or a leaf.

Main results:

- Theorem `Fusion.Balanced.transformsBetween_eq`: the history of a balanced list
  of leaves is the list of transforms it is balanced along.
- Theorem `Fusion.Balanced.cutAfter_eq_some`: a balanced list of leaves is what the
  transforms make of the root.
- Theorems `Fusion.Balanced.forward_induction` and
  `Fusion.Balanced.backward_induction`: what transforms pass on holds of every
  axis from the root to the leaves.
- Theorems `Fusion.Balanced.record` and `Fusion.Balanced.undo`: recording a
  transform of leaves and undoing one keep the balance.
-/

namespace FusionCompiler

/-! ## Replacing axes along a history -/

/-- Takes axes out of a cut, one after another; there is no result when one is missing. -/
def takeOut : List AxisId → List AxisId → Option (List AxisId)
  | [], cut => some cut
  | a :: as, cut => if a ∈ cut then takeOut as (cut.erase a) else none

/-- Replaces the inputs of a transform by its outputs. -/
def Transform.advance (x : Transform) (cut : List AxisId) : Option (List AxisId) :=
  (takeOut x.inputs cut).map (· ++ x.outputs)

/-- Replaces inputs by outputs for each transform in order. -/
def cutAfter : List Transform → List AxisId → Option (List AxisId)
  | [], cut => some cut
  | x :: xs, cut => (x.advance cut).bind (cutAfter xs)

/-- The history of a tensor leads from its root to its leaves, and no leaf is listed twice. -/
def Fusion.IsCompleteCut (f : Fusion) (v : ValueId) : Prop :=
  ∃ cut, cutAfter ((f.history v).map f.transform) (f.view v).domain.root = some cut ∧
    cut.Perm (f.leaf v) ∧ (f.leaf v).Nodup

instance (f : Fusion) (v : ValueId) : Decidable (f.IsCompleteCut v) :=
  match h : cutAfter ((f.history v).map f.transform) (f.view v).domain.root with
  | none => .isFalse fun ⟨cut, hcut, _⟩ => by
      rw [h] at hcut
      cases hcut
  | some cut => decidable_of_iff (cut.Perm (f.leaf v) ∧ (f.leaf v).Nodup)
      ⟨fun hcut => ⟨cut, h, hcut⟩, fun ⟨cut', heq, hcut⟩ => by
        rw [h] at heq
        cases heq
        exact hcut⟩

theorem Transform.inputs_ne_nil (x : Transform) : x.inputs ≠ [] := by
  cases x <;> simp [Transform.inputs]

theorem Transform.outputs_ne_nil (x : Transform) : x.outputs ≠ [] := by
  cases x <;> simp [Transform.outputs]

theorem takeOut_eq_some {as cut : List AxisId} (has : as.Nodup) (hcut : cut.Nodup)
    (hmem : ∀ a ∈ as, a ∈ cut) :
    ∃ rest, takeOut as cut = some rest ∧ cut.Perm (as ++ rest) := by
  induction as generalizing cut with
  | nil => exact ⟨cut, rfl, .refl cut⟩
  | cons a as ih =>
      have ha : a ∈ cut := hmem a List.mem_cons_self
      obtain ⟨hnot, has⟩ := List.nodup_cons.1 has
      have hmem' : ∀ b ∈ as, b ∈ cut.erase a := by
        intro b hb
        refine (List.mem_erase_of_ne ?_).2 (hmem b (List.mem_cons_of_mem a hb))
        rintro rfl
        exact hnot hb
      obtain ⟨rest, hrest, hperm⟩ := ih has (hcut.erase a) hmem'
      refine ⟨rest, ?_, ?_⟩
      · rw [takeOut, if_pos ha, hrest]
      · exact (List.perm_cons_erase ha).trans (hperm.cons a)

namespace Fusion

variable {f f' : Fusion}

/-- The axes that a list of transforms consumes. -/
def inputsOf (f : Fusion) (ts : List TransformId) : List AxisId :=
  ts.flatMap fun t => (f.transform t).inputs

/-- The axes that a list of transforms produces. -/
def outputsOf (f : Fusion) (ts : List TransformId) : List AxisId :=
  ts.flatMap fun t => (f.transform t).outputs

/-- Along transforms in creation order every axis is produced once, and what is produced, the root
included, is consumed once or a leaf. -/
structure Balanced (f : Fusion) (root : List AxisId) (ts : List TransformId)
    (leaf : List AxisId) : Prop where
  sorted : ts.Pairwise fun s t => s.index < t.index
  has : ∀ t ∈ ts, f.HasTransform t
  nodup : (root ++ f.outputsOf ts).Nodup
  perm : (root ++ f.outputsOf ts).Perm (leaf ++ f.inputsOf ts)

instance (f : Fusion) (root : List AxisId) (ts : List TransformId) (leaf : List AxisId) :
    Decidable (f.Balanced root ts leaf) :=
  decidable_of_iff (ts.Pairwise (fun s t => s.index < t.index) ∧
      (∀ t ∈ ts, t.index < f.transforms.size) ∧ (root ++ f.outputsOf ts).Nodup ∧
      (root ++ f.outputsOf ts).Perm (leaf ++ f.inputsOf ts))
    ⟨fun h => ⟨h.1, h.2.1, h.2.2.1, h.2.2.2⟩, fun h => ⟨h.sorted, h.has, h.nodup, h.perm⟩⟩

/-! ## The order of recorded axes -/

theorem mem_outputsOf {ts : List TransformId} {a : AxisId} :
    a ∈ f.outputsOf ts ↔ ∃ t ∈ ts, a ∈ (f.transform t).outputs :=
  List.mem_flatMap

theorem mem_inputsOf {ts : List TransformId} {a : AxisId} :
    a ∈ f.inputsOf ts ↔ ∃ t ∈ ts, a ∈ (f.transform t).inputs :=
  List.mem_flatMap

/-- A transform produces newer axes than it consumes. -/
theorem Recorded.input_lt_output {x : Transform} (hx : f.Recorded x) {a b : AxisId}
    (ha : a ∈ x.inputs) (hb : b ∈ x.outputs) : a.index < b.index := by
  cases x with
  | split a' o i k innerSplit =>
      obtain ⟨-, hao, hoi, -⟩ := hx
      simp only [Transform.inputs, Transform.outputs, List.mem_cons, List.not_mem_nil,
        or_false] at ha hb
      rcases hb with rfl | rfl <;> subst ha <;> omega
  | merge o i out =>
      obtain ⟨-, ho, hi, -⟩ := hx
      simp only [Transform.inputs, Transform.outputs, List.mem_cons, List.not_mem_nil,
        or_false] at ha hb
      rcases ha with rfl | rfl <;> subst hb <;> assumption

/-- A transform that consumes what another produces is the later one. -/
theorem Sound.index_lt_of_consumes (hf : Sound f) {s t : TransformId} (hs : f.HasTransform s)
    (ht : f.HasTransform t) {a : AxisId} (hout : a ∈ (f.transform s).outputs)
    (hin : a ∈ (f.transform t).inputs) : s.index < t.index := by
  obtain ⟨b, hb⟩ := List.exists_mem_of_ne_nil _ (f.transform t).outputs_ne_nil
  have hab : a.index < b.index := (hf.recorded t ht).input_lt_output hin hb
  rcases Nat.lt_trichotomy s.index t.index with h | h | h
  · exact h
  · have hst : s = t := by
      cases s
      cases t
      exact congrArg TransformId.mk h
    subst hst
    have haa := (hf.recorded s hs).input_lt_output hin hout
    exact absurd haa (Nat.lt_irrefl _)
  · have hba := hf.ordered t s h hs b hb a hout
    omega

/-- An axis is produced by one transform only. -/
theorem Sound.eq_of_produces (hf : Sound f) {s t : TransformId} (hs : f.HasTransform s)
    (ht : f.HasTransform t) {a : AxisId} (has : a ∈ (f.transform s).outputs)
    (hat : a ∈ (f.transform t).outputs) : s = t := by
  rcases Nat.lt_trichotomy s.index t.index with h | h | h
  · exact absurd (hf.ordered s t h ht a has a hat) (Nat.lt_irrefl _)
  · cases s
    cases t
    exact congrArg TransformId.mk h
  · exact absurd (hf.ordered t s h hs a hat a has) (Nat.lt_irrefl _)

/-! ## Histories of balanced leaves -/

/-- In a list ordered by creation, the transforms from one of its members on are that member and
the later ones. -/
theorem filter_le_of_mem {ts : List TransformId}
    (hsorted : ts.Pairwise fun s t => s.index < t.index) {t : TransformId} (ht : t ∈ ts) :
    ts.filter (fun s => t.index ≤ s.index) = t :: ts.filter (fun s => t.index + 1 ≤ s.index) := by
  induction ts with
  | nil => simp at ht
  | cons s ts ih =>
      obtain ⟨hs, hsorted⟩ := List.pairwise_cons.1 hsorted
      rcases List.mem_cons.1 ht with rfl | ht
      · have hrest : ts.filter (fun s => t.index ≤ s.index) =
            ts.filter (fun s => t.index + 1 ≤ s.index) := by
          refine List.filter_congr fun s hmem => ?_
          have := hs s hmem
          simp only [decide_eq_decide]
          omega
        rw [List.filter_cons_of_pos (by simp), hrest, List.filter_cons_of_neg (by simp)]
      · have hlt := hs t ht
        have hnot : ¬ t.index ≤ s.index := by omega
        have hnot' : ¬ t.index + 1 ≤ s.index := by omega
        rw [List.filter_cons_of_neg (by simpa using hnot),
          List.filter_cons_of_neg (by simpa using hnot'), ih hsorted ht]

/-- A transform that is not listed does not matter. -/
theorem filter_le_of_not_mem {ts : List TransformId} {k : Nat} (h : ⟨k⟩ ∉ ts) :
    ts.filter (fun s => k ≤ s.index) = ts.filter (fun s => k + 1 ≤ s.index) := by
  refine List.filter_congr fun s hs => ?_
  have hne : s.index ≠ k := by
    rintro rfl
    exact h hs
  simp only [decide_eq_decide]
  omega

namespace Balanced

variable {root leaf : List AxisId} {ts : List TransformId}

theorem leaf_nodup (h : f.Balanced root ts leaf) : leaf.Nodup :=
  (List.nodup_append.1 (h.perm.nodup_iff.1 h.nodup)).1

/-- What the listed transforms produce is a leaf or consumed by one of them. -/
theorem mem_of_produced (h : f.Balanced root ts leaf) {t : TransformId} (ht : t ∈ ts) {a : AxisId}
    (ha : a ∈ (f.transform t).outputs) :
    a ∉ root ∧ (a ∈ leaf ∨ ∃ s ∈ ts, a ∈ (f.transform s).inputs) := by
  have hout : a ∈ f.outputsOf ts := mem_outputsOf.2 ⟨t, ht, ha⟩
  refine ⟨fun hroot => ?_, ?_⟩
  · exact (List.nodup_append.1 h.nodup).2.2 a hroot a hout rfl
  · have hmem := (h.perm.mem_iff (a := a)).1 (List.mem_append.2 (.inr hout))
    rcases List.mem_append.1 hmem with hleaf | hin
    · exact .inl hleaf
    · exact .inr (mem_inputsOf.1 hin)

/-- What is a leaf or consumed is a root or produced by the listed transforms. -/
theorem mem_of_consumed (h : f.Balanced root ts leaf) {a : AxisId}
    (ha : a ∈ leaf ∨ ∃ s ∈ ts, a ∈ (f.transform s).inputs) :
    a ∈ root ∨ ∃ t ∈ ts, a ∈ (f.transform t).outputs := by
  have hmem : a ∈ leaf ++ f.inputsOf ts := by
    rcases ha with hleaf | hin
    · exact List.mem_append.2 (.inl hleaf)
    · exact List.mem_append.2 (.inr (mem_inputsOf.2 hin))
  rcases List.mem_append.1 ((h.perm.mem_iff (a := a)).2 hmem) with hroot | hout
  · exact .inl hroot
  · exact .inr (mem_outputsOf.1 hout)

/-- The axes of a transform along a history are met on the way. -/
theorem mem_axes (h : f.Balanced root ts leaf) {t : TransformId} (ht : t ∈ ts) {a : AxisId}
    (ha : a ∈ (f.transform t).inputs ++ (f.transform t).outputs) :
    a ∈ root ++ f.outputsOf ts := by
  rcases List.mem_append.1 ha with ha | ha
  · rcases h.mem_of_consumed (.inr ⟨t, ht, ha⟩) with hroot | ⟨s, hs, hout⟩
    · exact List.mem_append_left _ hroot
    · exact List.mem_append_right _ (mem_outputsOf.2 ⟨s, hs, hout⟩)
  · exact List.mem_append_right _ (mem_outputsOf.2 ⟨t, ht, ha⟩)

theorem leaf_mem_axes (h : f.Balanced root ts leaf) {a : AxisId} (ha : a ∈ leaf) :
    a ∈ root ++ f.outputsOf ts :=
  h.perm.mem_iff.2 (List.mem_append_left _ ha)

/-- What a transform that is not listed produces is wanted by nobody. -/
theorem traceStep_of_not_mem (hf : Sound f) (h : f.Balanced root ts leaf) {t : TransformId}
    {w : Trace} (ht : f.HasTransform t) (hnot : t ∉ ts)
    (hwanted : ∀ a ∈ w.wanted, a ∈ leaf ∨ ∃ s ∈ ts, a ∈ (f.transform s).inputs) :
    traceStep root t (f.transform t) w = w := by
  refine if_neg fun hany => ?_
  obtain ⟨a, ha, hwant⟩ := List.any_eq_true.1 hany
  simp only [Bool.and_eq_true, Bool.not_eq_true', List.contains_eq_mem, decide_eq_true_eq,
    decide_eq_false_iff_not] at hwant
  rcases h.mem_of_consumed (hwanted a hwant.1) with hroot | ⟨s, hs, hout⟩
  · exact hwant.2 hroot
  · exact hnot (hf.eq_of_produces ht (h.has s hs) ha hout ▸ hs)

/-- A walk backwards from leaves only takes in transforms that are listed. -/
theorem trace_listed (hf : Sound f) (h : f.Balanced root ts leaf) {goal : List AxisId}
    (hgoal : ∀ a ∈ goal, a ∈ leaf) (xs : List Transform) (k : Nat)
    (hxs : ∀ j (hj : j < xs.length), f.transform ⟨k + j⟩ = xs[j])
    (hlength : k + xs.length = f.transforms.size) :
    let w := (xs.zipIdx k).foldr (fun (x, i) w => traceStep root ⟨i⟩ x w) ⟨goal, []⟩
    w = (ts.filter (fun t => k ≤ t.index)).foldr
        (fun t w => traceStep root t (f.transform t) w) ⟨goal, []⟩ ∧
      ∀ a ∈ w.wanted, a ∈ leaf ∨ ∃ s ∈ ts, a ∈ (f.transform s).inputs := by
  induction xs generalizing k with
  | nil =>
      have hnone : ts.filter (fun t => k ≤ t.index) = [] := by
        rw [List.filter_eq_nil_iff]
        intro t ht hle
        have hlt : t.index < f.transforms.size := h.has t ht
        have hle : k ≤ t.index := by simpa using hle
        simp only [List.length_nil] at hlength
        omega
      refine ⟨?_, fun a ha => .inl (hgoal a ha)⟩
      rw [hnone]
      rfl
  | cons x xs ih =>
      have hx : f.transform ⟨k⟩ = x := hxs 0 (by simp)
      have hk : f.HasTransform ⟨k⟩ := by
        simp only [List.length_cons] at hlength
        change k < f.transforms.size
        omega
      obtain ⟨heq, hwanted⟩ := ih (k + 1)
        (fun j hj => by
          rw [Nat.add_right_comm]
          exact hxs (j + 1) (by simpa using hj))
        (by
          simp only [List.length_cons] at hlength
          omega)
      rw [List.zipIdx_cons, List.foldr_cons]
      generalize (xs.zipIdx (k + 1)).foldr (fun (x, i) w => traceStep root ⟨i⟩ x w) ⟨goal, []⟩ = w
        at heq hwanted ⊢
      dsimp only
      rw [← hx]
      by_cases hmem : (⟨k⟩ : TransformId) ∈ ts
      · rw [filter_le_of_mem h.sorted hmem, List.foldr_cons, ← heq]
        refine ⟨rfl, fun a ha => ?_⟩
        unfold traceStep at ha
        split at ha
        · rcases List.mem_append.1 ha with ha | ha
          · exact .inr ⟨⟨k⟩, hmem, ha⟩
          · exact hwanted a ha
        · exact hwanted a ha
      · rw [h.traceStep_of_not_mem hf hk hmem hwanted, filter_le_of_not_mem hmem]
        exact ⟨heq, hwanted⟩

/-- The history of some of the leaves is found by walking backwards through the listed
transforms. -/
theorem transformsBetween_eq_foldr (hf : Sound f) (h : f.Balanced root ts leaf)
    {goal : List AxisId} (hgoal : ∀ a ∈ goal, a ∈ leaf) :
    f.transformsBetween root goal =
      (ts.foldr (fun t w => traceStep root t (f.transform t) w) ⟨goal, []⟩).found := by
  obtain ⟨heq, -⟩ := trace_listed hf h hgoal f.transforms.toList 0
    (fun j hj => by
      unfold transform
      rw [Nat.zero_add, Array.getD_eq_getD_getElem?, Array.getElem?_eq_getElem (by simpa using hj)]
      simp)
    (by simp)
  unfold transformsBetween
  dsimp only
  rw [heq]
  simp

end Balanced

/-- A walk backwards through transforms in creation order finds some of them, and all those that
produced what it came to want. -/
theorem foldr_traceStep_spec (hf : Sound f) (root goal : List AxisId) {ts : List TransformId}
    (hsorted : ts.Pairwise fun s t => s.index < t.index) (hhas : ∀ t ∈ ts, f.HasTransform t) :
    let w := ts.foldr (fun t w => traceStep root t (f.transform t) w) ⟨goal, []⟩
    w.found.Sublist ts ∧
      (∀ a, a ∈ w.wanted ↔ a ∈ goal ∨ ∃ t ∈ w.found, a ∈ (f.transform t).inputs) ∧
      ∀ t ∈ ts, ∀ a ∈ (f.transform t).outputs, a ∈ w.wanted → a ∉ root → t ∈ w.found := by
  induction ts with
  | nil => exact ⟨List.Sublist.refl _, by simp, by simp⟩
  | cons s ts ih =>
      obtain ⟨hlater, hsorted⟩ := List.pairwise_cons.1 hsorted
      obtain ⟨hsub, hwanted, hfound⟩ := ih hsorted fun t ht => hhas t (List.mem_cons_of_mem s ht)
      rw [List.foldr_cons]
      generalize ts.foldr (fun t w => traceStep root t (f.transform t) w) ⟨goal, []⟩ = w
        at hsub hwanted hfound ⊢
      dsimp only
      by_cases hcond : ((f.transform s).outputs.any fun a =>
          w.wanted.contains a && !root.contains a) = true
      · have hstep : traceStep root s (f.transform s) w =
            ⟨(f.transform s).inputs ++ w.wanted, s :: w.found⟩ := if_pos hcond
        rw [hstep]
        refine ⟨hsub.cons_cons s, fun a => ?_, fun t ht a ha hwant hroot => ?_⟩
        · simp only [List.mem_append, hwanted, List.mem_cons, exists_eq_or_imp]
          tauto
        · rcases List.mem_cons.1 ht with rfl | ht
          · exact List.mem_cons_self
          · refine List.mem_cons_of_mem s (hfound t ht a ha ?_ hroot)
            -- an input of `s` is produced before `s`, hence not by a later transform
            rcases List.mem_append.1 hwant with hin | hwant
            · have hlt := hf.index_lt_of_consumes (hhas t (List.mem_cons_of_mem s ht))
                (hhas s List.mem_cons_self) ha hin
              have := hlater t ht
              omega
            · exact hwant
      · have hstep : traceStep root s (f.transform s) w = w := if_neg hcond
        rw [hstep]
        refine ⟨hsub.trans (List.sublist_cons_self s ts), hwanted, fun t ht a ha hwant hroot => ?_⟩
        rcases List.mem_cons.1 ht with rfl | ht
        · exact absurd (List.any_eq_true.2 ⟨a, ha, by simp [hwant, hroot]⟩) hcond
        · exact hfound t ht a ha hwant hroot

namespace Balanced

variable {root leaf : List AxisId} {ts : List TransformId}

/-- The history of balanced leaves is the list of transforms they are balanced along. -/
theorem transformsBetween_eq (hf : Sound f) (h : f.Balanced root ts leaf) :
    f.transformsBetween root leaf = ts := by
  rw [h.transformsBetween_eq_foldr hf fun _ ha => ha]
  obtain ⟨hsub, hwanted, hfound⟩ := foldr_traceStep_spec hf root leaf h.sorted h.has
  generalize ts.foldr (fun t w => traceStep root t (f.transform t) w) ⟨leaf, []⟩ = w
    at hsub hwanted hfound ⊢
  -- from the last transform on: what it produced is a leaf or consumed by a later one
  have hall : ∀ n, ∀ t ∈ ts, f.transforms.size - t.index ≤ n → t ∈ w.found := by
    intro n
    induction n with
    | zero =>
        intro t ht hle
        have hlt : t.index < f.transforms.size := h.has t ht
        omega
    | succ n ih =>
        intro t ht hle
        obtain ⟨b, hb⟩ := List.exists_mem_of_ne_nil _ (f.transform t).outputs_ne_nil
        obtain ⟨hroot, huse⟩ := h.mem_of_produced ht hb
        refine hfound t ht b hb ((hwanted b).2 ?_) hroot
        rcases huse with hleaf | ⟨s, hs, hin⟩
        · exact .inl hleaf
        · have hlt := hf.index_lt_of_consumes (h.has t ht) (h.has s hs) hb hin
          exact .inr ⟨s, ih s hs (by omega), hin⟩
  have hnodup : ts.Nodup := h.sorted.imp fun hlt heq => Nat.ne_of_lt hlt (congrArg _ heq)
  have hsubset : ts ⊆ w.found := fun t ht => hall _ t ht (Nat.le_refl _)
  exact hsub.eq_of_length_le (List.subperm_of_subset hnodup hsubset).length_le

/-- The history of some of the leaves is part of the history, and it holds what produced these
leaves and the inputs of its transforms. -/
theorem transformsBetween_part (hf : Sound f) (h : f.Balanced root ts leaf) {goal : List AxisId}
    (hgoal : ∀ a ∈ goal, a ∈ leaf) :
    (f.transformsBetween root goal).Sublist ts ∧
      ∀ a, (a ∈ goal ∨ ∃ t ∈ f.transformsBetween root goal, a ∈ (f.transform t).inputs) →
        a ∈ root ∨ ∃ t ∈ f.transformsBetween root goal, a ∈ (f.transform t).outputs := by
  rw [h.transformsBetween_eq_foldr hf hgoal]
  obtain ⟨hsub, hwanted, hfound⟩ := foldr_traceStep_spec hf root goal h.sorted h.has
  refine ⟨hsub, fun a ha => ?_⟩
  have huse : a ∈ leaf ∨ ∃ s ∈ ts, a ∈ (f.transform s).inputs := by
    rcases ha with ha | ⟨t, ht, hin⟩
    · exact .inl (hgoal a ha)
    · exact .inr ⟨t, hsub.subset ht, hin⟩
  by_cases hroot : a ∈ root
  · exact .inl hroot
  · rcases h.mem_of_consumed huse with hin | ⟨t, ht, hout⟩
    · exact .inl hin
    · exact .inr ⟨t, hfound t ht a hout ((hwanted a).2 ha) hroot, hout⟩

/-! ## The cut that a history makes -/

/-- The first of the transforms finds its inputs in the cut, and what it makes of the cut is balanced
along the others. -/
theorem step (hf : Sound f) {t : TransformId} (h : f.Balanced root (t :: ts) leaf) :
    ∃ rest, takeOut (f.transform t).inputs root = some rest ∧
      root.Perm ((f.transform t).inputs ++ rest) ∧
      f.Balanced (rest ++ (f.transform t).outputs) ts leaf ∧
      ((f.transform t).inputs ++ (rest ++ (f.transform t).outputs ++ f.outputsOf ts)).Nodup := by
  obtain ⟨hlater, hsorted⟩ := List.pairwise_cons.1 h.sorted
  have hperm : (root ++ ((f.transform t).outputs ++ f.outputsOf ts)).Perm
      (leaf ++ ((f.transform t).inputs ++ f.inputsOf ts)) := h.perm
  have hnodup : (root ++ ((f.transform t).outputs ++ f.outputsOf ts)).Nodup := h.nodup
  have hin : (f.transform t).inputs.Nodup := by
    have hright := (List.nodup_append.1 (hperm.nodup_iff.1 hnodup)).2.1
    exact (List.nodup_append.1 hright).1
  have hroot : root.Nodup := (List.nodup_append.1 hnodup).1
  -- an input is older than everything that the remaining transforms produce
  have hmem : ∀ a ∈ (f.transform t).inputs, a ∈ root := by
    intro a ha
    rcases h.mem_of_consumed (.inr ⟨t, List.mem_cons_self, ha⟩) with hroot | ⟨s, hs, hout⟩
    · exact hroot
    · have hlt := hf.index_lt_of_consumes (h.has s hs) (h.has t List.mem_cons_self) hout ha
      rcases List.mem_cons.1 hs with rfl | hs
      · omega
      · have := hlater s hs
        omega
  obtain ⟨rest, htake, hrest⟩ := takeOut_eq_some hin hroot hmem
  have hall : ((f.transform t).inputs ++
      (rest ++ (f.transform t).outputs ++ f.outputsOf ts)).Nodup := by
    refine (List.Perm.nodup_iff ?_).1 hnodup
    rw [List.append_assoc, ← List.append_assoc _ rest]
    exact hrest.append_right _
  refine ⟨rest, htake, hrest, ⟨hsorted, ?_, (List.nodup_append.1 hall).2.1, ?_⟩, hall⟩
  · exact fun s hs => h.has s (List.mem_cons_of_mem t hs)
  · rw [List.perm_iff_count] at hperm hrest ⊢
    intro a
    have h₁ := hperm a
    have h₂ := hrest a
    simp only [List.count_append] at h₁ h₂ ⊢
    omega

/-- Balanced leaves are what the transforms make of any cut they start from. -/
theorem cutAfter_eq_some (hf : Sound f) (h : f.Balanced root ts leaf) :
    ∃ cut, cutAfter (ts.map f.transform) root = some cut ∧ cut.Perm leaf := by
  induction ts generalizing root with
  | nil =>
      refine ⟨root, rfl, ?_⟩
      simpa [outputsOf, inputsOf] using h.perm
  | cons t ts ih =>
      obtain ⟨rest, htake, -, hnext, -⟩ := h.step hf
      obtain ⟨cut, hcut, hleaf⟩ := ih hnext
      refine ⟨cut, ?_, hleaf⟩
      rw [List.map_cons, cutAfter, Transform.advance, htake]
      exact hcut

/-! ## Induction along a history -/

/-- What holds of the root and is passed on by each transform holds of every axis met. -/
theorem forward_induction {P : AxisId → Prop} (hf : Sound f) (h : f.Balanced root ts leaf)
    (hroot : ∀ a ∈ root, P a)
    (hstep : ∀ t ∈ ts, (∀ a ∈ (f.transform t).inputs, P a) → ∀ a ∈ (f.transform t).outputs, P a) :
    ∀ a ∈ root ++ f.outputsOf ts, P a := by
  induction ts generalizing root with
  | nil => simpa [outputsOf] using hroot
  | cons t ts ih =>
      obtain ⟨rest, -, hrest, hnext, -⟩ := h.step hf
      have hin : ∀ a ∈ (f.transform t).inputs, P a :=
        fun a ha => hroot a (hrest.mem_iff.2 (List.mem_append_left rest ha))
      have hout := hstep t List.mem_cons_self hin
      have hcut : ∀ a ∈ rest ++ (f.transform t).outputs, P a := by
        intro a ha
        rcases List.mem_append.1 ha with ha | ha
        · exact hroot a (hrest.mem_iff.2 (List.mem_append_right _ ha))
        · exact hout a ha
      have hall := ih hnext hcut fun s hs => hstep s (List.mem_cons_of_mem t hs)
      intro a ha
      rcases List.mem_append.1 ha with ha | ha
      · exact hroot a ha
      · refine hall a ?_
        rcases List.mem_append.1 ha with ha | ha
        · exact List.mem_append_left _ (List.mem_append_right rest ha)
        · exact List.mem_append_right _ ha

/-- What holds of the leaves and is passed back by each transform holds of every axis met. -/
theorem backward_induction {P : AxisId → Prop} (hf : Sound f) (h : f.Balanced root ts leaf)
    (hleaf : ∀ a ∈ leaf, P a)
    (hstep : ∀ t ∈ ts, (∀ a ∈ (f.transform t).outputs, P a) → ∀ a ∈ (f.transform t).inputs, P a) :
    ∀ a ∈ root ++ f.outputsOf ts, P a := by
  induction ts generalizing root with
  | nil =>
      intro a ha
      exact hleaf a (by simpa [inputsOf] using (h.perm.mem_iff (a := a)).1 ha)
  | cons t ts ih =>
      obtain ⟨rest, -, hrest, hnext, -⟩ := h.step hf
      have hall := ih hnext fun s hs => hstep s (List.mem_cons_of_mem t hs)
      have hcut : ∀ a ∈ rest ++ (f.transform t).outputs, P a :=
        fun a ha => hall a (List.mem_append_left _ ha)
      have hin := hstep t List.mem_cons_self fun a ha => hcut a (List.mem_append_right rest ha)
      intro a ha
      rcases List.mem_append.1 ha with ha | ha
      · rcases List.mem_append.1 (hrest.mem_iff.1 ha) with ha | ha
        · exact hin a ha
        · exact hcut a (List.mem_append_left _ ha)
      · rcases List.mem_append.1 ha with ha | ha
        · exact hcut a (List.mem_append_right rest ha)
        · exact hall a (List.mem_append_right _ ha)

/-! ## What keeps the balance -/

/-- An unscheduled root is balanced along no transforms. -/
theorem ofRoot (h : root.Nodup) : f.Balanced root [] root := by
  refine ⟨List.Pairwise.nil, by simp, ?_, ?_⟩ <;> simp [outputsOf, inputsOf, h]

/-- The order of the leaves does not matter. -/
theorem reorder {leaf' : List AxisId} (h : f.Balanced root ts leaf) (hp : leaf'.Perm leaf) :
    f.Balanced root ts leaf' :=
  ⟨h.sorted, h.has, h.nodup, h.perm.trans (hp.symm.append_right _)⟩

theorem inputsOf_congr (h : ∀ t ∈ ts, f'.transform t = f.transform t) :
    f'.inputsOf ts = f.inputsOf ts := by
  unfold inputsOf List.flatMap
  rw [List.map_congr_left fun t ht => by rw [h t ht]]

theorem outputsOf_congr (h : ∀ t ∈ ts, f'.transform t = f.transform t) :
    f'.outputsOf ts = f.outputsOf ts := by
  unfold outputsOf List.flatMap
  rw [List.map_congr_left fun t ht => by rw [h t ht]]

/-- Extending a fusion keeps the balance. -/
theorem mono (h : f.Balanced root ts leaf) (hext : Extends f f') : f'.Balanced root ts leaf := by
  have hsame : ∀ t ∈ ts, f'.transform t = f.transform t := fun t ht => hext.transform t (h.has t ht)
  refine ⟨h.sorted, fun t ht => hext.hasTransform (h.has t ht), ?_, ?_⟩
  · rw [outputsOf_congr hsame]
    exact h.nodup
  · rw [outputsOf_congr hsame, inputsOf_congr hsame]
    exact h.perm

/-- Extending a fusion keeps the history of some of the leaves. -/
theorem transformsBetween_mono (hf : Sound f) (hf' : Sound f') (h : f.Balanced root ts leaf)
    (hext : Extends f f') {goal : List AxisId} (hgoal : ∀ a ∈ goal, a ∈ leaf) :
    f'.transformsBetween root goal = f.transformsBetween root goal := by
  rw [(h.mono hext).transformsBetween_eq_foldr hf' hgoal, h.transformsBetween_eq_foldr hf hgoal]
  refine congrArg Trace.found (List.foldr_ext _ _ _ fun t ht w => ?_)
  rw [hext.transform t (h.has t ht)]

/-- Recording a transform that replaces leaves by new axes keeps the balance. -/
theorem record {x : Transform} {leaf' : List AxisId} (h : f.Balanced root ts leaf)
    (htransforms : f'.transforms = f.transforms.push x) (hnodup : x.outputs.Nodup)
    (hnew : ∀ b ∈ x.outputs, b ∉ root ∧ b ∉ f.outputsOf ts)
    (hleaf : (leaf' ++ x.inputs).Perm (leaf ++ x.outputs)) :
    f'.Balanced root (ts ++ [⟨f.transforms.size⟩]) leaf' := by
  have hold : ∀ t ∈ ts, f'.transform t = f.transform t := by
    intro t ht
    have hlt : t.index < f.transforms.size := h.has t ht
    have hpush := transform_push f x t
    rw [if_neg (Nat.ne_of_lt hlt)] at hpush
    unfold transform at hpush ⊢
    rw [htransforms]
    exact hpush
  have hlast : f'.transform ⟨f.transforms.size⟩ = x := by
    have hpush := transform_push f x ⟨f.transforms.size⟩
    rw [if_pos rfl] at hpush
    unfold transform at hpush ⊢
    rw [htransforms]
    exact hpush
  have hout : f'.outputsOf (ts ++ [⟨f.transforms.size⟩]) = f.outputsOf ts ++ x.outputs := by
    have hsplit : f'.outputsOf (ts ++ [⟨f.transforms.size⟩]) = f'.outputsOf ts ++ x.outputs := by
      simp [outputsOf, hlast]
    rw [hsplit, outputsOf_congr hold]
  have hin : f'.inputsOf (ts ++ [⟨f.transforms.size⟩]) = f.inputsOf ts ++ x.inputs := by
    have hsplit : f'.inputsOf (ts ++ [⟨f.transforms.size⟩]) = f'.inputsOf ts ++ x.inputs := by
      simp [inputsOf, hlast]
    rw [hsplit, inputsOf_congr hold]
  refine ⟨?_, ?_, ?_, ?_⟩
  · refine List.pairwise_append.2 ⟨h.sorted, List.pairwise_singleton _ _, fun s hs t ht => ?_⟩
    rw [List.mem_singleton.1 ht]
    exact h.has s hs
  · intro t ht
    unfold HasTransform
    rw [htransforms, Array.size_push]
    rcases List.mem_append.1 ht with ht | ht
    · exact Nat.lt_succ_of_lt (h.has t ht)
    · rw [List.mem_singleton.1 ht]
      exact Nat.lt_succ_self _
  · rw [hout, ← List.append_assoc]
    refine List.nodup_append.2 ⟨h.nodup, hnodup, fun a ha b hb hab => ?_⟩
    subst hab
    rcases List.mem_append.1 ha with hroot | hmem
    · exact (hnew a hb).1 hroot
    · exact (hnew a hb).2 hmem
  · rw [hout, hin]
    have hperm := h.perm
    rw [List.perm_iff_count] at hperm hleaf ⊢
    intro a
    have h₁ := hperm a
    have h₂ := hleaf a
    simp only [List.count_append] at h₁ h₂ ⊢
    omega

/-- Undoing a listed transform whose outputs are leaves keeps the balance. -/
theorem undo {t : TransformId} {rest leaf' : List AxisId} (h : f.Balanced root ts leaf)
    (ht : t ∈ ts) (hrest : leaf.Perm ((f.transform t).outputs ++ rest))
    (hleaf : leaf'.Perm (rest ++ (f.transform t).inputs)) :
    f.Balanced root (ts.erase t) leaf' := by
  have hperm : ts.Perm (t :: ts.erase t) := List.perm_cons_erase ht
  have hout : (f.outputsOf ts).Perm ((f.transform t).outputs ++ f.outputsOf (ts.erase t)) :=
    hperm.flatMap_right _
  have hin : (f.inputsOf ts).Perm ((f.transform t).inputs ++ f.inputsOf (ts.erase t)) :=
    hperm.flatMap_right _
  refine ⟨h.sorted.sublist List.erase_sublist,
    fun s hs => h.has s (List.erase_subset hs), ?_, ?_⟩
  · refine h.nodup.sublist (List.Sublist.append_left ?_ root)
    exact List.erase_sublist.flatMap _
  · have hall := h.perm
    rw [List.perm_iff_count] at hall hrest hleaf hout hin ⊢
    intro a
    have h₁ := hall a
    have h₂ := hrest a
    have h₃ := hleaf a
    have h₄ := hout a
    have h₅ := hin a
    simp only [List.count_append] at h₁ h₂ h₃ h₄ h₅ ⊢
    omega

end Balanced

/-- Balanced leaves of a tensor are a complete cut. -/
theorem isCompleteCut_of_balanced (hf : Sound f) {v : ValueId} {ts : List TransformId}
    (h : f.Balanced (f.view v).domain.root ts (f.leaf v)) : f.IsCompleteCut v := by
  obtain ⟨cut, hcut, hperm⟩ := h.cutAfter_eq_some hf
  refine ⟨cut, ?_, hperm, h.leaf_nodup⟩
  have hhistory : f.history v = ts := h.transformsBetween_eq hf
  rw [hhistory]
  exact hcut

end Fusion
end FusionCompiler
