import FusionCompiler.Proofs.Schedule.Staging

/-!
# Factored reductions

A reduction is factored along the ancestors of its leaves: what leads to a leaf that
is kept happens before the partial results, everything else after them.  Where no
transform joins a reduction with another axis, both parts of the history are
balanced, and the axes between them are the leaves that are kept and the axes of
the root that are no reductions.

Main results:

- Theorem `Schedule.mem_withAncestors`: the ancestors of leaves are found along the
  history.
- Theorem `Schedule.Factoring.Splits.frontier_balanced`: the first part of the history leads
  from the root to the frontier.
- Theorem `Schedule.Factoring.Splits.second_balanced`: the second part leads from what the
  partial results are listed by to the remaining leaves.
-/

namespace FusionCompiler
namespace Fusion.Balanced

variable {f : Fusion} {root leaf root' leaf' : List AxisId} {ts ts' : List TransformId}

/-- A part of a history is balanced between axes that it neither produces nor consumes. -/
theorem sub (h : f.Balanced root ts leaf) (hsub : ts'.Sublist ts) (hroot : root'.Nodup)
    (hleaf : leaf'.Nodup) (hnew : ∀ a ∈ root', a ∉ f.outputsOf ts')
    (hend : ∀ a ∈ leaf', a ∉ f.inputsOf ts')
    (hmem : ∀ a, a ∈ root' ∨ a ∈ f.outputsOf ts' ↔ a ∈ leaf' ∨ a ∈ f.inputsOf ts') :
    f.Balanced root' ts' leaf' := by
  have hout : (f.outputsOf ts').Nodup :=
    (List.nodup_append.1 h.nodup).2.1.sublist (hsub.flatMap _)
  have hin : (f.inputsOf ts').Nodup :=
    (List.nodup_append.1 (h.perm.nodup_iff.1 h.nodup)).2.1.sublist (hsub.flatMap _)
  have happart : ∀ {l l' : List AxisId}, (∀ a ∈ l, a ∉ l') → ∀ a ∈ l, ∀ b ∈ l', a ≠ b := by
    rintro l l' h a ha b hb rfl
    exact h a ha hb
  have hnodup : (root' ++ f.outputsOf ts').Nodup :=
    List.nodup_append.2 ⟨hroot, hout, happart hnew⟩
  refine ⟨h.sorted.sublist hsub, fun t ht => h.has t (hsub.subset ht), hnodup, ?_⟩
  refine (List.perm_ext_iff_of_nodup hnodup ?_).2 fun a => ?_
  · exact List.nodup_append.2 ⟨hleaf, hin, happart hend⟩
  · rw [List.mem_append, List.mem_append]
    exact hmem a

/-- The order of the root does not matter. -/
theorem reorderRoot (h : f.Balanced root ts leaf) (hp : root'.Perm root) :
    f.Balanced root' ts leaf :=
  ⟨h.sorted, h.has, (hp.append_right _).nodup_iff.2 h.nodup, (hp.append_right _).trans h.perm⟩

/-- A leaf is consumed by no transform of the history. -/
theorem not_mem_inputs (h : f.Balanced root ts leaf) {a : AxisId} (ha : a ∈ leaf)
    {t : TransformId} (ht : t ∈ ts) : a ∉ (f.transform t).inputs := fun hin =>
  (List.nodup_append.1 (h.perm.nodup_iff.1 h.nodup)).2.2 a ha a (mem_inputsOf.2 ⟨t, ht, hin⟩) rfl

end Fusion.Balanced

open Fusion

namespace Schedule

variable {f : Fusion} {root leaf goal axes rest : List AxisId} {ts : List TransformId}
  {x : Transform} {a : AxisId}

/-! ## Transforms in place -/

/-- What stands before and behind the position of an axis. -/
theorem take_drop_of_idxOf? {n : Nat} (h : axes.idxOf? a = some n) :
    n < axes.length ∧ axes = axes.take n ++ a :: axes.drop (n + 1) := by
  obtain ⟨hlt, hget⟩ := List.getElem?_eq_some_iff.1 (getElem?_of_idxOf? h)
  refine ⟨hlt, ?_⟩
  rw [← hget, ← List.drop_eq_getElem_cons hlt, List.take_append_drop]

theorem set_of_idxOf? {n : Nat} {b : AxisId} (h : axes.idxOf? a = some n) :
    axes.set n b = axes.take n ++ b :: axes.drop (n + 1) :=
  List.set_eq_take_append_cons_drop.trans (if_pos (take_drop_of_idxOf? h).1)

/-- What a transform in place makes of axes. -/
theorem applyInPlace_perm (hnodup : axes.Nodup) (hnew : ∀ a ∈ x.inputs, a ∉ x.outputs)
    (h : axes.Perm (x.inputs ++ rest)) : (applyInPlace axes x).Perm (rest ++ x.outputs) := by
  have hmem : ∀ a ∈ x.inputs, a ∈ axes := fun a ha => h.mem_iff.2 (List.mem_append_left _ ha)
  cases x with
  | split a o i k innerSplit =>
      obtain ⟨n, hn⟩ := Option.isSome_iff_exists.1
        (List.isSome_idxOf?.2 (hmem a (by simp [Transform.inputs])))
      have hrest : (axes.take n ++ axes.drop (n + 1)).Perm rest := by
        rw [(take_drop_of_idxOf? hn).2] at h
        exact List.Perm.cons_inv (List.perm_middle.symm.trans h)
      rw [applyInPlace, hn]
      simp only [List.append_assoc]
      refine .trans ?_ (hrest.append_right _)
      rw [List.append_assoc]
      exact List.perm_append_comm.append_left _
  | merge o i out =>
      obtain ⟨n, hn⟩ := Option.isSome_iff_exists.1
        (List.isSome_idxOf?.2 (hmem o (by simp [Transform.inputs])))
      have hout : out ≠ i := by
        rintro rfl
        exact hnew out (by simp [Transform.inputs]) (by simp [Transform.outputs])
      have hrest : (axes.take n ++ axes.drop (n + 1)).Perm (i :: rest) := by
        rw [(take_drop_of_idxOf? hn).2] at h
        exact List.Perm.cons_inv (List.perm_middle.symm.trans h)
      have hi : i ∉ rest :=
        (List.nodup_cons.1 (List.nodup_cons.1 (h.nodup_iff.1 hnodup)).2).1
      have hfilter : (i :: rest).filter (· != i) = rest := by
        rw [List.filter_cons_of_neg (by simp), List.filter_eq_self]
        rintro b hb
        simp only [bne_iff_ne]
        rintro rfl
        exact hi hb
      rw [applyInPlace, hn]
      change ((axes.set n out).filter (· != i)).Perm (rest ++ [out])
      rw [set_of_idxOf? hn]
      refine ((List.perm_middle.trans (hrest.cons out)).filter _).trans ?_
      rw [List.filter_cons_of_pos (by simpa using hout), hfilter]
      exact (List.perm_append_singleton out rest).symm

/-- A transform in place keeps the other axes where they are. -/
theorem filter_applyInPlace {p : AxisId → Bool} (hp : ∀ a ∈ x.inputs ++ x.outputs, p a = false) :
    (applyInPlace axes x).filter p = axes.filter p := by
  cases x with
  | split a o i k innerSplit =>
      have ha := hp a (by simp [Transform.inputs])
      have ho := hp o (by simp [Transform.outputs])
      have hi := hp i (by simp [Transform.outputs])
      rw [applyInPlace]
      split
      case h_1 n hn =>
          have haxes := congrArg (List.filter p) (take_drop_of_idxOf? hn).2
          rw [haxes]
          simp [ha, ho, hi]
      case h_2 => rfl
  | merge o i out =>
      have ho := hp o (by simp [Transform.inputs])
      have hi := hp i (by simp [Transform.inputs])
      have hout := hp out (by simp [Transform.outputs])
      rw [applyInPlace]
      split
      case h_1 n hn =>
          have haxes := congrArg (List.filter p) (take_drop_of_idxOf? hn).2
          have hother : (axes.set n out).filter (fun a => p a && a != i) =
              (axes.set n out).filter p := by
            refine List.filter_congr fun b _ => ?_
            by_cases hb : b = i
            · rw [hb, hi, Bool.false_and]
            · rw [(bne_iff_ne).2 hb, Bool.and_true]
          rw [List.filter_filter, hother, haxes, set_of_idxOf? hn]
          simp [ho, hout]
      case h_2 => rfl

/-- Transforms in place keep the other axes where they are. -/
theorem filter_foldl_applyInPlace {p : AxisId → Bool}
    (hp : ∀ t ∈ ts, ∀ a ∈ (f.transform t).inputs ++ (f.transform t).outputs, p a = false) :
    (ts.foldl (fun axes t => applyInPlace axes (f.transform t)) axes).filter p =
      axes.filter p := by
  induction ts generalizing axes with
  | nil => rfl
  | cons t ts ih =>
      rw [List.foldl_cons, ih fun s hs => hp s (List.mem_cons_of_mem t hs),
        filter_applyInPlace (hp t List.mem_cons_self)]

/-- The transforms of a history in place lead from the root to the leaves. -/
theorem foldl_applyInPlace_perm (hf : Sound f) (h : f.Balanced root ts leaf) :
    (ts.foldl (fun axes t => applyInPlace axes (f.transform t)) root).Perm leaf := by
  induction ts generalizing root with
  | nil => simpa [outputsOf, inputsOf] using h.perm
  | cons t ts ih =>
      obtain ⟨rest, -, hperm, hnext, hapart⟩ := h.step hf
      have hroot : root.Nodup := (List.nodup_append.1 h.nodup).1
      have hnew : ∀ a ∈ (f.transform t).inputs, a ∉ (f.transform t).outputs := fun a ha hmem =>
        (List.nodup_append.1 hapart).2.2 a ha a (by simp [hmem]) rfl
      exact ih (hnext.reorderRoot (applyInPlace_perm hroot hnew hperm))

/-! ## Ancestors -/

/-- Where the root is made by no transform, the ancestors of leaves are found along the history. -/
theorem withAncestors_eq (hf : Sound f) (h : f.Balanced root ts leaf)
    (hroot : ∀ x ∈ f.transforms.toList, ∀ a ∈ x.outputs, a ∉ root) (hgoal : ∀ a ∈ goal, a ∈ leaf) :
    withAncestors f goal =
      (ts.foldr (fun t w => traceStep root t (f.transform t) w) ⟨goal, []⟩).wanted := by
  have hall : ts.filter (fun t => 0 ≤ t.index) = ts := by simp
  obtain ⟨heq, -⟩ := Balanced.trace_listed hf h hgoal f.transforms.toList 0
    (fun j hj => by
      unfold transform
      rw [Nat.zero_add, Array.getD_eq_getD_getElem?, Array.getElem?_eq_getElem (by simpa using hj)]
      simp)
    (by simp)
  rw [hall] at heq
  rw [← heq]
  unfold withAncestors
  refine congrArg Trace.wanted (List.foldr_ext _ _ _ fun p hp w => ?_)
  have hx : p.1 ∈ f.transforms.toList := (List.mem_zipIdx hp).2.2 ▸ List.getElem_mem _
  have hnot : ∀ a ∈ p.1.outputs, root.contains a = false := by
    intro a ha
    simpa using hroot p.1 hx a ha
  have hany : (p.1.outputs.any fun a => w.wanted.contains a && !([] : List AxisId).contains a) =
      p.1.outputs.any fun a => w.wanted.contains a && !root.contains a := by
    rw [Bool.eq_iff_iff, List.any_eq_true, List.any_eq_true]
    refine exists_congr fun a => and_congr_right fun ha => ?_
    rw [hnot a ha]
    rfl
  change traceStep [] _ p.1 w = traceStep root _ p.1 w
  unfold traceStep
  rw [hany]

/-- What a walk backwards finds produced something wanted. -/
theorem exists_wanted_of_found {t : TransformId} :
    let w := ts.foldr (fun t w => traceStep root t (f.transform t) w) ⟨goal, []⟩
    t ∈ w.found → ∃ b ∈ (f.transform t).outputs, b ∈ w.wanted := by
  induction ts with
  | nil => simp
  | cons s ts ih =>
      rw [List.foldr_cons]
      generalize ts.foldr (fun t w => traceStep root t (f.transform t) w) ⟨goal, []⟩ = w at ih ⊢
      dsimp only at ih ⊢
      unfold traceStep
      split
      case isTrue hcond =>
          obtain ⟨b, hb, hwant⟩ := List.any_eq_true.1 hcond
          have hb' : b ∈ w.wanted := by
            simp only [Bool.and_eq_true, List.contains_eq_mem, decide_eq_true_eq] at hwant
            exact hwant.1
          intro ht
          rcases List.mem_cons.1 ht with rfl | ht
          · exact ⟨b, hb, List.mem_append_right _ hb'⟩
          · obtain ⟨c, hc, hwant⟩ := ih ht
            exact ⟨c, hc, List.mem_append_right _ hwant⟩
      case isFalse => exact ih

section Ancestors

variable (hf : Sound f) (h : f.Balanced root ts leaf)
  (hroot : ∀ x ∈ f.transforms.toList, ∀ a ∈ x.outputs, a ∉ root) (hgoal : ∀ a ∈ goal, a ∈ leaf)

include hf h hroot hgoal

/-- The ancestors of leaves are the leaves and all that the history consumes to make an ancestor. -/
theorem mem_withAncestors : a ∈ withAncestors f goal ↔
    a ∈ goal ∨ ∃ t ∈ ts, a ∈ (f.transform t).inputs ∧
      ∃ b ∈ (f.transform t).outputs, b ∈ withAncestors f goal := by
  have hnew : ∀ t ∈ ts, ∀ b ∈ (f.transform t).outputs, b ∉ root :=
    fun t ht b hb => (h.mem_of_produced ht hb).1
  rw [withAncestors_eq hf h hroot hgoal]
  obtain ⟨hsub, hwanted, hfound⟩ := foldr_traceStep_spec hf root goal h.sorted h.has
  rw [hwanted]
  refine or_congr_right ⟨?_, ?_⟩
  · rintro ⟨t, ht, ha⟩
    exact ⟨t, hsub.subset ht, ha, exists_wanted_of_found ht⟩
  · rintro ⟨t, ht, ha, b, hb, hwant⟩
    exact ⟨t, hfound t ht b hb hwant (hnew t ht b hb), ha⟩

end Ancestors

/-! ## The two parts of a history -/

/-- A history that joins no reduction with another axis, from a root that is made by no
transform. -/
structure Separable (f : Fusion) (root : List AxisId) (ts : List TransformId)
    (leaf : List AxisId) : Prop where
  balanced : f.Balanced root ts leaf
  apart : ∀ t ∈ ts, ∀ a ∈ (f.transform t).inputs ++ (f.transform t).outputs,
    ∀ b ∈ (f.transform t).inputs ++ (f.transform t).outputs,
      (f.axis a).isReduction = (f.axis b).isReduction
  root : ∀ x ∈ f.transforms.toList, ∀ a ∈ x.outputs, a ∉ root

instance (f : Fusion) (root : List AxisId) (ts : List TransformId) (leaf : List AxisId) :
    Decidable (Separable f root ts leaf) :=
  decidable_of_iff (f.Balanced root ts leaf ∧
      (∀ t ∈ ts, ∀ a ∈ (f.transform t).inputs ++ (f.transform t).outputs,
        ∀ b ∈ (f.transform t).inputs ++ (f.transform t).outputs,
          (f.axis a).isReduction = (f.axis b).isReduction) ∧
        ∀ x ∈ f.transforms.toList, ∀ a ∈ x.outputs, a ∉ root)
    ⟨fun ⟨hbalanced, hapart, hroot⟩ => ⟨hbalanced, hapart, hroot⟩,
      fun h => ⟨h.balanced, h.apart, h.root⟩⟩

/-- A transform that makes no reductions. -/
def sparesReductions (f : Fusion) (t : TransformId) : Bool :=
  (f.transform t).outputs.all fun a => !(f.axis a).isReduction

namespace Separable

variable (h : Separable f root ts leaf)

include h

theorem isReduction_eq {t : TransformId} (ht : t ∈ ts)
    (ha : a ∈ (f.transform t).inputs ++ (f.transform t).outputs) :
    (f.axis a).isReduction = !sparesReductions f t := by
  obtain ⟨b, hb⟩ := List.exists_mem_of_ne_nil _ (f.transform t).outputs_ne_nil
  have hsame : ∀ c ∈ (f.transform t).outputs, (f.axis c).isReduction = (f.axis a).isReduction :=
    fun c hc => h.apart t ht c (List.mem_append_right _ hc) a ha
  unfold sparesReductions
  cases hred : (f.axis a).isReduction with
  | false =>
      have hall : (f.transform t).outputs.all (fun c => !(f.axis c).isReduction) = true :=
        List.all_eq_true.2 fun c hc => by rw [hsame c hc, hred]; rfl
      rw [hall]
      rfl
  | true =>
      have hnot : (f.transform t).outputs.all (fun c => !(f.axis c).isReduction) = false :=
        List.all_eq_false.2 ⟨b, hb, by rw [hsame b hb, hred]; simp⟩
      rw [hnot]
      rfl

/-- The transforms that make no reductions are those of the other axes. -/
theorem exists_spared_iff (part : Transform → List AxisId)
    (hpart : ∀ (x : Transform), ∀ a ∈ part x, a ∈ x.inputs ++ x.outputs) :
    (∃ t ∈ ts.filter (sparesReductions f), a ∈ part (f.transform t)) ↔
      (∃ t ∈ ts, a ∈ part (f.transform t)) ∧ (f.axis a).isReduction = false := by
  constructor
  · rintro ⟨t, ht, ha⟩
    obtain ⟨ht, hspares⟩ := List.mem_filter.1 ht
    refine ⟨⟨t, ht, ha⟩, ?_⟩
    rw [h.isReduction_eq ht (hpart _ a ha), hspares]
    rfl
  · rintro ⟨⟨t, ht, ha⟩, hred⟩
    rw [h.isReduction_eq ht (hpart _ a ha)] at hred
    exact ⟨t, List.mem_filter.2 ⟨ht, by simpa using hred⟩, ha⟩

/-- The ancestors of reductions are reductions. -/
theorem isReduction_of_mem_withAncestors (hf : Sound f) (hgoal : ∀ a ∈ goal, a ∈ leaf)
    (hred : ∀ a ∈ goal, (f.axis a).isReduction = true) :
    ∀ a ∈ withAncestors f goal, (f.axis a).isReduction = true := by
  rw [withAncestors_eq hf h.balanced h.root hgoal]
  have hapart := h.apart
  clear h
  induction ts with
  | nil => exact hred
  | cons t ts ih =>
      have hwanted := ih fun s hs => hapart s (List.mem_cons_of_mem t hs)
      rw [List.foldr_cons]
      generalize ts.foldr (fun t w => traceStep root t (f.transform t) w) ⟨goal, []⟩ = w
        at hwanted ⊢
      unfold traceStep
      split
      case isTrue hcond =>
          obtain ⟨b, hb, hwant⟩ := List.any_eq_true.1 hcond
          simp only [Bool.and_eq_true, List.contains_eq_mem, decide_eq_true_eq] at hwant
          intro a ha
          rcases List.mem_append.1 ha with ha | ha
          · rw [hapart t List.mem_cons_self a (List.mem_append_left _ ha) b
              (List.mem_append_right _ hb)]
            exact hwanted b hwant.1
          · exact hwanted a ha
      case isFalse => exact hwanted

end Separable

namespace Factoring

/-- The reductions that are left for the second stage. -/
def kept (p : Factoring) (f : Fusion) : List AxisId :=
  p.domain.leaf.filter fun a => (f.axis a).isReduction && !p.chosen.contains a

/-- The axes that the partial results are listed by. -/
def between (p : Factoring) (f : Fusion) : List AxisId :=
  (p.frontier f).filter fun a => p.rfactored.contains a || !(f.axis a).isReduction

/-- What the plan of a factored reduction says about the history of the reduction. -/
structure Splits (p : Factoring) (f : Fusion) (tensor : ValueId) : Prop where
  definition : f.definition tensor = some p.definition
  domain : p.domain = (f.view tensor).domain
  unfactored : p.domain.rfactor = none
  history : p.history = f.history tensor
  chosen : ∀ a ∈ p.chosen, a ∈ p.domain.leaf ∧ (f.axis a).isReduction = true
  rfactored : ∀ a, a ∈ p.rfactored ↔
    a ∈ withAncestors f (p.kept f) ∧ a ∉ withAncestors f p.chosen
  needed : p.needed =
    p.history.filter fun t => (f.transform t).outputs.any (withAncestors f (p.kept f)).contains

end Factoring

theorem chosenLeaves_mem {tensor : ValueId} {seen chosen : List AxisId} {positions : List Int}
    (hseen : ∀ a ∈ seen, a ∈ leaf ∧ (f.axis a).isReduction = true)
    (h : chosenLeaves f tensor leaf seen positions = .ok chosen) :
    ∀ a ∈ chosen, a ∈ leaf ∧ (f.axis a).isReduction = true := by
  induction positions generalizing seen with
  | nil =>
      cases h
      exact hseen
  | cons i positions ih =>
      unfold chosenLeaves at h
      split at h
      · cases h
      case h_2 n hn =>
          dsimp only at h
          split at h
          case isTrue hred =>
              refine ih (fun a ha => ?_) h
              rcases mem_addNew.1 ha with ha | rfl
              · exact hseen a ha
              · refine ⟨?_, hred⟩
                rw [List.getD_eq_getElem?_getD, List.getElem?_eq_getElem (normalizeAxis_lt hn)]
                exact List.getElem_mem _
          case isFalse => cases h

theorem plan_splits {tensor : ValueId} {positions : List Int} {p : Factoring}
    (h : Factoring.plan f tensor positions = .ok p) : p.Splits f tensor := by
  obtain ⟨definition, chosen, hdef, hrfactor, hchosen, h⟩ := plan_ofChosen h
  unfold Factoring.ofChosen at h
  dsimp only at h
  split at h
  · cases h
  split at h
  · cases h
  cases h
  refine ⟨hdef, rfl, hrfactor, rfl, chosenLeaves_mem (by simp) hchosen, fun a => ?_, rfl⟩
  refine List.mem_filter.trans (and_congr_right fun _ => ?_)
  simp only [Bool.not_eq_true', List.contains_eq_mem, decide_eq_false_iff_not]

namespace Factoring

variable {p : Factoring} {tensor : ValueId} {t : TransformId}

theorem mem_kept : a ∈ p.kept f ↔
    a ∈ p.domain.leaf ∧ (f.axis a).isReduction = true ∧ a ∉ p.chosen := by
  simp [kept]

/-- The roots of the second stage are what the partial results are listed by. -/
theorem map_fst_finalKinds : (p.finalKinds f).map (·.1) = p.between f := by
  unfold finalKinds between
  rw [List.map_filterMap, ← List.filterMap_eq_filter]
  refine List.filterMap_congr fun a _ => ?_
  by_cases hr : a ∈ p.rfactored
  · simp [Option.guard, hr]
  · cases hred : (f.axis a).isReduction
    · simp [Option.guard, hr, hred]
    · simp [Option.guard, hr, hred]

/-- The second stage reduces what the partial tensor iterates over in place of a reduction, and
iterates over the other axes as before. -/
theorem mem_finalKinds {q : AxisId × AxisKind} (h : q ∈ p.finalKinds f) :
    (q.1 ∈ p.rfactored ∧ q.2 = .reduction) ∨
      ((f.axis q.1).isReduction = false ∧ q.2 = (f.axis q.1).kind) := by
  obtain ⟨a, -, hq⟩ := List.mem_filterMap.1 h
  split at hq
  case isTrue hr =>
      cases hq
      exact .inl ⟨List.contains_iff_mem.1 hr, rfl⟩
  case isFalse =>
      split at hq
      · cases hq
      case isFalse hred =>
          cases hq
          exact .inr ⟨by simpa using hred, rfl⟩

namespace Splits

variable (hf : Sound f) (hp : p.Splits f tensor)
  (hs : Separable f p.domain.root p.history p.domain.leaf)

include hp in
theorem mem_needed : t ∈ p.needed ↔ t ∈ p.history ∧
    ∃ b ∈ (f.transform t).outputs, b ∈ withAncestors f (p.kept f) := by
  rw [hp.needed, List.mem_filter, List.any_eq_true]
  simp only [List.contains_eq_mem, decide_eq_true_eq]

include hf hs

theorem mem_keptAncestors : a ∈ withAncestors f (p.kept f) ↔
    a ∈ p.kept f ∨ ∃ t ∈ p.history, a ∈ (f.transform t).inputs ∧
      ∃ b ∈ (f.transform t).outputs, b ∈ withAncestors f (p.kept f) :=
  mem_withAncestors hf hs.balanced hs.root fun _ ha => (mem_kept.1 ha).1

include hp

/-- The first part of a history consists of reductions. -/
theorem sparesReductions_of_needed (ht : t ∈ p.needed) : sparesReductions f t = false := by
  obtain ⟨hmem, b, hb, hkept⟩ := hp.mem_needed.1 ht
  have hred := hs.isReduction_of_mem_withAncestors hf (fun _ ha => (mem_kept.1 ha).1)
    (fun _ ha => (mem_kept.1 ha).2.1) b hkept
  rw [hs.isReduction_eq hmem (List.mem_append_right _ hb)] at hred
  simpa using hred

/-- Every ancestor of what is kept is at the root or made by the first part of the history. -/
theorem mem_axes_of_keptAncestor (ha : a ∈ withAncestors f (p.kept f)) :
    a ∈ p.domain.root ++ f.outputsOf p.needed := by
  have huse : a ∈ p.domain.leaf ∨ ∃ s ∈ p.history, a ∈ (f.transform s).inputs := by
    rcases (mem_keptAncestors hf hs).1 ha with hkept | ⟨t, ht, hin, -⟩
    · exact .inl (mem_kept.1 hkept).1
    · exact .inr ⟨t, ht, hin⟩
  rcases hs.balanced.mem_of_consumed huse with hroot | ⟨s, hs', hout⟩
  · exact List.mem_append_left _ hroot
  · exact List.mem_append_right _
      (mem_outputsOf.2 ⟨s, hp.mem_needed.2 ⟨hs', a, hout, ha⟩, hout⟩)

/-- The first part of a history leads from the root to the frontier. -/
theorem frontier_balanced : f.Balanced p.domain.root p.needed (p.frontier f) := by
  have hsub : p.needed.Sublist p.history := by
    rw [hp.needed]
    exact List.filter_sublist
  have hnodup : (p.domain.root ++ f.outputsOf p.needed).Nodup :=
    hs.balanced.nodup.sublist (List.Sublist.append_left (hsub.flatMap _) _)
  have hbase : f.Balanced p.domain.root p.needed
      ((p.domain.root ++ f.outputsOf p.needed).filter fun a => a ∉ f.inputsOf p.needed) := by
    refine hs.balanced.sub hsub (List.nodup_append.1 hnodup).1 (hnodup.filter _)
      (fun a ha hout => (List.nodup_append.1 hnodup).2.2 a ha a hout rfl)
      (fun a ha => by simpa using (List.mem_filter.1 ha).2) fun a => ?_
    rw [← List.mem_append, List.mem_filter]
    simp only [decide_eq_true_eq]
    refine ⟨fun ha => ?_, ?_⟩
    · by_cases hin : a ∈ f.inputsOf p.needed
      · exact .inr hin
      · exact .inl ⟨ha, hin⟩
    · rintro (ha | hin)
      · exact ha.1
      · obtain ⟨t, ht, hin⟩ := mem_inputsOf.1 hin
        obtain ⟨hmem, hout⟩ := hp.mem_needed.1 ht
        exact hp.mem_axes_of_keptAncestor hf hs
          ((mem_keptAncestors hf hs).2 (.inr ⟨t, hmem, hin, hout⟩))
  exact hbase.reorder (foldl_applyInPlace_perm hf hbase)

omit hs hf in
/-- The first part of a history makes some of the axes of the whole. -/
theorem mem_axes_of_needed (ha : a ∈ p.domain.root ++ f.outputsOf p.needed) :
    a ∈ p.domain.root ++ f.outputsOf p.history := by
  rcases List.mem_append.1 ha with ha | ha
  · exact List.mem_append_left _ ha
  · obtain ⟨t, ht, ha⟩ := mem_outputsOf.1 ha
    exact List.mem_append_right _ (mem_outputsOf.2 ⟨t, (hp.mem_needed.1 ht).1, ha⟩)

theorem frontier_mem_axes (ha : a ∈ p.frontier f) : a ∈ p.domain.root ++ f.outputsOf p.history :=
  hp.mem_axes_of_needed ((hp.frontier_balanced hf hs).leaf_mem_axes ha)

theorem rfactored_mem_axes (ha : a ∈ p.rfactored) :
    a ∈ p.domain.root ++ f.outputsOf p.history :=
  hp.mem_axes_of_needed (hp.mem_axes_of_keptAncestor hf hs ((hp.rfactored a).1 ha).1)

/-- The frontier has the axes of the root that are no reductions, in the same order. -/
theorem filter_frontier : ((p.frontier f).filter fun a => !(f.axis a).isReduction) =
    p.domain.root.filter fun a => !(f.axis a).isReduction := by
  have hall : ∀ t ∈ p.needed, ∀ a ∈ (f.transform t).inputs ++ (f.transform t).outputs,
      (!(f.axis a).isReduction) = false := by
    intro t ht a ha
    rw [hs.isReduction_eq (hp.mem_needed.1 ht).1 ha, hp.sparesReductions_of_needed hf hs ht]
    rfl
  exact filter_foldl_applyInPlace hall

/-- An axis of the frontier that is no reduction is one of the root. -/
theorem mem_root_of_frontier (ha : a ∈ p.frontier f) (hred : (f.axis a).isReduction = false) :
    a ∈ p.domain.root := by
  have hmem : a ∈ (p.frontier f).filter fun a => !(f.axis a).isReduction :=
    List.mem_filter.2 ⟨ha, by simp [hred]⟩
  rw [hp.filter_frontier hf hs] at hmem
  exact (List.mem_filter.1 hmem).1

theorem kept_mem_frontier (ha : a ∈ p.kept f) : a ∈ p.frontier f := by
  have hmem := hp.mem_axes_of_keptAncestor hf hs ((mem_keptAncestors hf hs).2 (.inl ha))
  rcases List.mem_append.1 ((hp.frontier_balanced hf hs).perm.mem_iff.1 hmem) with hfrontier | hin
  · exact hfrontier
  · obtain ⟨t, ht, hin⟩ := mem_inputsOf.1 hin
    exact absurd hin (hs.balanced.not_mem_inputs (mem_kept.1 ha).1 (hp.mem_needed.1 ht).1)

/-- What the partial tensor iterates over in place of a reduction is kept by the second stage. -/
theorem mem_rfactored_iff (ha : a ∈ p.frontier f) : a ∈ p.rfactored ↔ a ∈ p.kept f := by
  rw [hp.rfactored]
  constructor
  · rintro ⟨hancestor, -⟩
    rcases (mem_keptAncestors hf hs).1 hancestor with hkept | ⟨t, ht, hin, hout⟩
    · exact hkept
    · exact absurd hin
        ((hp.frontier_balanced hf hs).not_mem_inputs ha (hp.mem_needed.2 ⟨ht, hout⟩))
  · intro hkept
    obtain ⟨hleaf, -, hchosen⟩ := mem_kept.1 hkept
    refine ⟨(mem_keptAncestors hf hs).2 (.inl hkept), fun hancestor => ?_⟩
    rcases (mem_withAncestors hf hs.balanced hs.root fun b hb => (hp.chosen b hb).1).1 hancestor
      with hmem | ⟨t, ht, hin, -⟩
    · exact hchosen hmem
    · exact hs.balanced.not_mem_inputs hleaf ht hin

/-- The partial results are listed by what is kept and by the axes that are no reductions. -/
theorem mem_between : a ∈ p.between f ↔
    a ∈ p.kept f ∨ (a ∈ p.domain.root ∧ (f.axis a).isReduction = false) := by
  have hplain : a ∈ p.frontier f ∧ (f.axis a).isReduction = false ↔
      a ∈ p.domain.root ∧ (f.axis a).isReduction = false := by
    have hmem := congrArg (a ∈ ·) (hp.filter_frontier hf hs)
    simpa using hmem
  unfold between
  rw [List.mem_filter, ← hplain]
  simp only [Bool.or_eq_true, List.contains_eq_mem, decide_eq_true_eq, Bool.not_eq_true']
  constructor
  · rintro ⟨hfrontier, hr | hred⟩
    · exact .inl ((hp.mem_rfactored_iff hf hs hfrontier).1 hr)
    · exact .inr ⟨hfrontier, hred⟩
  · rintro (hkept | ⟨hfrontier, hred⟩)
    · have hfrontier := hp.kept_mem_frontier hf hs hkept
      exact ⟨hfrontier, .inl ((hp.mem_rfactored_iff hf hs hfrontier).2 hkept)⟩
    · exact ⟨hfrontier, .inr hred⟩

/-- Both stages have the shape of the reduction. -/
theorem filter_between : ((p.between f).filter fun a => !(f.axis a).isReduction) =
    f.shape tensor := by
  have hlogical : (f.view tensor).domain.logical = p.domain.root := by
    rw [← hp.domain, TensorDomain.logical, hp.unfactored]
    rfl
  rw [shape, hlogical, ← hp.filter_frontier hf hs, between, List.filter_filter]
  refine List.filter_congr fun a _ => ?_
  cases (f.axis a).isReduction with
  | true => rfl
  | false => simp

/-- The second part of a history leads from what the partial results are listed by to the remaining
leaves. -/
theorem second_balanced : f.Balanced (p.between f) (p.history.filter (sparesReductions f))
    (p.domain.leaf.filter fun a => !p.chosen.contains a) := by
  have hfrontier := hp.frontier_balanced hf hs
  have hout : ∀ a, a ∈ f.outputsOf (p.history.filter (sparesReductions f)) ↔
      a ∈ f.outputsOf p.history ∧ (f.axis a).isReduction = false := by
    intro a
    rw [mem_outputsOf, mem_outputsOf]
    exact hs.exists_spared_iff Transform.outputs fun _ _ => List.mem_append_right _
  have hin : ∀ a, a ∈ f.inputsOf (p.history.filter (sparesReductions f)) ↔
      a ∈ f.inputsOf p.history ∧ (f.axis a).isReduction = false := by
    intro a
    rw [mem_inputsOf, mem_inputsOf]
    exact hs.exists_spared_iff Transform.inputs fun _ _ => List.mem_append_left _
  have hleaf : ∀ a, a ∈ (p.domain.leaf.filter fun a => !p.chosen.contains a) ↔
      a ∈ p.kept f ∨ (a ∈ p.domain.leaf ∧ (f.axis a).isReduction = false) := by
    intro a
    rw [mem_kept, List.mem_filter]
    simp only [Bool.not_eq_true', List.contains_eq_mem, decide_eq_false_iff_not]
    constructor
    · rintro ⟨ha, hnot⟩
      cases hred : (f.axis a).isReduction with
      | true => exact .inl ⟨ha, rfl, hnot⟩
      | false => exact .inr ⟨ha, rfl⟩
    · rintro (⟨ha, -, hnot⟩ | ⟨ha, hred⟩)
      · exact ⟨ha, hnot⟩
      · refine ⟨ha, fun hchosen => ?_⟩
        rw [(hp.chosen a hchosen).2] at hred
        cases hred
  refine hs.balanced.sub List.filter_sublist (hfrontier.leaf_nodup.filter _)
    (hs.balanced.leaf_nodup.filter _) (fun a ha hmem => ?_) (fun a ha hmem => ?_) fun a => ?_
  · obtain ⟨hmem, hred⟩ := (hout a).1 hmem
    rcases (hp.mem_between hf hs).1 ha with hkept | ⟨hroot, -⟩
    · rw [(mem_kept.1 hkept).2.1] at hred
      cases hred
    · exact (List.nodup_append.1 hs.balanced.nodup).2.2 a hroot a hmem rfl
  · obtain ⟨t, ht, hmem⟩ := mem_inputsOf.1 ((hin a).1 hmem).1
    exact hs.balanced.not_mem_inputs (List.mem_filter.1 ha).1 ht hmem
  · rw [hp.mem_between hf hs, hout, hin, hleaf, or_assoc, or_assoc, ← or_and_right,
      ← or_and_right]
    refine or_congr_right (and_congr_left fun _ => ?_)
    rw [← List.mem_append, ← List.mem_append]
    exact hs.balanced.perm.mem_iff

/-- What is repeated for the second stage: no transform of reductions finds its axes. -/
theorem filter_rest : (p.history.filter fun t => !p.needed.contains t).filter
    (sparesReductions f) = p.history.filter (sparesReductions f) := by
  rw [List.filter_filter]
  refine List.filter_congr fun t ht => ?_
  cases hspares : sparesReductions f t with
  | false => rfl
  | true =>
      have hnot : t ∉ p.needed := fun hneeded => by
        rw [hp.sparesReductions_of_needed hf hs hneeded] at hspares
        cases hspares
      simpa using hnot

end Splits
end Factoring

end Schedule
end FusionCompiler
