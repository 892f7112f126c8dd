import FusionCompiler.Proofs.Fusion.Ordering
import FusionCompiler.Proofs.Lower.IndexSpace

/-!
# Extents of counterparts

The axes of a producer are matched with those of its consumer from the root on:
an equal transform of matched axes has matched results, and a broadcast that is
merged on one side only is looked through.  A root axis of the producer may be a
broadcast where the consumer iterates, so a counterpart may be the larger one.
It is never the smaller one.

Main results:

- Theorem `Fusion.SharedSizes.exact`: the transforms of all tensors have exact
  extents.
- Theorem `Fusion.Grows.matchTransform`: matching one more transform gives no axis
  a smaller counterpart.
- Theorem `Fusion.SharedSizes.counterparts_grow`: the extent of an axis is at most
  that of its counterpart, which is an axis of the consumer.
-/

namespace FusionCompiler

/-- The factor of a split. -/
def Transform.factor? : Transform → Option ValueId
  | .split _ _ _ factor _ => some factor
  | .merge .. => none

namespace Fusion

variable {f : Fusion} {env : Scalar.Env} {history : List TransformId} {m : AxisMap}
  {a b : AxisId} {t : TransformId} {source target : ValueId}

/-! ## Sizes that fit together -/

/-- The axes of a consumer that correspond to those of a producer. -/
def counterparts (f : Fusion) (producer consumer : ValueId) : AxisMap :=
  f.bestEffortMap producer consumer (f.rootPairs producer consumer)

/-- Pairs that were asked for are the pairs of the producer and the consumer. -/
theorem eq_of_rootPairs? {ε : Type} {g : ScheduleError → ε} {pairs : List (AxisId × AxisId)}
    (h : (f.rootPairs? source target).mapError g = .ok pairs) : pairs = f.rootPairs source target := by
  unfold rootPairs? at h
  split at h
  · cases h
    rfl
  · cases h

/-- The transforms that lead from the roots of all tensors to their leaves. -/
def liveTransforms (f : Fusion) : List TransformId :=
  f.allTensors.flatMap f.history

/-- The factors of the splits of all tensors. -/
def splitFactors (f : Fusion) : List ValueId :=
  f.liveTransforms.filterMap fun t => (f.transform t).factor?

/-- What a scalar is at run time; one without an integer value counts as zero. -/
def scalarAt (f : Fusion) (env : Scalar.Env) (k : ValueId) : Int :=
  match (f.kernelScalar k).evaluate env with
  | some (.int n) => n
  | _ => 0

/-- A broadcast that is merged has extent one. -/
def MergesOnes (f : Fusion) (e : AxisId → Int) : Transform → Prop
  | .merge o i _ => ∀ a ∈ [o, i], (f.axis a).isBroadcast = true → e a = 1
  | .split .. => True

instance (f : Fusion) (e : AxisId → Int) (x : Transform) : Decidable (f.MergesOnes e x) :=
  match x with
  | .merge o i _ =>
    inferInstanceAs (Decidable (∀ a ∈ [o, i], (f.axis a).isBroadcast = true → e a = 1))
  | .split .. => .isTrue trivial

/-- Input sizes that make no axis empty, that no extent is too narrow for, and under which a root
axis of an inlined producer is no larger than the axis it meets in the consumer. -/
structure SharedSizes (f : Fusion) (env : Scalar.Env) : Prop where
  pos : ∀ t ∈ f.liveTransforms, ∀ a ∈ (f.transform t).inputs ++ (f.transform t).outputs,
    0 < f.extentsAt env a
  fitting : ∀ t ∈ f.liveTransforms, f.Fitting (f.extentsAt env) (f.transform t)
  ones : ∀ t ∈ f.liveTransforms, f.MergesOnes (f.extentsAt env) (f.transform t)
  /-- Split factors that are found to be equal are equal. -/
  factors : ∀ k ∈ f.splitFactors, ∀ k' ∈ f.splitFactors, f.sameScalar k' k = true →
    f.scalarAt env k' = f.scalarAt env k
  roots : ∀ x ∈ LoopGroups.inlinedEdges f, ∀ p ∈ f.rootPairs x.1 x.2,
    f.extentsAt env p.1 ≤ f.extentsAt env p.2

/-- A check of sizes, one list after the other. -/
def checkSharedSizes (f : Fusion) (env : Scalar.Env) : Bool :=
  let live := f.liveTransforms
  let factors := f.splitFactors
  (live.all fun t => ((f.transform t).inputs ++ (f.transform t).outputs).all fun a =>
      decide (0 < f.extentsAt env a)) &&
    (live.all fun t => decide (f.Fitting (f.extentsAt env) (f.transform t))) &&
    (live.all fun t => decide (f.MergesOnes (f.extentsAt env) (f.transform t))) &&
    (factors.all fun k => factors.all fun k' =>
      !f.sameScalar k' k || decide (f.scalarAt env k' = f.scalarAt env k)) &&
    (LoopGroups.inlinedEdges f).all fun x => (f.rootPairs x.1 x.2).all fun p =>
      decide (f.extentsAt env p.1 ≤ f.extentsAt env p.2)

theorem checkSharedSizes_iff : f.checkSharedSizes env = true ↔ f.SharedSizes env := by
  simp only [checkSharedSizes, Bool.and_eq_true, List.all_eq_true, decide_eq_true_eq,
    Bool.or_eq_true, Bool.not_eq_true', ← Bool.not_eq_true, ← imp_iff_not_or]
  constructor
  · rintro ⟨⟨⟨⟨hpos, hfitting⟩, hones⟩, hfactors⟩, hroots⟩
    exact ⟨hpos, hfitting, hones, hfactors, hroots⟩
  · intro h
    exact ⟨⟨⟨⟨h.pos, h.fitting⟩, h.ones⟩, h.factors⟩, h.roots⟩

theorem mem_liveTransforms (htarget : target ∈ f.allTensors) (ht : t ∈ f.history target) :
    t ∈ f.liveTransforms :=
  List.mem_flatMap.2 ⟨target, htarget, ht⟩

theorem hasTransform_of_mem_liveTransforms (h : t ∈ f.liveTransforms) : f.HasTransform t := by
  obtain ⟨v, -, ht⟩ := List.mem_flatMap.1 h
  exact hasTransform_of_mem_transformsBetween ht

/-- A positive extent is an integer at run time. -/
theorem evaluate_ownExtent (h : 0 < f.extentsAt env a) :
    (f.ownExtent a).evaluate env = some (.int (f.extentsAt env a)) := by
  unfold extentsAt at h ⊢
  split at h
  case h_1 n heq => rw [heq]
  case h_2 => exact absurd h (Int.lt_irrefl 0)

namespace SharedSizes

variable (hs : f.SharedSizes env) (hf : Sound f)

include hs hf

/-- The transforms of all tensors have exact extents. -/
theorem exact (ht : t ∈ f.liveTransforms) : Exact (f.extentsAt env) (f.transform t) :=
  (hf.recorded t (hasTransform_of_mem_liveTransforms ht)).exact hf
    (fun a ha => evaluate_ownExtent (hs.pos t ht a ha)) (hs.fitting t ht)

/-- Splits by factors that are found to be equal give halves of the same extent. -/
theorem factorAxis_eq {s : TransformId} {a a' o o' i i' : AxisId} {k k' : ValueId}
    {innerSplit : Bool} (ht : t ∈ f.liveTransforms) (hs' : s ∈ f.liveTransforms)
    (hx : f.transform t = .split a o i k innerSplit)
    (hx' : f.transform s = .split a' o' i' k' innerSplit) (hsame : f.sameScalar k' k = true) :
    if innerSplit then f.extentsAt env i = f.extentsAt env i'
    else f.extentsAt env o = f.extentsAt env o' := by
  have hfactor : f.scalarAt env k' = f.scalarAt env k :=
    hs.factors k (List.mem_filterMap.2 ⟨t, ht, by rw [hx]; rfl⟩) k'
      (List.mem_filterMap.2 ⟨s, hs', by rw [hx']; rfl⟩) hsame
  have hr := hf.recorded t (hasTransform_of_mem_liveTransforms ht)
  have hr' := hf.recorded s (hasTransform_of_mem_liveTransforms hs')
  rw [hx] at hr
  rw [hx'] at hr'
  cases innerSplit with
  | true =>
      have hi : f.extent i = k := hr.2.2.2.2.1
      have hi' : f.extent i' = k' := hr'.2.2.2.2.1
      rw [← hi, ← hi'] at hfactor
      exact hfactor.symm
  | false =>
      have ho : f.extent o = k := hr.2.2.2.2.1
      have ho' : f.extent o' = k' := hr'.2.2.2.2.1
      rw [← ho, ← ho'] at hfactor
      exact hfactor.symm

end SharedSizes

/-! ## Matching -/

theorem mapThrough_get? (f : Fusion) (history : List TransformId) (m : AxisMap) (a b d : AxisId) :
    (f.mapThrough history m a b).get? d =
      if d = a then some (f.followMerges history m.images b) else m.get? d :=
  m.get?_insert a _ d

/-- The counterparts of a map are axes of the target, and none is smaller than what it is the
counterpart of. -/
def Grows (f : Fusion) (env : Scalar.Env) (target : ValueId) (m : AxisMap) : Prop :=
  ∀ a b, m.get? a = some b → b ∈ f.axesOf target ∧ f.extentsAt env a ≤ f.extentsAt env b

theorem steps_mono {m m' n : Int} (hn : 0 < n) (h : m ≤ m') : steps m n ≤ steps m' n :=
  Int.ediv_le_ediv hn (by omega)

section Matching

variable (hs : f.SharedSizes env) (hf : Sound f) (htarget : target ∈ f.allTensors)

include hs hf htarget

/-- Looking through merges with broadcasts leads to no smaller axis. -/
theorem followMergesWith_grows {images : List AxisId} {fuel : Nat} (hb : b ∈ f.axesOf target) :
    f.followMergesWith (f.history target) images fuel b ∈ f.axesOf target ∧
      f.extentsAt env b ≤
        f.extentsAt env (f.followMergesWith (f.history target) images fuel b) := by
  induction fuel generalizing b with
  | zero => exact ⟨hb, Int.le_refl _⟩
  | succ fuel ih =>
      unfold followMergesWith
      split
      case h_2 => exact ⟨hb, Int.le_refl _⟩
      case h_1 outer inner output hx =>
          dsimp only
          generalize (if outer = b then inner else outer) = other
          split
          · exact ⟨hb, Int.le_refl _⟩
          · obtain ⟨t, ht, hx⟩ := Option.map_eq_some_iff.1 hx
            have hin := mem_inputs_of_useIn ht
            have hlive := mem_liveTransforms htarget (mem_of_useIn ht)
            have hexact := hs.exact hf hlive
            have hpos := hs.pos t hlive
            rw [hx] at hin hexact hpos
            have ho := hpos outer (by simp [Transform.inputs])
            have hi := hpos inner (by simp [Transform.inputs])
            have hle : f.extentsAt env b ≤ f.extentsAt env output := by
              rw [show f.extentsAt env output = _ from hexact]
              rcases List.mem_pair.1 hin with rfl | rfl
              · simpa using Int.mul_le_mul_of_nonneg_left (show 1 ≤ _ from hi) (Int.le_of_lt ho)
              · simpa using Int.mul_le_mul_of_nonneg_right (show 1 ≤ _ from ho) (Int.le_of_lt hi)
            have hmem : output ∈ f.axesOf target := by
              refine List.mem_append_right _ (List.mem_flatMap.2 ⟨t, mem_of_useIn ht, ?_⟩)
              simp [hx, Transform.outputs]
            exact ⟨(ih hmem).1, Int.le_trans hle (ih hmem).2⟩

theorem Grows.mapThrough (hm : f.Grows env target m) (hb : b ∈ f.axesOf target)
    (hle : f.extentsAt env a ≤ f.extentsAt env b) :
    f.Grows env target (f.mapThrough (f.history target) m a b) := by
  intro a' b' hget
  rw [mapThrough_get?] at hget
  split at hget
  case isTrue heq =>
      obtain ⟨hmem, hgrow⟩ : f.followMerges (f.history target) m.images b ∈ f.axesOf target ∧
          f.extentsAt env b ≤ f.extentsAt env (f.followMerges (f.history target) m.images b) :=
        followMergesWith_grows hs hf htarget hb
      cases hget
      rw [heq]
      exact ⟨hmem, Int.le_trans hle hgrow⟩
  case isFalse => exact hm a' b' hget

/-- Matching one more transform gives no axis a smaller counterpart. -/
theorem Grows.matchTransform (hm : f.Grows env target m) (ht : t ∈ f.liveTransforms) :
    f.Grows env target (f.matchTransform (f.history target) m (f.transform t)) := by
  have houtput : ∀ {s b}, s ∈ f.history target → b ∈ (f.transform s).outputs →
      b ∈ f.axesOf target := by
    intro s b hsm hb
    exact List.mem_append_right _ (List.mem_flatMap.2 ⟨s, hsm, hb⟩)
  have hexact := hs.exact hf ht
  have hpos := hs.pos t ht
  have hones := hs.ones t ht
  cases hx : f.transform t with
  | split input outer inner factor innerSplit =>
      rw [hx] at hexact
      rw [Fusion.matchTransform]
      split
      case h_2 => exact hm
      case h_1 c o i factor' innerSplit' hx' =>
          split
          case isFalse => exact hm
          case isTrue hcond =>
              obtain ⟨rfl, hsame⟩ : innerSplit' = innerSplit ∧ f.sameScalar factor' factor = true := by
                simpa using hcond
              obtain ⟨s, hs', hx'⟩ := Option.map_eq_some_iff.1 hx'
              obtain ⟨b, hget, hs'⟩ := Option.bind_eq_some_iff.1 hs'
              have hsm := mem_of_useIn hs'
              have hlive := mem_liveTransforms htarget hsm
              have hin := mem_inputs_of_useIn hs'
              have hexact' := hs.exact hf hlive
              rw [hx'] at hin hexact'
              have hbc : b = c := List.mem_singleton.1 hin
              have hle := (hm input b hget).2
              rw [hbc] at hle
              have hfactor := hs.factorAxis_eq hf ht hlive hx hx' hsame
              have hhalves : f.extentsAt env outer ≤ f.extentsAt env o ∧
                  f.extentsAt env inner ≤ f.extentsAt env i := by
                cases innerSplit' with
                | true =>
                    have heq : f.extentsAt env inner = f.extentsAt env i := hfactor
                    rw [hexact.2, hexact'.2, heq]
                    exact ⟨steps_mono hexact'.1 hle, Int.le_refl _⟩
                | false =>
                    have heq : f.extentsAt env outer = f.extentsAt env o := hfactor
                    rw [hexact.2, hexact'.2, heq]
                    exact ⟨Int.le_refl _, steps_mono hexact'.1 hle⟩
              have ho : o ∈ f.axesOf target := houtput hsm (by simp [hx', Transform.outputs])
              have hi : i ∈ f.axesOf target := houtput hsm (by simp [hx', Transform.outputs])
              exact (hm.mapThrough hs hf htarget ho hhalves.1).mapThrough hs hf htarget hi hhalves.2
  | merge outer inner output =>
      rw [hx] at hexact hpos hones
      have hproduct : f.extentsAt env output = f.extentsAt env outer * f.extentsAt env inner := hexact
      have ho := hpos outer (by simp [Transform.inputs])
      have hi := hpos inner (by simp [Transform.inputs])
      rw [Fusion.matchTransform]
      split
      case h_2 => exact hm
      case h_1 b hb =>
          have hgrow : b ∈ f.axesOf target ∧ f.extentsAt env output ≤ f.extentsAt env b := by
            split at hb
            case h_1 o' i' hgo hgi =>
                split at hb
                case h_2 => cases hb
                case h_1 o'' i'' out hx' =>
                    split at hb
                    case isFalse => cases hb
                    case isTrue hcond =>
                        cases hb
                        obtain ⟨rfl, rfl⟩ : o'' = o' ∧ i'' = i' := by simpa using hcond
                        obtain ⟨s, hs', hx'⟩ := Option.map_eq_some_iff.1 hx'
                        have hsm := mem_of_useIn hs'
                        have hexact' := hs.exact hf (mem_liveTransforms htarget hsm)
                        rw [hx'] at hexact'
                        refine ⟨houtput hsm (by simp [hx', Transform.outputs]), ?_⟩
                        rw [hproduct, show f.extentsAt env b = _ from hexact']
                        exact Int.mul_le_mul (hm _ _ hgo).2 (hm _ _ hgi).2 (Int.le_of_lt hi)
                          (Int.le_trans (Int.le_of_lt ho) (hm _ _ hgo).2)
            case h_2 i' hgo hgi =>
                split at hb
                case isFalse => cases hb
                case isTrue hbroad =>
                    cases hb
                    rw [hproduct, hones outer (by simp) hbroad, Int.one_mul]
                    exact hm _ _ hgi
            case h_3 o' hgo hgi =>
                split at hb
                case isFalse => cases hb
                case isTrue hbroad =>
                    cases hb
                    rw [hproduct, hones inner (by simp) hbroad, Int.mul_one]
                    exact hm _ _ hgo
            case h_4 => cases hb
          exact hm.mapThrough hs hf htarget hgrow.1 hgrow.2

/-- The counterparts of an inlined edge are axes of the consumer, and none is smaller than what it
is the counterpart of. -/
theorem SharedSizes.counterparts_grow (hsource : source ∈ f.allTensors)
    (hedge : (source, target) ∈ LoopGroups.inlinedEdges f) :
    f.Grows env target (f.counterparts source target) := by
  unfold counterparts bestEffortMap
  refine List.foldlRecOn _ _ (List.foldlRecOn _ _ ?_ fun m hm p hp => ?_) fun m hm t ht => ?_
  · intro a b hget
    cases hget
  · exact hm.mapThrough hs hf htarget (List.mem_append_left _ (mem_of_mem_rootPairs hp).2)
      (hs.roots _ hedge p hp)
  · exact hm.matchTransform hs hf htarget (mem_liveTransforms hsource ht)

end Matching

end Fusion
end FusionCompiler
