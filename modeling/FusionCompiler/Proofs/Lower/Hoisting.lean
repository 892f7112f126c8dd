import FusionCompiler.Lower.Emit
import FusionCompiler.Proofs.Kernel.Substitution
import FusionCompiler.Proofs.Lower.IndexSpace

/-!
# Bounds at the last iteration

Inside an unswitched loop the bounds of an operation are replaced by one check at
the last index of every loop in between.  The check is enough for a bound on an
index that rises with the loops.  Joining the halves of a split keeps an index
rising, and so does taking the outer index of a merge; the inner index of a merge
is a remainder, which is inside its own extent at any time but does not rise.

Main results:

- Theorem `LoopPlan.carried_course`: the recursion that carries indices back tells
  which of them rise.
- Theorem `LoopPlan.bounds_fall`: if every bounded root rises or is a remainder by
  its own extent, bounds that hold at the last iteration hold at each one.
-/

namespace FusionCompiler

open Fusion
open Scalar (Closed Rises Falls)

variable {env : Scalar.Env}

/-! ## Loops at run time -/

/-- The index of an enclosing loop is below its extent, or is fixed by the launch. -/
inductive LoopFrame.Placed (env : Scalar.Env) : LoopFrame → Prop where
  | loop {group : AxisId} {l : LoopId} {extent : Scalar} {i n : Int}
      (hindex : (Scalar.loop l).evaluate env = some (.int i))
      (hextent : extent.evaluate env = some (.int n)) (h₀ : 0 ≤ i) (hlt : i < n)
      (hfits : Fits64 n) : LoopFrame.Placed env ⟨group, .loop l, extent, some l⟩
  | fixed {group : AxisId} {index extent : Scalar} {i : Int} (hclosed : Closed index)
      (hindex : index.evaluate env = some (.int i)) (h₀ : 0 ≤ i) (hfits : Fits64 i) :
      LoopFrame.Placed env ⟨group, index, extent, none⟩

namespace Emitter

variable {frames inner : List LoopFrame}

theorem evaluate_last {extent : Scalar} {n : Int} {c : Constant}
    (hextent : extent.evaluate env = some (.int n))
    (h : (extent.sub .one).evaluate env = some c) : c = .int (n - 1) ∧ Fits64 (n - 1) := by
  have hfold : ∀ n, Scalar.foldInt .sub n 1 = some c → c = .int (n - 1) ∧ Fits64 (n - 1) := by
    intro n hc
    obtain ⟨k, hk, rfl⟩ := Option.map_eq_some_iff.1 hc
    have hfits := Scalar.fits_of_checked64 hk
    rw [eq_of_checked64 hk] at hfits ⊢
    exact ⟨rfl, hfits⟩
  unfold Scalar.sub Scalar.one at h
  rcases Scalar.mkBinary_cases .sub extent (.int 1) with
    ⟨m, k, c', rfl, hk, hc, heq⟩ | ⟨s, hs, heq⟩ | ⟨-, heq⟩
  · cases hextent
    cases hk
    rw [heq, Scalar.evaluate_ofConstant] at h
    cases h
    exact hfold n hc
  · simp [Scalar.simplify?, Scalar.isInt] at hs
  · rw [heq, Scalar.evaluate, hextent] at h
    exact hfold n h

/-- The indices of enclosing loops rise to the last ones. -/
theorem rises_of_placed (h : ∀ fr ∈ frames, fr.Placed env) (hinner : ∀ fr ∈ inner, fr ∈ frames)
    {fr : LoopFrame} (hfr : fr ∈ frames) : Rises env (lastIndex inner) fr.index := by
  cases h fr hfr with
  | fixed hclosed hindex h₀ hfits => exact hclosed.rises hindex h₀ hfits
  | @loop group l extent i n hindex hextent h₀ hlt hfits =>
      intro c hc
      rw [Scalar.substitute, lastIndex] at hc
      cases hfind : inner.find? (·.loop == some l) with
      | none =>
          rw [hfind, Option.map_none, Option.getD_none, hindex] at hc
          cases hc
          exact ⟨i, i, rfl, hindex, h₀, Int.le_refl i, hfits.of_le h₀ (Int.le_of_lt hlt)⟩
      | some last =>
          rw [hfind, Option.map_some, Option.getD_some] at hc
          have hlast := h last (hinner last (List.mem_of_find?_eq_some hfind))
          have hloop : (last.loop == some l) = true := by simpa using List.find?_some hfind
          replace hloop := eq_of_beq hloop
          cases hlast with
          | fixed => cases hloop
          | @loop group' l' extent' i' n' hindex' hextent' h₀' hlt' hfits' =>
              cases hloop
              rw [hindex] at hindex'
              cases hindex'
              obtain ⟨rfl, hfit⟩ := evaluate_last hextent' hc
              exact ⟨i, n' - 1, rfl, hindex, h₀, by omega, hfit⟩

end Emitter

namespace LoopPlan

variable {p : LoopPlan} {v : ValueId} {g : LoopId → Option Scalar} {m : AxisIndices}
  {frames : List LoopFrame} {leaves : List AxisId} {a : AxisId}

theorem leafIndices_get? (h : p.leafIndices v frames = .ok m) :
    ∀ a ∈ p.fusion.leaf v, ∃ s, m.get? a = some s ∧ p.leafIndex v frames a = .ok s := by
  refine (Results.foldlM_establishes
    (R := fun (m m' : AxisIndices) => ∀ a s, p.leafIndex v frames a = .ok s →
      m.get? a = some s → m'.get? a = some s)
    (Q := fun a m => ∃ s, m.get? a = some s ∧ p.leafIndex v frames a = .ok s)
    (fun _ _ _ _ h => h) (fun _ _ _ h h' a s hs hget => h' a s hs (h a s hs hget)) ?_ ?_ h).2
  · rintro a m m' ⟨s, hget, hs⟩ hkeeps
    exact ⟨s, hkeeps a s hs hget, hs⟩
  · intro m m' a hm
    obtain ⟨s, hs, hm⟩ := Results.bind_eq_ok.1 hm
    cases hm
    refine ⟨fun b s' hs' hget => ?_, s, ?_, hs⟩
    · rw [AxisIndices.get?_set]
      split
      case isTrue hb =>
          subst hb
          rw [hs] at hs'
          cases hs'
          rfl
      case isFalse => exact hget
    · rw [AxisIndices.get?_set, if_pos rfl]

/-! ## Which indices rise -/

/-- How an index moves with the loops. -/
inductive Course where
  | rising
  /-- It is the remainder of a rising index by the extent of its own loop. -/
  | wrapped
  | other
deriving DecidableEq

/-- How the index that an axis is given by carrying leaf indices back moves with the loops. -/
def course (leaves : List AxisId) : List Transform → AxisId → Course
  | [], a => if a ∈ leaves then .rising else .other
  | .split input outer inner _ _ :: ts, a =>
    if a = input then
      if course leaves ts outer = .rising ∧ course leaves ts inner = .rising then .rising
      else .other
    else course leaves ts a
  | .merge outer inner output :: ts, a =>
    if a = inner then (if course leaves ts output = .rising then .wrapped else .other)
    else if a = outer then (if course leaves ts output = .rising then .rising else .other)
    else course leaves ts a

/-- The index of an axis moves as described. -/
def Follows (p : LoopPlan) (env : Scalar.Env) (g : LoopId → Option Scalar) (m : AxisIndices)
    (a : AxisId) : Course → Prop
  | .rising => ∃ s, m.get? a = some s ∧ Rises env g s
  | .wrapped => ∃ s, m.get? a = some (s.rem (p.concreteExtent a)) ∧ Rises env g s
  | .other => True

/-- The loop of an axis has a positive trip count. -/
def RunsAt (p : LoopPlan) (env : Scalar.Env) (a : AxisId) : Prop :=
  ∃ n, (p.concreteExtent a).evaluate env = some (.int n) ∧ 0 < n ∧ Fits64 n

instance (p : LoopPlan) (env : Scalar.Env) (a : AxisId) : Decidable (p.RunsAt env a) :=
  inferInstanceAs (Decidable (∃ n, _ ∧ 0 < n ∧ Fits64 n))

theorem closed_concreteExtent (p : LoopPlan) (a : AxisId) : Closed (p.concreteExtent a) :=
  p.fusion.closed_ownExtent _

/-- One step back through a transform. -/
theorem backwardStep_follows {t : Transform} {ts : List Transform}
    (hruns : ∀ a ∈ t.inputs ++ t.outputs, p.RunsAt env a)
    (h : ∀ a, p.Follows env g m a (course leaves ts a)) :
    ∀ a, p.Follows env g (p.backwardStep t m) a (course leaves (t :: ts) a) := by
  intro a
  cases t with
  | split input outer inner k innerSplit =>
      rw [course]
      split
      case isFalse hne =>
          have hkeep := backwardStep_get?_of_not_mem (p := p) (m := m) (a := a)
            (t := .split input outer inner k innerSplit) (by simpa [Transform.inputs] using hne)
          unfold Follows
          rw [hkeep]
          exact h a
      case isTrue heq =>
          split
          case isFalse => trivial
          case isTrue hboth =>
              obtain ⟨n, hn, hpos, hfits⟩ := hruns inner (by simp [Transform.outputs])
              have ho := h outer
              have hi := h inner
              rw [hboth.1] at ho
              rw [hboth.2] at hi
              obtain ⟨so, hso, hro⟩ := ho
              obtain ⟨si, hsi, hri⟩ := hi
              refine ⟨_, ?_, (hro.mul (p.closed_concreteExtent inner) hn hpos hfits).add hri⟩
              rw [backwardStep, hso, hsi, heq, AxisIndices.get?_set, if_pos rfl]
  | merge outer inner output =>
      obtain ⟨n, hn, hpos, hfits⟩ := hruns inner (by simp [Transform.inputs])
      have hout := h output
      rw [course]
      split
      case isTrue heq =>
          split
          case isFalse => trivial
          case isTrue hrising =>
              rw [hrising] at hout
              obtain ⟨s, hs, hr⟩ := hout
              refine ⟨s, ?_, hr⟩
              rw [backwardStep, hs, heq, AxisIndices.get?_set, if_pos rfl]
      case isFalse hinner =>
          split
          case isTrue heq =>
              split
              case isFalse => trivial
              case isTrue hrising =>
                  rw [hrising] at hout
                  obtain ⟨s, hs, hr⟩ := hout
                  refine ⟨_, ?_, hr.div (p.closed_concreteExtent inner) hn hpos⟩
                  rw [backwardStep, hs, AxisIndices.get?_set, if_neg hinner, AxisIndices.get?_set,
                    if_pos heq]
          case isFalse houter =>
              have hkeep := backwardStep_get?_of_not_mem (p := p) (m := m) (a := a)
                (t := .merge outer inner output) (by simp [Transform.inputs, houter, hinner])
              unfold Follows
              rw [hkeep]
              exact h a

/-- The recursion that carries indices back tells which of them rise. -/
theorem carried_course {ts : List Transform}
    (hruns : ∀ t ∈ ts, ∀ a ∈ t.inputs ++ t.outputs, p.RunsAt env a)
    (hleaf : ∀ a ∈ leaves, ∃ s, m.get? a = some s ∧ Rises env g s) (a : AxisId) :
    p.Follows env g (ts.foldr p.backwardStep m) a (course leaves ts a) := by
  induction ts generalizing a with
  | nil =>
      rw [course]
      split
      case isTrue ha => exact hleaf a ha
      case isFalse => trivial
  | cons t ts ih =>
      refine backwardStep_follows (hruns t List.mem_cons_self) (fun a => ?_) a
      exact ih (fun s hs => hruns s (List.mem_cons_of_mem t hs)) a

/-! ## Bounds -/

/-- The axes that the bounds of a tensor may be about. -/
def boundable (p : LoopPlan) (v : ValueId) : List AxisId :=
  (p.fusion.view v).domain.root ++ p.fusion.shape v

/-- Every bounded index of a tensor rises, or is a remainder by the extent that bounds it. -/
def HoistSafe (p : LoopPlan) (v : ValueId) : Prop :=
  ∀ a ∈ p.boundable v, (p.fusion.axis a).isBroadcast = false → p.isExactRoot v a = false →
    course (p.fusion.leaf v) ((p.fusion.history v).map p.fusion.transform) a = .rising ∨
      course (p.fusion.leaf v) ((p.fusion.history v).map p.fusion.transform) a = .wrapped ∧
        p.groups.concrete a = a

instance (p : LoopPlan) (v : ValueId) : Decidable (p.HoistSafe v) :=
  inferInstanceAs (Decidable (∀ a ∈ p.boundable v, _))

/-- The extents of the axes of a tensor are positive at run time. -/
structure Measured (p : LoopPlan) (env : Scalar.Env) (v : ValueId) : Prop where
  loops : ∀ t ∈ p.fusion.history v, ∀ a ∈ (p.fusion.transform t).inputs ++
    (p.fusion.transform t).outputs, p.RunsAt env a
  own : ∀ a ∈ p.boundable v, ∃ n, (p.fusion.ownExtent a).evaluate env = some (.int n) ∧ 0 < n

instance (p : LoopPlan) (env : Scalar.Env) (v : ValueId) : Decidable (p.Measured env v) :=
  decidable_of_iff ((∀ t ∈ p.fusion.history v, ∀ a ∈ (p.fusion.transform t).inputs ++
      (p.fusion.transform t).outputs, p.RunsAt env a) ∧
    ∀ a ∈ p.boundable v, ∃ n, (p.fusion.ownExtent a).evaluate env = some (.int n) ∧ 0 < n)
    ⟨fun h => ⟨h.1, h.2⟩, fun h => ⟨h.loops, h.own⟩⟩

theorem leafIndex_cases {s : Scalar} (h : p.leafIndex v frames a = .ok s) :
    s = .zero ∨ ∃ fr ∈ frames, fr.group = p.groups.name a ∧ s = fr.index := by
  unfold leafIndex loopIndex? at h
  split at h
  case h_1 index hfind =>
      cases h
      obtain ⟨fr, hfr, rfl⟩ := Option.map_eq_some_iff.1 hfind
      exact .inr ⟨fr, List.mem_of_find?_eq_some hfr, by simpa using List.find?_some hfr, rfl⟩
  case h_2 =>
      split at h
      · cases h
        exact .inl rfl
      · cases h

/-- The bounds of a tensor are one comparison per root that is neither a broadcast nor exact. -/
theorem bounds_eq_all (p : LoopPlan) (v : ValueId) (m : AxisIndices) (withReductions : Bool) :
    ∃ terms, p.bounds v m withReductions = .all terms ∧ ∀ t ∈ terms, ∃ a ∈ p.boundable v,
      (p.fusion.axis a).isBroadcast = false ∧ p.isExactRoot v a = false ∧
        ∃ s, m.get? a = some s ∧ t = s.lt (p.fusion.ownExtent a) := by
  refine ⟨_, rfl, fun t ht => ?_⟩
  obtain ⟨a, ha, ht⟩ := List.mem_filterMap.1 ht
  split at ht
  · cases ht
  case isFalse hbounded =>
      obtain ⟨s, hs, rfl⟩ := Option.map_eq_some_iff.1 ht
      obtain ⟨hbroadcast, hexact⟩ : (p.fusion.axis a).isBroadcast = false ∧
          p.isExactRoot v a = false := by simpa using hbounded
      refine ⟨a, ?_, hbroadcast, hexact, s, hs, rfl⟩
      split at ha
      · exact List.mem_append_left _ ha
      · exact List.mem_append_right _ ha

theorem bounds_isTest (p : LoopPlan) (v : ValueId) (m : AxisIndices) (withReductions : Bool) :
    Scalar.IsTest (p.bounds v m withReductions) := by
  obtain ⟨terms, heq, hterms⟩ := p.bounds_eq_all v m withReductions
  rw [heq]
  refine .all fun t ht => ?_
  obtain ⟨a, -, -, -, s, -, rfl⟩ := hterms t ht
  exact .lt _ _

/-- Bounds that hold at the last iteration of enclosing loops hold at each one. -/
theorem bounds_fall (hsafe : p.HoistSafe v) (hmeasured : p.Measured env v)
    (hframes : ∀ fr ∈ frames, fr.Placed env) {inner : List LoopFrame}
    (hinner : ∀ fr ∈ inner, fr ∈ frames) (h : p.consumerIndices v frames = .ok m)
    (withReductions : Bool) :
    Falls env (Emitter.lastIndex inner) (p.bounds v m withReductions) := by
  obtain ⟨leaves, hleaves, h⟩ := Results.bind_eq_ok.1 h
  cases h
  have hcarried : p.carried v leaves =
      ((p.fusion.history v).map p.fusion.transform).foldr p.backwardStep leaves :=
    List.foldr_map.symm
  have hfollows : ∀ a, p.Follows env (Emitter.lastIndex inner) (p.carried v leaves) a
      (course (p.fusion.leaf v) ((p.fusion.history v).map p.fusion.transform) a) := by
    rw [hcarried]
    refine carried_course (fun t ht => ?_) fun a ha => ?_
    · obtain ⟨t', ht', rfl⟩ := List.mem_map.1 ht
      exact hmeasured.loops t' ht'
    · obtain ⟨s, hget, hs⟩ := leafIndices_get? hleaves a ha
      refine ⟨s, hget, ?_⟩
      rcases leafIndex_cases hs with rfl | ⟨fr, hfr, -, rfl⟩
      · exact Scalar.rises_zero
      · exact Emitter.rises_of_placed hframes hinner hfr
  obtain ⟨terms, heq, hterms⟩ := p.bounds_eq_all v (p.backward v leaves) withReductions
  rw [heq]
  refine Falls.all (fun t ht => ?_) fun t ht => ?_
  · obtain ⟨a, -, -, -, s, -, rfl⟩ := hterms t ht
    exact .lt _ _
  · obtain ⟨a, hboundable, hbroadcast, hexact, s, hs, rfl⟩ := hterms t ht
    obtain ⟨n, hn, hpos⟩ := hmeasured.own a hboundable
    rw [backward_get?, if_neg (by simp [hbroadcast])] at hs
    have hclosed := p.fusion.closed_ownExtent a
    have hcourse := hfollows a
    rcases hsafe a hboundable hbroadcast hexact with hrising | ⟨hwrapped, hconcrete⟩
    · rw [hrising] at hcourse
      obtain ⟨s', hs', hrises⟩ := hcourse
      cases hs.symm.trans hs'
      exact Falls.lt hclosed hn hrises
    · rw [hwrapped] at hcourse
      obtain ⟨s', hs', hrises⟩ := hcourse
      cases hs.symm.trans hs'
      unfold concreteExtent
      rw [hconcrete]
      exact Falls.rem hclosed hn hpos hrises

end LoopPlan
end FusionCompiler
