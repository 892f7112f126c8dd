import FusionCompiler.Proofs.Lower.Tracing
import FusionCompiler.Proofs.Schedule.Calls

/-!
# The iterations of a loop nest

The loops of a tensor that is inlined nowhere run over its leaves.  An iteration
touches the root element that its leaf indices lead back to, unless the guard on
the root indices skips it.

Every element is touched by an iteration that passes the guard.  It is touched by
one such iteration only if no iteration that passes overruns an axis on the way.
A split that does not divide its axis pads it, and the guard looks at root
indices, so an overrun is only caught when it shows at a root that is bounded.

Main results:

- Theorem `Fusion.everyElement_reached`: root indices carried forward stay inside
  all extents, and carrying them back returns them and passes the guard.
- Theorem `Fusion.visitsOnce_iff`: no element is visited twice if and only if all
  iterations that pass the guard stay inside, and so if the guard catches all
  padding.
-/

namespace FusionCompiler

namespace Fusion

variable {f : Fusion} {v : ValueId} {e : AxisId → Int} {env : Scalar.Env} {a : AxisId}

/-- Positive root extents and split factors whose quotients and products are held by the types of
the extents that record them. -/
structure Sizes (f : Fusion) (v : ValueId) (e : AxisId → Int) : Prop where
  root : ∀ a ∈ (f.view v).domain.root, 0 < e a ∧ Fits64 (e a)
  fitting : ∀ t ∈ f.history v, f.Fitting e (f.transform t)

instance (f : Fusion) (v : ValueId) (e : AxisId → Int) : Decidable (f.Sizes v e) :=
  decidable_of_iff ((∀ a ∈ (f.view v).domain.root, 0 < e a ∧ Fits64 (e a)) ∧
      ∀ t ∈ f.history v, f.Fitting e (f.transform t))
    ⟨fun h => ⟨h.1, h.2⟩, fun h => ⟨h.root, h.fitting⟩⟩

/-- An extent that is known without any inputs is the extent at run time. -/
def KnownExtents (f : Fusion) (v : ValueId) (e : AxisId → Int) : Prop :=
  ∀ a ∈ f.axesOf v, ∀ n ∈ f.constInt? (f.extent a), e a = n

instance (f : Fusion) (v : ValueId) (e : AxisId → Int) : Decidable (f.KnownExtents v e) :=
  inferInstanceAs (Decidable (∀ a ∈ f.axesOf v, ∀ n ∈ f.constInt? (f.extent a), e a = n))

/-- The transforms of a tensor have exact extents. -/
theorem Sizes.exact (hs : f.Sizes v e) (hf : Sound f)
    (hb : f.Balanced (f.view v).domain.root (f.history v) (f.leaf v))
    (hsized : f.Sized env (f.axesOf v) e) {t : TransformId} (ht : t ∈ f.history v) :
    Exact e (f.transform t) := by
  have ht' : f.Sized env ((f.transform t).inputs ++ (f.transform t).outputs) e :=
    fun a ha => hsized a (hb.mem_axes ht ha)
  exact (hf.recorded t (hb.has t ht)).exact hf ht' (hs.fitting t ht)

theorem Sizes.pos (hs : f.Sizes v e) (hf : Sound f)
    (hb : f.Balanced (f.view v).domain.root (f.history v) (f.leaf v))
    (hsized : f.Sized env (f.axesOf v) e) : ∀ a ∈ f.axesOf v, 0 < e a :=
  hb.extent_pos hf (fun a ha => (hs.root a ha).1) fun _ ht => hs.exact hf hb hsized ht

/-- The extent of a plain axis is a literal or a size. -/
theorem PlainAxis.ownExtent (h : f.PlainAxis a) :
    (∃ k, f.ownExtent a = .int k) ∨ ∃ t d, f.ownExtent a = .size t d := by
  cases h with
  | literal n hn hone => exact .inl ⟨n, kernelScalar_const hn⟩
  | size tensor dim hkind hdef hnot => exact .inr ⟨tensor, dim, kernelScalar_size hkind⟩

/-- A plain broadcast has one element. -/
theorem PlainAxis.ownExtent_of_broadcast (h : f.PlainAxis a) (hb : (f.axis a).isBroadcast = true) :
    f.ownExtent a = .int 1 := by
  cases h with
  | literal n hn hone =>
      rw [Fusion.ownExtent, kernelScalar_const hn, hone hb]
      rfl
  | size tensor dim hkind hdef hnot =>
      rw [hb] at hnot
      cases hnot

theorem PlainAxis.extent_eq_one (h : f.PlainAxis a) (hb : (f.axis a).isBroadcast = true)
    (hsized : (f.ownExtent a).evaluate env = some (.int (e a))) : e a = 1 := by
  rw [h.ownExtent_of_broadcast hb] at hsized
  exact (Constant.int.inj (Option.some.inj hsized)).symm

/-! ## Exact roots -/

/-- A split that is known to leave no remainder pads nothing. -/
theorem padded_of_splitsEvenly {t : Transform} (ht : f.Recorded t) (hexact : Exact e t)
    (hknown : ∀ a ∈ t.inputs ++ t.outputs, ∀ n, f.constInt? (f.extent a) = some n → e a = n)
    (h : f.splitsEvenly t = true) : padded e t = [] := by
  cases t with
  | merge o i out => rfl
  | split a o i k innerSplit =>
      rw [splitsEvenly] at h
      split at h
      case h_2 => cases h
      case h_1 m n hm hn =>
          obtain ⟨hpos, hmod⟩ : 0 < n ∧ m % n = 0 := by simpa using h
          have ha : e a = m := hknown a (by simp [Transform.inputs]) m hm
          have hprod : e o * e i = e a := by
            cases innerSplit with
            | true =>
                have hi : e i = n := hknown i (by simp [Transform.outputs]) n (ht.2.2.2.2.1 ▸ hn)
                rw [hexact.2, hi, ha]
                exact steps_mul_of_emod hpos hmod
            | false =>
                have ho : e o = n := hknown o (by simp [Transform.outputs]) n (ht.2.2.2.2.1 ▸ hn)
                rw [hexact.2, ho, ha, Int.mul_comm]
                exact steps_mul_of_emod hpos hmod
          exact if_pos hprod

/-- What passes from the outputs to the inputs of transforms without remainder, and holds of the
leaves that axes end in, holds of the axes. -/
theorem Balanced.of_exactLeaves {P : AxisId → Prop} {root leaf reached result : List AxisId}
    {ts : List TransformId} (hf : Sound f) (h : f.Balanced root ts leaf)
    (hstep : ∀ t ∈ ts, f.splitsEvenly (f.transform t) = true →
      (∀ a ∈ (f.transform t).outputs, P a) → ∀ a ∈ (f.transform t).inputs, P a)
    (hleaf : ∀ a ∈ leaf, a ∈ result → P a) (hreached : ∀ a ∈ reached, a ∈ root)
    (hleaves : f.exactLeaves (ts.map f.transform) reached = some result) : ∀ a ∈ reached, P a := by
  induction ts generalizing root reached with
  | nil =>
      intro a ha
      have hperm : root.Perm leaf := by simpa [outputsOf, inputsOf] using h.perm
      cases hleaves
      exact hleaf a (hperm.mem_iff.1 (hreached a ha)) ha
  | cons t ts ih =>
      obtain ⟨rest, -, hrest, hnext, -⟩ := h.step hf
      have hnextAll : ∀ reached, (∀ a ∈ reached, a ∈ rest ++ (f.transform t).outputs) →
          f.exactLeaves (ts.map f.transform) reached = some result → ∀ a ∈ reached, P a :=
        fun _ hsub => ih hnext (fun s hs => hstep s (List.mem_cons_of_mem t hs)) hsub
      have hcut : ∀ a ∈ reached, a ∉ (f.transform t).inputs → a ∈ rest := by
        intro a ha hnot
        rcases List.mem_append.1 (hrest.mem_iff.1 (hreached a ha)) with hin | hin
        · exact absurd hin hnot
        · exact hin
      rw [List.map_cons, exactLeaves] at hleaves
      split at hleaves
      case isTrue =>
          split at hleaves
          case isFalse => cases hleaves
          case isTrue heven =>
              have hall := hnextAll _ (fun a ha => by
                rcases List.mem_append.1 ha with ha | ha
                · obtain ⟨ha, hnot⟩ := List.mem_filter.1 ha
                  exact List.mem_append_left _ (hcut a ha (by simpa using hnot))
                · exact List.mem_append_right _ ha) hleaves
              have hin := hstep t List.mem_cons_self heven
                fun a ha => hall a (List.mem_append_right _ ha)
              intro a ha
              by_cases hmem : a ∈ (f.transform t).inputs
              · exact hin a hmem
              · exact hall a (List.mem_append_left _ (List.mem_filter.2 ⟨ha, by simpa using hmem⟩))
      case isFalse hnone =>
          refine hnextAll reached (fun a ha => List.mem_append_left _ (hcut a ha fun hin => ?_)) hleaves
          exact hnone (List.any_eq_true.2 ⟨a, hin, by simpa using ha⟩)

/-- If leaves are inside their extents, so are the axes that lead to them without remainder. -/
theorem Balanced.inside_of_exactLeaves {x : AxisId → Int} {root leaf reached result : List AxisId}
    {ts : List TransformId} (hf : Sound f) (h : f.Balanced root ts leaf)
    (htraced : ∀ t ∈ ts, Traced e x (f.transform t)) (hexact : ∀ t ∈ ts, Exact e (f.transform t))
    (hpos : ∀ t ∈ ts, ∀ a ∈ (f.transform t).inputs ++ (f.transform t).outputs, 0 < e a)
    (hknown : ∀ t ∈ ts, ∀ a ∈ (f.transform t).inputs ++ (f.transform t).outputs,
      ∀ n, f.constInt? (f.extent a) = some n → e a = n)
    (hleaf : ∀ a ∈ leaf, a ∈ result → Inside e x a) (hreached : ∀ a ∈ reached, a ∈ root)
    (hleaves : f.exactLeaves (ts.map f.transform) reached = some result) :
    ∀ a ∈ reached, Inside e x a := by
  refine h.of_exactLeaves hf (fun t ht heven => ?_) hleaf hreached hleaves
  have hpad := padded_of_splitsEvenly (hf.recorded t (h.has t ht)) (hexact t ht) (hknown t ht) heven
  exact (htraced t ht).inputs_inside (hexact t ht) (hpos t ht) (by simp [hpad])

end Fusion

open Fusion

namespace LoopPlan

variable {p : LoopPlan} {v : ValueId} {e x r : AxisId → Int} {env : Scalar.Env}
  {leaves roots m : AxisIndices} {a : AxisId}

/-- A loop plan that inlines nothing, over balanced leaves and plain roots. -/
structure Standalone (p : LoopPlan) : Prop where
  sound : Sound p.fusion
  cuts : Cuts p.fusion
  plain : Plain p.fusion
  own : ∀ a, p.concreteExtent a = p.fusion.ownExtent a

/-! ## Root indices -/

theorem get?_foldl_zero (l : List AxisId) (m : AxisIndices) (a : AxisId) :
    (l.foldl (fun m b => m.set b .zero) m).get? a = if a ∈ l then some .zero else m.get? a := by
  induction l generalizing m with
  | nil => rfl
  | cons b l ih =>
      rw [List.foldl_cons, ih, AxisIndices.get?_set]
      by_cases hl : a ∈ l
      · simp [hl]
      · by_cases hab : a = b
        · simp [hab]
        · simp [hl, hab]

/-- Carrying back puts broadcast roots at zero and leaves all other axes as they are. -/
theorem backward_get? (p : LoopPlan) (v : ValueId) (leaves : AxisIndices) (a : AxisId) :
    (p.backward v leaves).get? a =
      if a ∈ (p.fusion.view v).domain.root ∧ (p.fusion.axis a).isBroadcast = true then some .zero
      else (p.carried v leaves).get? a := by
  unfold backward
  dsimp only
  rw [get?_foldl_zero]
  simp only [List.mem_filter]

/-- The roots whose index the guard compares with their extent. -/
def boundedRoots (p : LoopPlan) (v : ValueId) : List AxisId :=
  (p.fusion.view v).domain.root.filter fun a =>
    !((p.fusion.axis a).isBroadcast || p.isExactRoot v a)

/-- The guard holds when the bounded roots are inside their extents. -/
theorem bounds_iff (hp : Plain p.fusion) (hsized : ∀ a ∈ (p.fusion.view v).domain.root,
      (p.fusion.ownExtent a).evaluate env = some (.int (e a)))
    (hval : ∀ a ∈ p.boundedRoots v, Valued env m x a) :
    (p.bounds v m true).evaluate env = some (.bool true) ↔ ∀ a ∈ p.boundedRoots v, x a < e a := by
  unfold bounds
  dsimp only
  rw [if_pos rfl, Scalar.evaluate_all_iff]
  · constructor
    · intro h a ha
      obtain ⟨hroot, hcond⟩ := List.mem_filter.1 ha
      obtain ⟨s, hs, hx⟩ := hval a ha
      have hterm := h (s.lt (p.fusion.ownExtent a)) (by
        refine List.mem_filterMap.2 ⟨a, hroot, ?_⟩
        rw [if_neg (by simpa using hcond), hs]
        rfl)
      exact (Scalar.evaluate_lt_iff (hp.root v a hroot).ownExtent hx (hsized a hroot)).1 hterm
    · intro h term hterm
      obtain ⟨a, hroot, hterm⟩ := List.mem_filterMap.1 hterm
      split at hterm
      case isTrue => cases hterm
      case isFalse hcond =>
          have ha : a ∈ p.boundedRoots v := List.mem_filter.2 ⟨hroot, by simpa using hcond⟩
          obtain ⟨s, hs, hx⟩ := hval a ha
          rw [hs] at hterm
          cases hterm
          exact (Scalar.evaluate_lt_iff (hp.root v a hroot).ownExtent hx (hsized a hroot)).2 (h a ha)
  · intro term hterm
    obtain ⟨a, hroot, hterm⟩ := List.mem_filterMap.1 hterm
    split at hterm
    case isTrue => cases hterm
    case isFalse =>
        obtain ⟨s, hs, rfl⟩ := Option.map_eq_some_iff.1 hterm
        exact Scalar.IsCondition.lt s _

/-- Indices that are carried back from leaf indices that are not negative belong together along the
history, and are not negative either. -/
theorem carried_traced (hf : Sound p.fusion)
    (hb : p.fusion.Balanced (p.fusion.view v).domain.root (p.fusion.history v) (p.fusion.leaf v))
    (hown : ∀ a ∈ p.fusion.axesOf v, p.concreteExtent a = p.fusion.ownExtent a)
    (hsizes : p.fusion.Sizes v e) (hsized : p.fusion.Sized env (p.fusion.axesOf v) e)
    (hvalued : ∀ a ∈ p.fusion.axesOf v,
      Valued env (p.carried v leaves) (pointOf env (p.carried v leaves)) a)
    (hnonneg : ∀ a ∈ p.fusion.leaf v, 0 ≤ pointOf env (p.carried v leaves) a) :
    (∀ t ∈ p.fusion.history v,
      Traced e (pointOf env (p.carried v leaves)) (p.fusion.transform t)) ∧
    ∀ a ∈ p.fusion.axesOf v, 0 ≤ pointOf env (p.carried v leaves) a := by
  have hpos := hsizes.pos hf hb hsized
  have hmem : ∀ t ∈ p.fusion.history v, ∀ a ∈ (p.fusion.transform t).inputs ++
      (p.fusion.transform t).outputs, a ∈ p.fusion.axesOf v := fun t ht a => hb.mem_axes ht
  have hlinked := (carriedBack_linked (m := leaves) hf hb fun a ha => by
    obtain ⟨s, hs, -⟩ := hvalued a (hb.leaf_mem_axes ha)
    refine ⟨s, (carriedBack_get?_of_not_mem fun hin => ?_).symm.trans hs⟩
    exact (List.nodup_append.1 (hb.perm.nodup_iff.1 hb.nodup)).2.2 a ha a hin rfl).2
  have hstep : ∀ t ∈ p.fusion.history v,
      (∀ a ∈ (p.fusion.transform t).outputs, 0 ≤ pointOf env (p.carried v leaves) a) →
      Traced e (pointOf env (p.carried v leaves)) (p.fusion.transform t) := by
    intro t ht
    exact (hlinked t ht).traced (fun a ha => hown a (hmem t ht a ha))
      (fun a ha => hsized a (hmem t ht a ha)) (fun a ha => hpos a (hmem t ht a ha))
      fun a ha => hvalued a (hmem t ht a ha)
  have hall : ∀ a ∈ p.fusion.axesOf v, 0 ≤ pointOf env (p.carried v leaves) a := by
    refine hb.backward_induction hf hnonneg fun t ht hout => ?_
    exact (hstep t ht hout).nonneg (fun a ha => hpos a (hmem t ht a ha)) hout
  exact ⟨fun t ht => hstep t ht fun a ha => hall a (hmem t ht a (List.mem_append_right _ ha)), hall⟩

/-! ## Every element is reached -/

section Reaching

variable {frames : List LoopFrame} (hf : Sound p.fusion)
  (hb : p.fusion.Balanced (p.fusion.view v).domain.root (p.fusion.history v) (p.fusion.leaf v))
  (hsizes : p.fusion.Sizes v e)

/-- Nothing but the history of a tensor that is not factored takes part in carrying its root indices
forward, if no enclosing loop is one of its own. -/
theorem producerLeaves_eq (hrfactor : (p.fusion.view v).domain.rfactor = none)
    (hframes : ∀ a ∈ p.fusion.leaf v, p.loopIndex? frames a = none) (roots : AxisIndices) :
    p.producerLeaves v frames roots = carriedForth p.fusion (p.fusion.history v) roots := by
  have hlogical : (p.fusion.view v).domain.logical = (p.fusion.view v).domain.root := by
    rw [TensorDomain.logical, hrfactor, Option.getD_none]
  unfold producerLeaves
  dsimp only
  refine (List.foldlRecOn (motive := fun m => m = _) _ _ rfl fun m hm a ha => ?_).trans ?_
  · rw [hframes a (List.mem_filter.1 ha).1]
    exact hm
  · rw [hlogical]
    rfl

include hf hb hsizes

/-- Root indices inside their extents, carried forward, stay inside all extents. -/
theorem carriedForth_reaches (hsized : p.fusion.Sized env (p.fusion.axesOf v) e)
    (hroots : ∀ a ∈ (p.fusion.view v).domain.root, Valued env roots r a ∧ Inside e r a) :
    (∀ a ∈ p.fusion.axesOf v,
        Reaches env (carriedForth p.fusion (p.fusion.history v) roots) e a) ∧
      (∀ t ∈ p.fusion.history v,
        Traced e (pointOf env (carriedForth p.fusion (p.fusion.history v) roots))
          (p.fusion.transform t)) ∧
      ∀ a ∈ (p.fusion.view v).domain.root,
        pointOf env (carriedForth p.fusion (p.fusion.history v) roots) a = r a := by
  have hpos := hsizes.pos hf hb hsized
  have hlinked := carriedForth_linked (m := roots) hf hb fun a ha => by
    obtain ⟨⟨s, hs, -⟩, -⟩ := hroots a ha
    exact ⟨s, hs⟩
  have hkept : ∀ a ∈ (p.fusion.view v).domain.root,
      (carriedForth p.fusion (p.fusion.history v) roots).get? a = roots.get? a := by
    intro a ha
    refine carriedForth_get?_of_not_mem fun hout => ?_
    exact (List.nodup_append.1 hb.nodup).2.2 a ha a hout rfl
  generalize carriedForth p.fusion (p.fusion.history v) roots = m at hlinked hkept ⊢
  have hpoint : ∀ a ∈ (p.fusion.view v).domain.root, pointOf env m a = r a := by
    intro a ha
    obtain ⟨⟨s, hs, hval⟩, -⟩ := hroots a ha
    exact pointOf_eq ((hkept a ha).trans hs) hval
  have hstep : ∀ t ∈ p.fusion.history v,
      (∀ a ∈ (p.fusion.transform t).inputs, Reaches env m e a) →
        (∀ a ∈ (p.fusion.transform t).outputs, Reaches env m e a) ∧
          Traced e (pointOf env m) (p.fusion.transform t) := by
    intro t ht
    refine (hlinked t ht).reaches (fun a ha => ?_) (hsizes.exact hf hb hsized ht)
      (hsizes.fitting t ht) fun a ha => ?_
    · exact hsized a (hb.mem_axes ht ha)
    · exact hpos a (hb.mem_axes ht ha)
  have hall : ∀ a ∈ p.fusion.axesOf v, Reaches env m e a := by
    refine hb.forward_induction hf (fun a ha => ?_) fun t ht hin => (hstep t ht hin).1
    obtain ⟨⟨s, hs, hval⟩, hinside⟩ := hroots a ha
    have heq := hpoint a ha
    refine ⟨valued_pointOf ((hkept a ha).trans hs) hval, ?_, ?_⟩
    · rw [Inside, heq]
      exact hinside
    · rw [heq]
      exact (hsizes.root a ha).2.of_le hinside.1 (Int.le_of_lt hinside.2)
  refine ⟨hall, fun t ht => (hstep t ht fun a ha => hall a ?_).2, hpoint⟩
  exact hb.mem_axes ht (List.mem_append_left _ ha)

/-- Leaf indices of a point that stays inside all extents, carried back, give the point. -/
theorem carried_valued (hown : ∀ a ∈ p.fusion.axesOf v, p.concreteExtent a = p.fusion.ownExtent a)
    (hsized : p.fusion.Sized env (p.fusion.axesOf v) e)
    (htraced : ∀ t ∈ p.fusion.history v, Traced e x (p.fusion.transform t))
    (hinside : ∀ a ∈ p.fusion.axesOf v, Inside e x a ∧ Fits64 (x a))
    (hleaves : ∀ a ∈ p.fusion.leaf v, Valued env leaves x a) :
    ∀ a ∈ p.fusion.axesOf v, Valued env (p.carried v leaves) x a := by
  have hpos := hsizes.pos hf hb hsized
  have hlinked := (carriedBack_linked (m := leaves) hf hb fun a ha => by
    obtain ⟨s, hs, -⟩ := hleaves a ha
    exact ⟨s, hs⟩).2
  have hmem : ∀ t ∈ p.fusion.history v, ∀ a ∈ (p.fusion.transform t).inputs ++
      (p.fusion.transform t).outputs, a ∈ p.fusion.axesOf v := fun t ht a => hb.mem_axes ht
  refine hb.backward_induction hf (fun a ha => ?_) fun t ht hout => ?_
  · have hkept : (p.carried v leaves).get? a = leaves.get? a := by
      refine carriedBack_get?_of_not_mem fun hin => ?_
      exact (List.nodup_append.1 (hb.perm.nodup_iff.1 hb.nodup)).2.2 a ha a hin rfl
    obtain ⟨s, hs, hval⟩ := hleaves a ha
    exact ⟨s, hkept.trans hs, hval⟩
  · refine (hlinked t ht).valued (fun a ha => hown a (hmem t ht a ha))
      (fun a ha => hsized a (hmem t ht a ha)) (fun a ha => hpos a (hmem t ht a ha)) (htraced t ht)
      (fun a ha => (hinside a (hmem t ht a ha)).1.1) (fun a ha => ?_) hout
    exact (hinside a (hmem t ht a (List.mem_append_left _ ha))).2

end Reaching

/-! ## Iterations -/

/-- An iteration of the loops of a tensor: leaf indices inside their extents that lead back to
indices with a value at run time. -/
structure Iteration (p : LoopPlan) (v : ValueId) (e : AxisId → Int) where
  env : Scalar.Env
  leaves : AxisIndices
  sized : p.fusion.Sized env (p.fusion.axesOf v) e
  valued : ∀ a ∈ p.fusion.axesOf v,
    Valued env (p.carried v leaves) (pointOf env (p.carried v leaves)) a
  inside : ∀ a ∈ p.fusion.leaf v, Inside e (pointOf env (p.carried v leaves)) a

namespace Iteration

/-- The index of an axis between the root and the leaves. -/
def index (it : Iteration p v e) : AxisId → Int :=
  pointOf it.env (p.carried v it.leaves)

/-- The iteration passes the guard on the root indices. -/
def Passes (it : Iteration p v e) : Prop :=
  (p.bounds v (p.backward v it.leaves) true).evaluate it.env = some (.bool true)

/-- The index along a root axis of the element that the iteration touches. -/
def rootIndex (it : Iteration p v e) (a : AxisId) : Int :=
  pointOf it.env (p.backward v it.leaves) a

end Iteration

/-- No two iterations that pass the guard touch the same element. -/
def VisitsOnce (p : LoopPlan) (v : ValueId) (e : AxisId → Int) : Prop :=
  ∀ it it' : Iteration p v e, it.Passes → it'.Passes →
    (∀ a ∈ (p.fusion.view v).domain.root, it.rootIndex a = it'.rootIndex a) →
      ∀ a ∈ p.fusion.leaf v, it.index a = it'.index a

/-- Iterations that pass the guard overrun no axis between the root and the leaves. -/
def StaysInside (p : LoopPlan) (v : ValueId) (e : AxisId → Int) : Prop :=
  ∀ it : Iteration p v e, it.Passes → ∀ a ∈ p.fusion.axesOf v, Inside e it.index a

/-- The axes that cannot overrun in an iteration that passes the guard, as far as the bounded roots
show. -/
def caughtAxes (p : LoopPlan) (v : ValueId) (e : AxisId → Int) : List AxisId :=
  (p.fusion.history v).foldl (fun caught t => caught ++ catches e caught (p.fusion.transform t))
    (p.boundedRoots v)

/-- Every axis that a split pads is one that the guard keeps from overrunning. -/
def PaddingCaught (p : LoopPlan) (v : ValueId) (e : AxisId → Int) : Prop :=
  ∀ t ∈ p.fusion.history v, ∀ a ∈ padded e (p.fusion.transform t), a ∈ p.caughtAxes v e

instance (p : LoopPlan) (v : ValueId) (e : AxisId → Int) : Decidable (p.PaddingCaught v e) :=
  inferInstanceAs (Decidable (∀ t ∈ p.fusion.history v, ∀ a ∈ padded e (p.fusion.transform t),
    a ∈ p.caughtAxes v e))

namespace Iteration

/-- An iteration touches the root element its indices lead back to, broadcasts at zero. -/
theorem rootIndex_eq (it : Iteration p v e) {a : AxisId} (ha : a ∈ (p.fusion.view v).domain.root) :
    it.rootIndex a = if (p.fusion.axis a).isBroadcast then 0 else it.index a := by
  have hget := backward_get? p v it.leaves a
  unfold rootIndex
  by_cases hbroad : (p.fusion.axis a).isBroadcast = true
  · rw [if_pos ⟨ha, hbroad⟩] at hget
    rw [if_pos hbroad, pointOf_eq hget rfl]
  · rw [if_neg fun h => hbroad h.2] at hget
    obtain ⟨s, hs, hval⟩ := it.valued a (List.mem_append_left _ ha)
    rw [if_neg hbroad, pointOf_eq (hget.trans hs) hval]
    rfl

theorem passes_iff (hp : p.Standalone) (it : Iteration p v e) :
    it.Passes ↔ ∀ a ∈ p.boundedRoots v, it.index a < e a := by
  refine bounds_iff hp.plain (fun a ha => it.sized a (List.mem_append_left _ ha)) fun a ha => ?_
  obtain ⟨hroot, hcond⟩ := List.mem_filter.1 ha
  simp only [Bool.not_eq_true', Bool.or_eq_false_iff] at hcond
  obtain ⟨s, hs, hval⟩ := it.valued a (List.mem_append_left _ hroot)
  have hget := backward_get? p v it.leaves a
  rw [if_neg fun h => by rw [hcond.1] at h; cases h.2] at hget
  exact ⟨s, hget.trans hs, hval⟩

section Points

variable (hp : p.Standalone) (hsizes : p.fusion.Sizes v e) (it : Iteration p v e)

include hp hsizes

/-- The indices of an iteration belong together along the history and are not negative. -/
theorem traced : (∀ t ∈ p.fusion.history v, Traced e it.index (p.fusion.transform t)) ∧
    ∀ a ∈ p.fusion.axesOf v, 0 ≤ it.index a := by
  exact carried_traced hp.sound (hp.cuts.history hp.sound v) (fun a _ => hp.own a) hsizes it.sized
    it.valued fun a ha => (it.inside a ha).1

/-- Outside of the padding, overruns show at the leaves. -/
theorem inside_of_padded (hpad : ∀ t ∈ p.fusion.history v,
      ∀ a ∈ padded e (p.fusion.transform t), Inside e it.index a) :
    ∀ a ∈ p.fusion.axesOf v, Inside e it.index a := by
  have hb := hp.cuts.history hp.sound v
  have hpos := hsizes.pos hp.sound hb it.sized
  refine hb.backward_induction hp.sound it.inside fun t ht => ?_
  exact ((it.traced hp hsizes).1 t ht).inputs_inside (hsizes.exact hp.sound hb it.sized ht)
    (fun a ha => hpos a (hb.mem_axes ht ha)) (hpad t ht)

/-- An iteration that passes the guard overruns no caught axis. -/
theorem inside_of_caught (hpasses : it.Passes) : ∀ a ∈ p.caughtAxes v e, Inside e it.index a := by
  have hb := hp.cuts.history hp.sound v
  have hpos := hsizes.pos hp.sound hb it.sized
  obtain ⟨htraced, hnonneg⟩ := it.traced hp hsizes
  have hstep : ∀ t ∈ p.fusion.history v, ∀ caught : List AxisId,
      (∀ a ∈ caught, Inside e it.index a) →
        ∀ a ∈ caught ++ catches e caught (p.fusion.transform t), Inside e it.index a := by
    intro t ht caught hcaught a ha
    rcases List.mem_append.1 ha with ha | ha
    · exact hcaught a ha
    · refine (htraced t ht).catches_inside (hsizes.exact hp.sound hb it.sized ht)
        (fun a ha => hpos a (hb.mem_axes ht ha)) (fun a ha => ?_) hcaught a ha
      exact hnonneg a (hb.mem_axes ht (List.mem_append_right _ ha))
  have hrun : ∀ ts : List TransformId, (∀ t ∈ ts, t ∈ p.fusion.history v) → ∀ caught : List AxisId,
      (∀ a ∈ caught, Inside e it.index a) →
        ∀ a ∈ ts.foldl (fun caught t => caught ++ catches e caught (p.fusion.transform t)) caught,
          Inside e it.index a := by
    intro ts
    induction ts with
    | nil => exact fun _ _ h => h
    | cons t ts ih =>
        intro hts caught hcaught
        exact ih (fun s hs => hts s (List.mem_cons_of_mem t hs)) _
          (hstep t (hts t List.mem_cons_self) caught hcaught)
  refine hrun _ (fun _ h => h) _ fun a ha => ⟨hnonneg a ?_, (it.passes_iff hp).1 hpasses a ha⟩
  exact List.mem_append_left _ (List.mem_filter.1 ha).1

/-- An iteration overruns no root that is left out of the guard as exact. -/
theorem inside_of_isExactRoot (hknown : p.fusion.KnownExtents v e) {a : AxisId}
    (ha : a ∈ (p.fusion.view v).domain.root) (h : p.isExactRoot v a = true) :
    Inside e it.index a := by
  have hb := hp.cuts.history hp.sound v
  have hpos := hsizes.pos hp.sound hb it.sized
  unfold isExactRoot at h
  dsimp only at h
  split at h
  case h_1 leaves hleaves =>
      refine hb.inside_of_exactLeaves hp.sound (it.traced hp hsizes).1
        (fun t ht => hsizes.exact hp.sound hb it.sized ht)
        (fun t ht a ha => hpos a (hb.mem_axes ht ha)) (fun t ht a ha => ?_)
        (fun a ha _ => it.inside a ha) (by simpa using ha) hleaves a List.mem_cons_self
      exact hknown a (hb.mem_axes ht ha)
  case h_2 => cases h

/-- An iteration that passes the guard touches an element of the tensor. -/
theorem rootIndex_inside (hknown : p.fusion.KnownExtents v e) (hpasses : it.Passes) :
    ∀ a ∈ (p.fusion.view v).domain.root, Inside e it.rootIndex a := by
  intro a ha
  have hmem : a ∈ p.fusion.axesOf v := List.mem_append_left _ ha
  rw [Inside, it.rootIndex_eq ha]
  split
  case isTrue hbroad =>
      rw [(hp.plain.root v a ha).extent_eq_one hbroad (it.sized a hmem)]
      exact ⟨Int.le_refl 0, Int.zero_lt_one⟩
  case isFalse hbroad =>
      by_cases hexact : p.isExactRoot v a = true
      · exact it.inside_of_isExactRoot hp hsizes hknown ha hexact
      · refine ⟨(it.traced hp hsizes).2 a hmem, (it.passes_iff hp).1 hpasses a ?_⟩
        exact List.mem_filter.2 ⟨ha, by simp [hbroad, hexact]⟩

/-- The iteration that carrying root indices forward leads to: it stays inside, passes the guard and
touches the element with these indices. -/
theorem exists_inside (env : Scalar.Env) (hsized : p.fusion.Sized env (p.fusion.axesOf v) e)
    (hroots : ∀ a ∈ (p.fusion.view v).domain.root, Valued env roots r a ∧ Inside e r a) :
    ∃ it : Iteration p v e, it.Passes ∧ (∀ a ∈ p.fusion.axesOf v, Inside e it.index a) ∧
      ∀ a ∈ (p.fusion.view v).domain.root, it.index a = r a := by
  have hb := hp.cuts.history hp.sound v
  obtain ⟨hreach, htraced, hpoint⟩ := carriedForth_reaches hp.sound hb hsizes hsized hroots
  have hval := carried_valued hp.sound hb hsizes (fun a _ => hp.own a) hsized htraced
    (fun a ha => ⟨(hreach a ha).inside, (hreach a ha).fits⟩)
    fun a ha => (hreach a (hb.leaf_mem_axes ha)).valued
  have heq := fun a ha => (hval a ha).pointOf_eq
  have hinside : ∀ a ∈ p.fusion.axesOf v, Inside e (pointOf env (p.carried v
      (carriedForth p.fusion (p.fusion.history v) roots))) a := by
    intro a ha
    rw [Inside, heq a ha]
    exact (hreach a ha).inside
  refine ⟨⟨env, carriedForth p.fusion (p.fusion.history v) roots, hsized, fun a ha => ?_,
    fun a ha => hinside a (hb.leaf_mem_axes ha)⟩, ?_, hinside, fun a ha => ?_⟩
  · obtain ⟨s, hs, hx⟩ := hval a ha
    exact valued_pointOf hs hx
  · refine (passes_iff hp _).2 fun a ha => (hinside a ?_).2
    exact List.mem_append_left _ (List.mem_filter.1 ha).1
  · exact (heq a (List.mem_append_left _ ha)).trans (hpoint a ha)

end Points
end Iteration

/-! ## No element is visited twice -/

section Visiting

variable (hp : p.Standalone) (hsizes : p.fusion.Sizes v e)

include hp hsizes

theorem visitsOnce_of_staysInside (h : p.StaysInside v e) : p.VisitsOnce v e := by
  intro it it' hpasses hpasses' hroots
  have hb := hp.cuts.history hp.sound v
  have hroot : ∀ a ∈ (p.fusion.view v).domain.root, it.index a = it'.index a := by
    intro a ha
    have hmem : a ∈ p.fusion.axesOf v := List.mem_append_left _ ha
    by_cases hbroad : (p.fusion.axis a).isBroadcast = true
    · have hone := (hp.plain.root v a ha).extent_eq_one hbroad (it.sized a hmem)
      have hin := h it hpasses a hmem
      have hin' := h it' hpasses' a hmem
      unfold Inside at hin hin'
      omega
    · have heq := hroots a ha
      rwa [it.rootIndex_eq ha, it'.rootIndex_eq ha, if_neg hbroad, if_neg hbroad] at heq
  have hall := hb.eq_of_roots hp.sound (it.traced hp hsizes).1 (it'.traced hp hsizes).1
    (fun a ha => ⟨h it hpasses a ha, h it' hpasses' a ha⟩) hroot
  exact fun a ha => hall a (hb.leaf_mem_axes ha)

theorem staysInside_of_visitsOnce (hknown : p.fusion.KnownExtents v e) (h : p.VisitsOnce v e) :
    p.StaysInside v e := by
  intro it hpasses
  have hb := hp.cuts.history hp.sound v
  have hroots : ∀ a ∈ (p.fusion.view v).domain.root,
      Valued it.env (p.backward v it.leaves) it.rootIndex a ∧ Inside e it.rootIndex a := by
    intro a ha
    refine ⟨?_, it.rootIndex_inside hp hsizes hknown hpasses a ha⟩
    have hget := backward_get? p v it.leaves a
    split at hget
    · exact valued_pointOf (n := 0) hget rfl
    · obtain ⟨s, hs, hval⟩ := it.valued a (List.mem_append_left _ ha)
      exact valued_pointOf (hget.trans hs) hval
  -- the iteration that touches the same element from inside is the iteration itself
  obtain ⟨it', hpasses', hinside, hindex⟩ :=
    Iteration.exists_inside hp hsizes it.env it.sized hroots
  have hleaf := h it it' hpasses hpasses' fun a ha => by
    rw [it'.rootIndex_eq ha, hindex a ha, it.rootIndex_eq ha]
    split <;> rfl
  have hall := hb.eq_of_leaves hp.sound (it.traced hp hsizes).1 (it'.traced hp hsizes).1 hleaf
  intro a ha
  rw [Inside, hall a ha]
  exact hinside a ha

theorem staysInside_of_paddingCaught (h : p.PaddingCaught v e) : p.StaysInside v e := by
  intro it hpasses
  refine it.inside_of_padded hp hsizes fun t ht a ha => ?_
  exact it.inside_of_caught hp hsizes hpasses a (h t ht a ha)

end Visiting

end LoopPlan

/-! ## Fusions that split, merge and reorder -/

namespace Fusion

open LoopPlan

variable {calls : List Call} {f : Fusion} {v : ValueId} {e : AxisId → Int}

/-- Calls that only build, split, merge and reorder lead to a fusion with loop groups that inlines
nothing. -/
theorem exists_standalone (hcalls : ∀ c ∈ calls, c.isLeafwise = true)
    (h : applyAll Schedule.replay calls {} = some f) :
    ∃ groups, LoopGroups.build f = .ok groups ∧ LoopPlan.Standalone ⟨f, groups⟩ := by
  obtain ⟨hf, hc, hp⟩ := applyAll_leafwise hcalls h
  obtain ⟨groups, hgroups, hconcrete⟩ := LoopGroups.build_plain hp
  refine ⟨groups, hgroups, ⟨hf, hc, hp, fun a => ?_⟩⟩
  unfold concreteExtent
  rw [hconcrete a]

/-- No element is lost: root indices carried forward stay inside the extents of all leaves, and any
leaf indices of these values lead back to them and pass the guard. -/
theorem everyElement_reached (hcalls : ∀ c ∈ calls, c.isLeafwise = true)
    (h : applyAll Schedule.replay calls {} = some f) (hsizes : f.Sizes v e) :
    ∃ groups, LoopGroups.build f = .ok groups ∧
      ∀ (env : Scalar.Env) (roots : AxisIndices) (r : AxisId → Int), f.Sized env (f.axesOf v) e →
        (∀ a ∈ (f.view v).domain.root, Valued env roots r a ∧ Inside e r a) →
          ∃ x : AxisId → Int,
            (∀ l ∈ f.leaf v, Valued env (producerLeaves ⟨f, groups⟩ v [] roots) x l ∧
              Inside e x l) ∧
            ∀ (env' : Scalar.Env) (leaves : AxisIndices), f.Sized env' (f.axesOf v) e →
              (∀ l ∈ f.leaf v, Valued env' leaves x l) →
                (∀ a ∈ (f.view v).domain.root,
                  Valued env' (backward ⟨f, groups⟩ v leaves) r a) ∧
                (bounds ⟨f, groups⟩ v (backward ⟨f, groups⟩ v leaves) true).evaluate env' =
                  some (.bool true) := by
  obtain ⟨groups, hgroups, hp⟩ := exists_standalone hcalls h
  have hb := hp.cuts.history hp.sound v
  refine ⟨groups, hgroups, fun env roots r hsized hroots => ?_⟩
  obtain ⟨hreach, htraced, hpoint⟩ := carriedForth_reaches hp.sound hb hsizes hsized hroots
  rw [producerLeaves_eq (hp.plain.rfactor v) fun _ _ => rfl]
  refine ⟨pointOf env (carriedForth f (f.history v) roots), fun l hl => ?_,
    fun env' leaves hsized' hleaves => ?_⟩
  · exact ⟨(hreach l (hb.leaf_mem_axes hl)).valued, (hreach l (hb.leaf_mem_axes hl)).inside⟩
  have hval := carried_valued hp.sound hb hsizes (fun a _ => hp.own a) hsized' htraced
    (fun a ha => ⟨(hreach a ha).inside, (hreach a ha).fits⟩) hleaves
  have hback : ∀ a ∈ (f.view v).domain.root, Valued env' (backward ⟨f, groups⟩ v leaves) r a := by
    intro a ha
    have hget := backward_get? ⟨f, groups⟩ v leaves a
    by_cases hbroad : (f.axis a).isBroadcast = true
    · -- a broadcast has one element, so its index was zero to begin with
      have hone := (hp.plain.root v a ha).extent_eq_one hbroad
        (hsized a (List.mem_append_left _ ha))
      have hzero : r a = 0 := by
        have hin := (hroots a ha).2
        unfold Inside at hin
        omega
      rw [if_pos ⟨ha, hbroad⟩] at hget
      exact ⟨_, hget, by rw [hzero]; rfl⟩
    · rw [if_neg fun hc => hbroad hc.2] at hget
      obtain ⟨s, hs, hx⟩ := hval a (List.mem_append_left _ ha)
      exact ⟨s, hget.trans hs, by rw [hx, hpoint a ha]⟩
  refine ⟨hback, ?_⟩
  refine (bounds_iff hp.plain (fun a ha => hsized' a (List.mem_append_left _ ha))
    fun a ha => hback a (List.mem_filter.1 ha).1).2 fun a ha => ?_
  exact (hroots a (List.mem_filter.1 ha).1).2.2

/-- A matrix copied through one loop over both axes, in blocks of four, the last one padded. -/
def blockedCopy : List Call :=
  [.tensor [5, 6] [true, true] .float, .input ⟨0⟩, .unary .neg (.value ⟨0⟩), .output ⟨7⟩,
    .merge ⟨7⟩ 0 1, .split ⟨7⟩ 0 (.const 4) false, .reorder ⟨7⟩ [(0, 1)]]

/-- The indices three and five of the two root axes. -/
def blockedCopyRoots : AxisIndices :=
  ⟨[(⟨2⟩, .int 3), (⟨3⟩, .int 5)]⟩

theorem blockedCopy_reached :
    ∃ f groups, applyAll Schedule.replay blockedCopy {} = some f ∧
      LoopGroups.build f = .ok groups ∧ ∃ x,
        (∀ l ∈ f.leaf ⟨7⟩,
          Valued {} (producerLeaves ⟨f, groups⟩ ⟨7⟩ [] blockedCopyRoots) x l ∧
            Inside (f.extentsAt {}) x l) ∧
        (∀ a ∈ (f.view ⟨7⟩).domain.root, Valued {} (backward ⟨f, groups⟩ ⟨7⟩
          (producerLeaves ⟨f, groups⟩ ⟨7⟩ [] blockedCopyRoots)) (pointOf {} blockedCopyRoots) a) ∧
        (bounds ⟨f, groups⟩ ⟨7⟩ (backward ⟨f, groups⟩ ⟨7⟩
          (producerLeaves ⟨f, groups⟩ ⟨7⟩ [] blockedCopyRoots)) true).evaluate {} =
            some (.bool true) := by
  have hrun : ((applyAll Schedule.replay blockedCopy {}).any fun f =>
      decide (f.Sizes ⟨7⟩ (f.extentsAt {}) ∧ f.Sized {} (f.axesOf ⟨7⟩) (f.extentsAt {}) ∧
        ∀ a ∈ (f.view ⟨7⟩).domain.root, Valued {} blockedCopyRoots (pointOf {} blockedCopyRoots) a ∧
          Inside (f.extentsAt {}) (pointOf {} blockedCopyRoots) a)) = true := by
    decide +kernel
  obtain ⟨f, hf, hchecks⟩ := (Option.any_eq_true _ _).1 hrun
  obtain ⟨hsizes, hsized, hroots⟩ := of_decide_eq_true hchecks
  obtain ⟨groups, hgroups, hall⟩ := everyElement_reached (by decide) hf hsizes
  obtain ⟨x, hleaves, hback⟩ := hall {} blockedCopyRoots _ hsized hroots
  exact ⟨f, groups, hf, hgroups, x, hleaves, hback {} _ hsized fun l hl => (hleaves l hl).1⟩

/-- Both axes of a matrix split by `2 ^ 16`, a 32-bit number, and the inner halves merged: the
extent of the merged axis wraps around to zero. -/
def wrappedMerge : List Call :=
  [.tensor [2, 3] [true, true] .float, .input ⟨0⟩, .unary .neg (.value ⟨0⟩), .output ⟨7⟩,
    .constantTyped (.int 65536) .int32, .split ⟨7⟩ 0 (.value ⟨8⟩) true,
    .split ⟨7⟩ 2 (.value ⟨8⟩) true, .merge ⟨7⟩ 1 3]

/-- The first element of a matrix. -/
def firstElement : AxisIndices :=
  ⟨[(⟨2⟩, .int 0), (⟨3⟩, .int 0)]⟩

theorem wrappedMerge_not_reached :
    ∃ f groups, (∀ c ∈ wrappedMerge, c.isLeafwise = true) ∧
      applyAll Schedule.replay wrappedMerge {} = some f ∧ LoopGroups.build f = .ok groups ∧
      f.Sized {} (f.axesOf ⟨7⟩) (f.extentsAt {}) ∧
      (∀ a ∈ f.axesOf ⟨7⟩, a ∉ f.leaf ⟨7⟩ → 0 < f.extentsAt {} a) ∧
      (∀ a ∈ (f.view ⟨7⟩).domain.root, Inside (f.extentsAt {}) (pointOf {} firstElement) a) ∧
      ∃ l ∈ f.leaf ⟨7⟩, ¬ Inside (f.extentsAt {})
        (pointOf {} (producerLeaves ⟨f, groups⟩ ⟨7⟩ [] firstElement)) l := by
  have hrun : ((applyAll Schedule.replay wrappedMerge {}).any fun f =>
      (LoopGroups.build f).toOption.any fun groups =>
        decide (f.Sized {} (f.axesOf ⟨7⟩) (f.extentsAt {}) ∧
          (∀ a ∈ f.axesOf ⟨7⟩, a ∉ f.leaf ⟨7⟩ → 0 < f.extentsAt {} a) ∧
          (∀ a ∈ (f.view ⟨7⟩).domain.root, Inside (f.extentsAt {}) (pointOf {} firstElement) a) ∧
          ∃ l ∈ f.leaf ⟨7⟩, ¬ Inside (f.extentsAt {})
            (pointOf {} (producerLeaves ⟨f, groups⟩ ⟨7⟩ [] firstElement)) l)) = true := by
    decide +kernel
  obtain ⟨f, hf, hgroups⟩ := (Option.any_eq_true _ _).1 hrun
  obtain ⟨groups, hgroups, hchecks⟩ := (Option.any_eq_true _ _).1 hgroups
  exact ⟨f, groups, by decide, hf, Results.ok_of_toOption hgroups, of_decide_eq_true hchecks⟩

/-- No element is visited twice if and only if all iterations that pass the guard stay inside, and
so if the guard catches all padding. -/
theorem visitsOnce_iff (hcalls : ∀ c ∈ calls, c.isLeafwise = true)
    (h : applyAll Schedule.replay calls {} = some f) (hsizes : f.Sizes v e)
    (hknown : f.KnownExtents v e) :
    ∃ groups, LoopGroups.build f = .ok groups ∧
      (VisitsOnce ⟨f, groups⟩ v e ↔ StaysInside ⟨f, groups⟩ v e) ∧
      (PaddingCaught ⟨f, groups⟩ v e → VisitsOnce ⟨f, groups⟩ v e) := by
  obtain ⟨groups, hgroups, hp⟩ := exists_standalone hcalls h
  refine ⟨groups, hgroups, ⟨staysInside_of_visitsOnce hp hsizes hknown,
    visitsOnce_of_staysInside hp hsizes⟩, fun hpad => ?_⟩
  exact visitsOnce_of_staysInside hp hsizes (staysInside_of_paddingCaught hp hsizes hpad)

/-- A sum over twenty elements in blocks of four, the blocks in groups of three. -/
def blockedSum : List Call :=
  [.tensor [20] [true] .float, .input ⟨0⟩, .reduce .add ⟨0⟩ [0], .output ⟨4⟩,
    .split ⟨4⟩ 0 (.const 4) true, .split ⟨4⟩ 0 (.const 3) true]

theorem blockedSum_visitsOnce :
    ∃ f groups, applyAll Schedule.replay blockedSum {} = some f ∧
      LoopGroups.build f = .ok groups ∧ VisitsOnce ⟨f, groups⟩ ⟨4⟩ (f.extentsAt {}) := by
  have hrun : ((applyAll Schedule.replay blockedSum {}).any fun f =>
      decide (f.Sizes ⟨4⟩ (f.extentsAt {}) ∧ f.KnownExtents ⟨4⟩ (f.extentsAt {})) &&
        (LoopGroups.build f).toOption.any fun groups =>
          decide (PaddingCaught ⟨f, groups⟩ ⟨4⟩ (f.extentsAt {}))) = true := by
    decide +kernel
  obtain ⟨f, hf, hchecks⟩ := (Option.any_eq_true _ _).1 hrun
  simp only [Bool.and_eq_true, decide_eq_true_eq] at hchecks
  obtain ⟨⟨hsizes, hknown⟩, hpad⟩ := hchecks
  obtain ⟨groups, hgroups, -, honce⟩ := visitsOnce_iff (by decide) hf hsizes hknown
  rw [hgroups] at hpad
  exact ⟨f, groups, hf, hgroups, honce (by simpa [Except.toOption] using hpad)⟩

/-- A sum over eight elements in blocks of four, each block in steps of three: the last step of a
block runs into the next block. -/
def steppedSum : List Call :=
  [.tensor [8] [true] .float, .input ⟨0⟩, .reduce .add ⟨0⟩ [0], .output ⟨4⟩,
    .split ⟨4⟩ 0 (.const 4) true, .split ⟨4⟩ 1 (.const 3) true]

/-- Element four as the fifth of the first block. -/
def fourOverrun : AxisIndices :=
  ⟨[(⟨2⟩, .int 0), (⟨4⟩, .int 1), (⟨5⟩, .int 1)]⟩

/-- Element four as the first of the second block. -/
def fourInside : AxisIndices :=
  ⟨[(⟨2⟩, .int 1), (⟨4⟩, .int 0), (⟨5⟩, .int 0)]⟩

theorem steppedSum_not_visitsOnce :
    ∃ f groups, (∀ c ∈ steppedSum, c.isLeafwise = true) ∧
      applyAll Schedule.replay steppedSum {} = some f ∧ LoopGroups.build f = .ok groups ∧
      f.Sizes ⟨4⟩ (f.extentsAt {}) ∧ ¬ VisitsOnce ⟨f, groups⟩ ⟨4⟩ (f.extentsAt {}) := by
  have hrun : ((applyAll Schedule.replay steppedSum {}).any fun f =>
      (LoopGroups.build f).toOption.any fun groups =>
        let p : LoopPlan := ⟨f, groups⟩
        decide (f.Sizes ⟨4⟩ (f.extentsAt {}) ∧ f.Sized {} (f.axesOf ⟨4⟩) (f.extentsAt {}) ∧
          (∀ leaves ∈ [fourOverrun, fourInside],
            (∀ a ∈ f.axesOf ⟨4⟩,
              Valued {} (p.carried ⟨4⟩ leaves) (pointOf {} (p.carried ⟨4⟩ leaves)) a) ∧
            (∀ a ∈ f.leaf ⟨4⟩, Inside (f.extentsAt {}) (pointOf {} (p.carried ⟨4⟩ leaves)) a) ∧
            (p.bounds ⟨4⟩ (p.backward ⟨4⟩ leaves) true).evaluate {} = some (.bool true)) ∧
          (∀ a ∈ (f.view ⟨4⟩).domain.root, pointOf {} (p.backward ⟨4⟩ fourOverrun) a =
            pointOf {} (p.backward ⟨4⟩ fourInside) a) ∧
          ∃ a ∈ f.leaf ⟨4⟩, pointOf {} (p.carried ⟨4⟩ fourOverrun) a ≠
            pointOf {} (p.carried ⟨4⟩ fourInside) a)) = true := by
    decide +kernel
  obtain ⟨f, hf, hgroups⟩ := (Option.any_eq_true _ _).1 hrun
  obtain ⟨groups, hgroups, hchecks⟩ := (Option.any_eq_true _ _).1 hgroups
  obtain ⟨hsizes, hsized, hiters, hroots, a, ha, hne⟩ := of_decide_eq_true hchecks
  obtain ⟨hval, hin, hpasses⟩ := hiters fourOverrun (by simp)
  obtain ⟨hval', hin', hpasses'⟩ := hiters fourInside (by simp)
  refine ⟨f, groups, by decide, hf, Results.ok_of_toOption hgroups, hsizes, fun honce => hne ?_⟩
  exact honce ⟨{}, fourOverrun, hsized, hval, hin⟩ ⟨{}, fourInside, hsized, hval', hin'⟩
    hpasses hpasses' hroots a ha

end Fusion
end FusionCompiler
