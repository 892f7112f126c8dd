import FusionCompiler.Proofs.Lower.Hoisting
import FusionCompiler.Proofs.Lower.SharedLoops

/-!
# Indices of enclosing loops

The loop of a leaf runs over the extent of its group, or is spread over the
threads of the launch.  A launch type that binds loops of one extent only is
exactly as wide as these, and nothing is checked.  A type that binds loops of
several extents is as wide as the widest one, so an index is compared with the
extent of the loop at hand.

Main results:

- Theorem `LoopPlan.Launched.evaluate_concreteExtent`: a type that binds loops of
  one extent only is as wide as each of these loops.
- Theorem `LoopPlan.leafIndex_below`: the index of a leaf is inside its loop or
  inside the launch.
- Theorem `LoopPlan.leafIndex_inside`: where the bounds on launch indices hold, it
  is inside the extent of the leaf.
-/

namespace FusionCompiler

open Fusion Kernel

namespace LoopPlan

variable {p : LoopPlan} {v : ValueId} {e : AxisId → Int} {env : Scalar.Env}
  {width : ParallelType → Int} {frames : List LoopFrame} {a : AxisId} {s : Scalar}

/-! ## The launch -/

/-- The launch indices of a thread are inside the launch, which is as wide as the loops bound to it
where these have one extent. -/
structure Launched (p : LoopPlan) (env : Scalar.Env) (width : ParallelType → Int) : Prop where
  index : ∀ t : ParallelType, t.isLaunch = true →
    ∃ i, (Scalar.launchIndex t).evaluate env = some (.int i) ∧ 0 ≤ i ∧ i < width t
  exact : ∀ t s, p.launchExtents.get? t = some [s] → s.evaluate env = some (.int (width t))

theorem launchExtents_get? {t : ParallelType} {extents : List Scalar}
    (h : p.launchExtents.get? t = some extents) : extents = p.launchExtentsOf t := by
  obtain ⟨before, after, heq, -⟩ := List.lookup_eq_some_iff.1 h
  have hmem : (t, extents) ∈ p.launchExtents.entries := by simp [heq]
  obtain ⟨t', -, heq⟩ := List.mem_map.1 (List.mem_filter.1 hmem).1
  cases heq
  rfl

/-- The trip count of every loop that is bound to a launch type is among the extents of the type. -/
theorem mem_launchExtentsOf {g : LoopGroup} (hg : g ∈ p.groups.groups)
    (hiter : (p.fusion.axis g.concrete).isBroadcast = false) :
    ∃ s ∈ p.launchExtentsOf g.parallel,
      p.fusion.ownExtent g.concrete = s ∨ (p.fusion.ownExtent g.concrete == s) = true := by
  have hadd : ∀ l : List Scalar, ∀ s, (∀ s' ∈ l, s' ∈ addNew l s) ∧
      ∃ s' ∈ addNew l s, s = s' ∨ (s == s') = true := by
    intro l s
    unfold addNew
    split
    case isTrue hold =>
        obtain ⟨s', hs', hbeq⟩ := List.contains_iff_exists_mem_beq.1 hold
        exact ⟨fun _ h => h, s', hs', .inr hbeq⟩
    case isFalse =>
        exact ⟨fun _ h => List.mem_append_left _ h, s, List.mem_append_right _ List.mem_cons_self,
          .inl rfl⟩
  unfold launchExtentsOf
  refine (Results.foldl_establishes (R := fun (l l' : List Scalar) => ∀ s ∈ l, s ∈ l')
    (Q := fun s (l : List Scalar) => ∃ s' ∈ l, s = s' ∨ (s == s') = true) _ _ (fun _ _ h => h)
    (fun _ _ _ h h' s hs => h' s (h s hs))
    (fun _ _ _ h hsub => h.imp fun s' hs => ⟨hsub s' hs.1, hs.2⟩) hadd).2 _ ?_
  refine List.mem_map.2 ⟨g, List.mem_filter.2 ⟨hg, ?_⟩, rfl⟩
  simp [hiter]

/-- A launch type that binds loops of one extent only is as wide as each of these loops. -/
theorem Launched.evaluate_concreteExtent (h : p.Launched env width)
    (hlaunch : (p.groups.parallel a).isLaunch = true)
    (hiter : p.groups.isBroadcast p.fusion a = false)
    (hexact : p.launchExtents.isExact (p.groups.parallel a) = true)
    (hfree : (p.concreteExtent a).floatFree = true) :
    (p.concreteExtent a).evaluate env = some (.int (width (p.groups.parallel a))) := by
  obtain ⟨g, hget⟩ : ∃ g, p.groups.get? a = some g := by
    refine Option.ne_none_iff_exists'.1 fun hnone => ?_
    rw [LoopGroups.parallel, hnone] at hlaunch
    cases hlaunch
  have hparallel : p.groups.parallel a = g.parallel := by simp [LoopGroups.parallel, hget]
  have hconcrete : p.groups.concrete a = g.concrete := by simp [LoopGroups.concrete, hget]
  unfold LaunchExtents.isExact at hexact
  split at hexact
  case h_2 => cases hexact
  case h_1 s hs =>
      have hextents := launchExtents_get? hs
      rw [hparallel] at hextents
      unfold LoopGroups.isBroadcast at hiter
      rw [hconcrete] at hiter
      obtain ⟨s', hs', heq⟩ := mem_launchExtentsOf (List.mem_of_find?_eq_some hget) hiter
      rw [← hextents, List.mem_singleton] at hs'
      subst hs'
      have hsame : p.concreteExtent a = s' := by
        unfold concreteExtent at hfree ⊢
        rw [hconcrete] at hfree ⊢
        rcases heq with heq | heq
        · exact heq
        · exact Scalar.eq_of_beq_floatFree (.inl hfree) heq
      rw [hsame]
      exact h.exact _ _ hs

/-- Bounds on launch indices that hold compare the index of every iterated leaf, unless its launch
type is exact. -/
theorem lt_of_launchBounds (withReductions : Bool)
    (h : (p.launchBounds p.launchExtents v withReductions).evaluate env = some (.bool true))
    (ha : a ∈ p.fusion.leaf v) (hkind : (p.fusion.axis a).kind = .iteration)
    (hlaunch : (p.groups.parallel a).isLaunch = true)
    (hexact : p.launchExtents.isExact (p.groups.parallel a) = false) :
    ((Scalar.launchIndex (p.groups.parallel a)).lt (p.concreteExtent a)).evaluate env =
      some (.bool true) := by
  unfold launchBounds at h
  refine (Scalar.evaluate_all_iff (fun t ht => ?_) env).1 h _ ?_
  · obtain ⟨b, -, ht⟩ := List.mem_filterMap.1 ht
    dsimp only at ht
    split at ht
    · cases ht
    · cases ht
      exact .lt _ _
  · refine List.mem_filterMap.2 ⟨a, ha, ?_⟩
    dsimp only
    rw [if_neg]
    simp [Axis.isBroadcast, Axis.isReduction, hkind, hlaunch, hexact]

/-! ## Loops -/

/-- The index of an enclosing loop stands still at zero, is inside the loop, or is that of the
launch type its group is bound to. -/
inductive Serves (p : LoopPlan) (env : Scalar.Env) : LoopFrame → Prop where
  | zero {group : AxisId} {extent : Scalar} {l : Option LoopId} :
      Serves p env ⟨group, .zero, extent, l⟩
  | launch {group : AxisId} {extent : Scalar} {l : Option LoopId}
      (hlaunch : (p.groups.parallel group).isLaunch = true)
      (hiter : p.groups.isBroadcast p.fusion group = false) :
      Serves p env ⟨group, .launchIndex (p.groups.parallel group), extent, l⟩
  | loop {group : AxisId} {index extent : Scalar} {l : Option LoopId} {i n : Int}
      (hserial : (p.groups.parallel group).isLaunch = false)
      (hindex : index.evaluate env = some (.int i))
      (hextent : (p.concreteExtent group).evaluate env = some (.int n)) (h₀ : 0 ≤ i) (hlt : i < n) :
      Serves p env ⟨group, index, extent, l⟩

/-- What the index of a leaf is below: the width of the launch type it is bound to, or its extent. -/
def limit (p : LoopPlan) (e : AxisId → Int) (width : ParallelType → Int) (a : AxisId) : Int :=
  if (p.groups.parallel a).isLaunch then width (p.groups.parallel a) else e a

section Leaves

variable {f : Fusion} (hbuild : LoopGroups.build f = .ok p.groups) (hlaunched : p.Launched env width)
  (hserves : ∀ fr ∈ frames, p.Serves env fr) (hown : p.concreteExtent a = p.fusion.ownExtent a)
  (hsized : (p.fusion.ownExtent a).evaluate env = some (.int (e a))) (hpos : 0 < e a)
  (h : p.leafIndex v frames a = .ok s)

include hbuild hlaunched hserves hown hsized hpos h

/-- The index of a leaf is inside its loop, or that of the launch type it is bound to. -/
theorem leafIndex_below : ∃ i, s.evaluate env = some (.int i) ∧ 0 ≤ i ∧ i < p.limit e width a ∧
    (i < e a ∨ s = .launchIndex (p.groups.parallel a) ∧ (p.groups.parallel a).isLaunch = true ∧
      p.groups.isBroadcast p.fusion a = false) := by
  have hparallel := LoopGroups.parallel_name hbuild a
  have hconcrete := LoopGroups.concrete_name hbuild a
  have hzero : ∃ i, Scalar.zero.evaluate env = some (.int i) ∧ 0 ≤ i ∧ i < p.limit e width a ∧
      i < e a := by
    refine ⟨0, rfl, Int.le_refl 0, ?_, hpos⟩
    unfold limit
    split
    case isTrue hlaunch =>
        obtain ⟨i, -, h₀, hlt⟩ := hlaunched.index _ hlaunch
        exact Int.lt_of_le_of_lt h₀ hlt
    case isFalse => exact hpos
  rcases leafIndex_cases h with rfl | ⟨fr, hfr, hgroup, rfl⟩
  · obtain ⟨i, hi, h₀, hlimit, hlt⟩ := hzero
    exact ⟨i, hi, h₀, hlimit, .inl hlt⟩
  · cases hserves fr hfr with
    | zero =>
        obtain ⟨i, hi, h₀, hlimit, hlt⟩ := hzero
        exact ⟨i, hi, h₀, hlimit, .inl hlt⟩
    | @launch group extent l hlaunch hiter =>
        obtain rfl : group = p.groups.name a := hgroup
        unfold LoopGroups.isBroadcast at hiter
        rw [hconcrete] at hiter
        rw [hparallel] at hlaunch
        obtain ⟨i, hi, h₀, hlt⟩ := hlaunched.index _ hlaunch
        rw [limit, if_pos hlaunch, hparallel]
        exact ⟨i, hi, h₀, hlt, .inr ⟨rfl, hlaunch, hiter⟩⟩
    | @loop group index extent l i n hserial hindex hextent h₀ hlt =>
        obtain rfl : group = p.groups.name a := hgroup
        unfold concreteExtent at hextent hown
        rw [hconcrete, hown, hsized] at hextent
        cases hextent
        rw [limit, hparallel.symm, hserial]
        exact ⟨i, hindex, h₀, hlt, .inl hlt⟩

/-- Where the bounds on launch indices hold, the index of an iterated leaf is inside its extent. -/
theorem leafIndex_inside (withReductions : Bool)
    (hbounds : (p.launchBounds p.launchExtents v withReductions).evaluate env = some (.bool true))
    (ha : a ∈ p.fusion.leaf v) (hkind : (p.fusion.axis a).kind = .iteration)
    (hfree : (p.fusion.ownExtent a).floatFree = true) :
    ∃ i, s.evaluate env = some (.int i) ∧ 0 ≤ i ∧ i < e a := by
  obtain ⟨i, hi, h₀, hlimit, hlt | ⟨rfl, hlaunch, hiter⟩⟩ :=
    leafIndex_below hbuild hlaunched hserves hown hsized hpos h
  · exact ⟨i, hi, h₀, hlt⟩
  · refine ⟨i, hi, h₀, ?_⟩
    rw [← hown] at hsized hfree
    by_cases hexact : p.launchExtents.isExact (p.groups.parallel a) = true
    · have hwidth := hlaunched.evaluate_concreteExtent hlaunch hiter hexact hfree
      have hsame := Constant.int.inj (Option.some.inj (hsized.symm.trans hwidth))
      rwa [limit, if_pos hlaunch, ← hsame] at hlimit
    · exact Scalar.lt_of_evaluate hi hsized
        (lt_of_launchBounds withReductions hbounds ha hkind hlaunch (by simpa using hexact))

end Leaves
end LoopPlan
end FusionCompiler
