import FusionCompiler.Proofs.Host.LaunchSizes
import FusionCompiler.Proofs.Lower.LoopIndices
import FusionCompiler.Proofs.Lower.Promotion

/-!
# Loops and the launch

A launch type is recorded with the extents of all loop groups that it binds.  Not
every group is a loop: the axes of inputs have groups, and so do the axes that
leaves were split and merged from.  A binding stays on an axis that is no leaf any
more, and with it the extent of that axis stays among those of the launch.

Main results:

- Theorem `LoopGroups.commonBinding_bound`: what binds a group binds one of its
  members.
- Theorem `Lowered.launch_eq`: a kernel is launched with the extents of its plan.
- Theorem `Lowered.launchExtents_exact_iff`: the extents recorded for a launch type
  are those of the loops it binds and those of stale bindings; they are the former
  alone if and only if stale bindings add none.
-/

namespace FusionCompiler

open Fusion Kernel Results

/-! ## Groups and their members -/

namespace LoopGroups

open DisjointSets

variable {f : Fusion} {m : LoopGroups} {g : LoopGroup} {a : AxisId} {t : ParallelType}

/-- Axes have one binding: it is that of each of them that is not serial, and of some of them if it
is not serial itself. -/
theorem commonBinding_bound {name : AxisId} {members : List AxisId}
    (h : commonBinding f name members = .ok t) :
    (∀ a ∈ members, (f.axis a).parallel ≠ .serial → t = (f.axis a).parallel) ∧
      (t ≠ .serial → ∃ a ∈ members, (f.axis a).parallel = t) := by
  constructor
  · refine (foldlM_establishes (R := fun p q : ParallelType => p ≠ .serial → q = p)
      (Q := fun a q => (f.axis a).parallel ≠ .serial → q = (f.axis a).parallel)
      (fun _ _ => rfl) (fun _ _ _ hpq hqr hp => ?_) (fun a p q hp hpq ha => ?_) ?_ h).2
    · rw [hqr (hpq hp ▸ hp), hpq hp]
    · rw [hpq (hp ha ▸ ha), hp ha]
    · intro p q a hstep
      dsimp only at hstep
      split at hstep
      case isTrue hor =>
          cases hstep
          exact ⟨fun _ => rfl, fun ha => (hor.resolve_left ha).symm⟩
      case isFalse =>
          split at hstep
          · cases hstep
            exact ⟨fun hp => absurd ‹_› hp, fun _ => rfl⟩
          · cases hstep
  · refine foldlM_keeps (P := fun t => t ≠ .serial → ∃ a ∈ members, (f.axis a).parallel = t)
      (fun a ha p q hp hstep => ?_) (fun hne => absurd rfl hne) h
    dsimp only at hstep
    split at hstep
    · cases hstep
      exact hp
    · split at hstep
      · cases hstep
        exact fun _ => ⟨a, ha, rfl⟩
      · cases hstep

/-- A group is that of its name, and its binding is that of its members. -/
theorem mem_groups_cases (h : build f = .ok m) (hg : g ∈ m.groups) :
    g.name ∈ m.sets.names ∧ groupOf f m.sets g.name = .ok g ∧
      commonBinding f g.name g.members = .ok g.parallel := by
  obtain ⟨name, hname, hgroup⟩ := mem_mapM (build_cases h).2 hg
  obtain ⟨t, ht, heq⟩ := bind_eq_ok.1 hgroup
  cases heq
  exact ⟨hname, hgroup, ht⟩

/-- The members of a group are the grouped axes with its name. -/
theorem mem_members_iff (h : build f = .ok m) (hg : g ∈ m.groups) :
    a ∈ g.members ↔ m.sets.contains a = true ∧ m.name a = g.name := by
  obtain ⟨-, hgroup, -⟩ := mem_groups_cases h hg
  rw [(groupOf_cases hgroup).2.1, mem_membersOf_iff (build_joined h).1]
  rfl

/-- An axis is a member of its own group only. -/
theorem get?_of_mem (h : build f = .ok m) (hg : g ∈ m.groups) (ha : a ∈ g.members) :
    m.get? a = some g := by
  have hname := ((mem_members_iff h hg).1 ha).2
  obtain ⟨g', hget⟩ : ∃ g', m.get? a = some g' := by
    refine Option.ne_none_iff_exists'.1 fun hnone => ?_
    simpa [hname] using List.find?_eq_none.1 hnone g hg
  have hname' : g'.name = g.name := by
    rw [← hname]
    simpa using List.find?_some hget
  have hgroup' := (mem_groups_cases h (List.mem_of_find?_eq_some hget)).2.1
  rw [hname', (mem_groups_cases h hg).2.1] at hgroup'
  cases hgroup'
  exact hget

/-- The group of a grouped axis. -/
theorem exists_group (h : build f = .ok m) (ha : m.sets.contains a = true) :
    ∃ g ∈ m.groups, a ∈ g.members := by
  have hname : m.name a ∈ m.sets.names := by
    have hroot := (build_joined h).2.1 _ (contains_iff.1 ha)
    exact List.mem_map.2 ⟨_, List.mem_filter.2 ⟨hroot, by simp⟩, rfl⟩
  obtain ⟨g, hg, hgroup⟩ := exists_mem_mapM (build_cases h).2 hname
  exact ⟨g, hg, (mem_members_iff h hg).2 ⟨ha, (groupOf_cases hgroup).1.symm⟩⟩

/-- The axes that share a loop with a member of a group are its members. -/
theorem sameLoop_iff_mem {b : AxisId} (h : build f = .ok m) (hg : g ∈ m.groups)
    (ha : a ∈ g.members) : m.sameLoop a b = true ↔ b ∈ g.members := by
  obtain ⟨hgrouped, hname⟩ := (mem_members_iff h hg).1 ha
  rw [mem_members_iff h hg, ← hname]
  unfold sameLoop DisjointSets.same
  rw [Bool.or_eq_true, decide_eq_true_eq, decide_eq_true_eq]
  constructor
  · rintro (rfl | heq)
    · exact ⟨hgrouped, rfl⟩
    · refine ⟨?_, heq.symm⟩
      -- an axis that is not listed is no name either
      have hroot := (build_joined h).2.1 _ (contains_iff.1 hgrouped)
      by_contra hunknown
      have hfind : m.sets.find b = b := by
        unfold DisjointSets.contains at hunknown
        unfold DisjointSets.find
        rw [Option.not_isSome_iff_eq_none.1 hunknown, Option.getD_none]
      dsimp only at hroot
      rw [heq, hfind] at hroot
      exact hunknown (contains_iff.2 (mem_of_known hroot))
  · exact fun hb => .inr hb.2.symm

end LoopGroups

/-! ## What a plan records -/

namespace LoopPlan

variable {p : LoopPlan} {g : LoopGroup} {a : AxisId} {t : ParallelType} {s : Scalar}

/-- A group is a loop of the kernel if it has a leaf of a tensor that the kernel computes, and not
broadcasts alone. -/
structure IsLoop (p : LoopPlan) (g : LoopGroup) : Prop where
  mem : g ∈ p.groups.groups
  iterated : (p.fusion.axis g.concrete).isBroadcast = false
  leaf : ∃ e ∈ p.fusion.tensorExprs, ∃ v ∈ p.fusion.tensorOutputs e, ∃ a ∈ p.fusion.leaf v,
    a ∈ g.members

/-- The trip count of a loop that is bound to a launch type. -/
def LoopExtent (p : LoopPlan) (t : ParallelType) (s : Scalar) : Prop :=
  ∃ g, p.IsLoop g ∧ g.parallel = t ∧ p.fusion.ownExtent g.concrete = s

/-- A binding to a launch type is stale on an axis that shares its loop with no leaf of a tensor that
the kernel computes. -/
structure Stale (p : LoopPlan) (t : ParallelType) (a : AxisId) : Prop where
  grouped : p.groups.sets.contains a = true
  bound : (p.fusion.axis a).parallel = t
  iterated : p.groups.isBroadcast p.fusion a = false
  loopless : ∀ e ∈ p.fusion.tensorExprs, ∀ v ∈ p.fusion.tensorOutputs e, ∀ b ∈ p.fusion.leaf v,
    p.groups.sameLoop a b = false

/-- An extent that is recorded is that of a group. -/
theorem exists_group_of_mem_launchExtentsOf (h : s ∈ p.launchExtentsOf t) :
    ∃ g ∈ p.groups.groups, g.parallel = t ∧ (p.fusion.axis g.concrete).isBroadcast = false ∧
      p.fusion.ownExtent g.concrete = s := by
  have hadd : ∀ (l acc : List Scalar), s ∈ l.foldl addNew acc → s ∈ acc ∨ s ∈ l := by
    intro l
    induction l with
    | nil => exact fun acc h => .inl h
    | cons x l ih =>
        intro acc h
        rcases ih _ h with h | h
        · unfold addNew at h
          split at h
          · exact .inl h
          · exact (List.mem_append.1 h).imp_right fun h => by simp_all
        · exact .inr (List.mem_cons_of_mem x h)
  obtain ⟨g, hg, hs⟩ := List.mem_map.1 ((hadd _ _ h).resolve_left List.not_mem_nil)
  obtain ⟨hg, hbound⟩ := List.mem_filter.1 hg
  rw [Bool.and_eq_true, beq_iff_eq, Bool.not_eq_true'] at hbound
  exact ⟨g, hg, hbound.1, hbound.2, hs⟩

/-- A launch type is in use if it binds a group. -/
theorem launchExtents_get?_eq (ht : t.isLaunch = true) : p.launchExtents.get? t =
    if p.launchExtentsOf t = [] then none else some (p.launchExtentsOf t) := by
  have hlookup : ∀ l : List ParallelType,
      List.lookup t ((l.map fun t => (t, p.launchExtentsOf t)).filter fun x => !x.2.isEmpty) =
        if t ∈ l ∧ p.launchExtentsOf t ≠ [] then some (p.launchExtentsOf t) else none := by
    intro l
    induction l with
    | nil => rfl
    | cons u l ih =>
        by_cases hu : u = t
        · subst hu
          by_cases hempty : p.launchExtentsOf u = [] <;> simp [hempty, ih]
        · have hne : t ≠ u := fun h => hu h.symm
          by_cases hempty : p.launchExtentsOf u = [] <;>
            simp [hempty, ih, hne, List.lookup_cons, beq_false_of_ne hne]
  have hmem : t ∈ ParallelType.all.filter (·.isLaunch) := by
    refine List.mem_filter.2 ⟨?_, ht⟩
    cases t <;> decide
  unfold LaunchExtents.get? launchExtents
  dsimp only
  rw [hlookup]
  by_cases hempty : p.launchExtentsOf t = [] <;> simp [hempty, hmem]

section Groups

variable {f : Fusion} (hbuild : LoopGroups.build f = .ok p.groups)
  (haxis : ∀ a, p.fusion.axis a = f.axis a)

include hbuild haxis

/-- What is recorded for a launch type is the trip count of a loop or that of a stale binding. -/
theorem loopExtent_or_stale (ht : t.isLaunch = true) (h : s ∈ p.launchExtentsOf t) :
    p.LoopExtent t s ∨ ∃ a, p.Stale t a ∧ p.concreteExtent a = s := by
  obtain ⟨g, hg, rfl, hiter, rfl⟩ := exists_group_of_mem_launchExtentsOf h
  by_cases hleaf : ∃ e ∈ p.fusion.tensorExprs, ∃ v ∈ p.fusion.tensorOutputs e,
      ∃ a ∈ p.fusion.leaf v, a ∈ g.members
  · exact .inl ⟨g, ⟨hg, hiter, hleaf⟩, rfl, rfl⟩
  · have hserial : g.parallel ≠ .serial := by
      intro heq
      rw [heq] at ht
      cases ht
    obtain ⟨-, -, hbinding⟩ := LoopGroups.mem_groups_cases hbuild hg
    obtain ⟨a, ha, hbound⟩ := (LoopGroups.commonBinding_bound hbinding).2 hserial
    have hconcrete : p.groups.concrete a = g.concrete := by
      simp [LoopGroups.concrete, LoopGroups.get?_of_mem hbuild hg ha]
    refine .inr ⟨a, ⟨((LoopGroups.mem_members_iff hbuild hg).1 ha).1, ?_, ?_, ?_⟩, ?_⟩
    · rw [haxis, hbound]
    · rw [LoopGroups.isBroadcast, hconcrete, hiter]
    · intro e he v hv b hb
      rw [Bool.eq_false_iff]
      exact fun hsame => hleaf ⟨e, he, v, hv, b, hb,
        (LoopGroups.sameLoop_iff_mem hbuild hg ha).1 hsame⟩
    · rw [concreteExtent, hconcrete]

/-- The trip count of a stale binding is recorded. -/
theorem Stale.recorded (ht : t.isLaunch = true) (h : p.Stale t a) :
    ∃ s ∈ p.launchExtentsOf t,
      p.concreteExtent a = s ∨ (p.concreteExtent a == s) = true := by
  obtain ⟨g, hg, ha⟩ := LoopGroups.exists_group hbuild h.grouped
  have hconcrete : p.groups.concrete a = g.concrete := by
    simp [LoopGroups.concrete, LoopGroups.get?_of_mem hbuild hg ha]
  have hbound : g.parallel = t := by
    obtain ⟨-, -, hbinding⟩ := LoopGroups.mem_groups_cases hbuild hg
    rw [← h.bound, haxis]
    refine (LoopGroups.commonBinding_bound hbinding).1 a ha fun heq => ?_
    rw [← h.bound, haxis, heq] at ht
    cases ht
  have hiter := h.iterated
  rw [LoopGroups.isBroadcast, hconcrete] at hiter
  have hrecorded := mem_launchExtentsOf hg hiter
  rwa [hbound, ← hconcrete] at hrecorded

end Groups

instance (p : LoopPlan) (g : LoopGroup) : Decidable (p.IsLoop g) :=
  decidable_of_iff (g ∈ p.groups.groups ∧ (p.fusion.axis g.concrete).isBroadcast = false ∧
      ∃ e ∈ p.fusion.tensorExprs, ∃ v ∈ p.fusion.tensorOutputs e, ∃ a ∈ p.fusion.leaf v,
        a ∈ g.members)
    ⟨fun h => ⟨h.1, h.2.1, h.2.2⟩, fun h => ⟨h.mem, h.iterated, h.leaf⟩⟩

instance (p : LoopPlan) (t : ParallelType) (a : AxisId) : Decidable (p.Stale t a) :=
  decidable_of_iff (p.groups.sets.contains a = true ∧ (p.fusion.axis a).parallel = t ∧
      p.groups.isBroadcast p.fusion a = false ∧
      ∀ e ∈ p.fusion.tensorExprs, ∀ v ∈ p.fusion.tensorOutputs e, ∀ b ∈ p.fusion.leaf v,
        p.groups.sameLoop a b = false)
    ⟨fun h => ⟨h.1, h.2.1, h.2.2.1, h.2.2.2⟩, fun h => ⟨h.grouped, h.bound, h.iterated, h.loopless⟩⟩

end LoopPlan

/-! ## What a kernel is launched with -/

namespace Lowered

variable {f : Fusion} {l : Lowered} {t : ParallelType} {s : Scalar}

/-- The extents recorded for a launch type. -/
def launchExtents (l : Lowered) (t : ParallelType) : List Scalar :=
  (l.kernel.summary.launch.get? t).getD []

theorem Draft.cooperate_launch {d d' : Draft} {isBroadcast : Bool} {t : DataType} {values : Nat}
    {scope : Scope} {types : ParallelSet} (h : d.cooperate isBroadcast t values scope types = .ok d') :
    d'.summary.launch = d.summary.launch := by
  unfold Draft.cooperate at h
  dsimp only at h
  split at h
  · cases h
    rfl
  · cases h
    rfl
  · split at h
    · cases h
    · cases h
      dsimp only
      split <;> rfl

theorem Draft.add_launch {d d' : Draft} {o : Op} (h : d.add o = .ok d') :
    d'.summary.launch = d.summary.launch := by
  unfold Draft.add at h
  dsimp only at h
  split at h
  case h_2 =>
      cases h
      rfl
  case h_1 =>
      split at h
      · cases h
        split <;> rfl
      · rw [Draft.cooperate_launch h]
        split <;> rfl

/-- A kernel is launched with the extents of its plan. -/
theorem launch_eq (h : make f = .ok l) : l.kernel.summary.launch = l.plan.launchExtents := by
  obtain ⟨plan, -, h⟩ := bind_eq_ok.1 h
  obtain ⟨vectorized, -, h⟩ := bind_eq_ok.1 h
  obtain ⟨trees, -, h⟩ := bind_eq_ok.1 h
  obtain ⟨body, -, h⟩ := bind_eq_ok.1 h
  obtain ⟨draft, hdraft, h⟩ := bind_eq_ok.1 h
  cases h
  exact foldlM_keeps (P := fun d : Draft => d.summary.launch = plan.launchExtents)
    (fun o _ d d' hd hadd => (Draft.add_launch hadd).trans hd) rfl hdraft

theorem launch_get?_eq (h : make f = .ok l) (ht : t.isLaunch = true) :
    l.kernel.summary.launch.get? t = if l.launchExtents t = [] then none else
      some (l.launchExtents t) := by
  unfold launchExtents
  rw [launch_eq h, LoopPlan.launchExtents_get?_eq ht]
  split <;> simp_all

theorem launchExtents_eq (h : make f = .ok l) (ht : t.isLaunch = true) :
    l.launchExtents t = l.plan.launchExtentsOf t := by
  unfold launchExtents
  rw [launch_eq h, LoopPlan.launchExtents_get?_eq ht]
  split <;> simp_all

/-- The groups of a plan are those of the scheduled fusion, which has the same axes. -/
theorem plan_groups (h : make f = .ok l) : LoopGroups.build f = .ok l.plan.groups ∧
    ∀ a, l.plan.fusion.axis a = f.axis a := by
  obtain ⟨groups, hbuild, hplan, -, -⟩ := make_cases h
  refine ⟨?_, (plan_relocated h).graph.axis⟩
  rw [hplan]
  exact hbuild

/-- The trip count of a loop is recorded. -/
theorem recorded_of_loopExtent (h : make f = .ok l) (ht : t.isLaunch = true)
    (hs : l.plan.LoopExtent t s) : ∃ s' ∈ l.launchExtents t, s = s' ∨ (s == s') = true := by
  obtain ⟨g, hloop, rfl, rfl⟩ := hs
  rw [launchExtents_eq h ht]
  exact LoopPlan.mem_launchExtentsOf hloop.mem hloop.iterated

/-- A launch type for which nothing but its loops is recorded is as wide as the widest of them. -/
theorem exists_widest (h : make f = .ok l) (ht : t.isLaunch = true)
    (hexact : ∀ s, s ∈ l.launchExtents t ↔ l.plan.LoopExtent t s) {env : Scalar.Env} {n : Nat}
    (hn : Binding.launchSize l.kernel env none t = .ok n) :
    ∃ w, ((∃ s, l.plan.LoopExtent t s) → IsWidest env (l.plan.LoopExtent t) w) ∧
      ((¬ ∃ s, l.plan.LoopExtent t s) → w = 1) ∧ (n : Int) = w % Binding.launchModulus := by
  obtain ⟨w, hw, hn⟩ := Binding.launchSize_narrowed hn
  have hsame : l.plan.LoopExtent t = (· ∈ l.launchExtents t) :=
    funext fun s => propext (hexact s).symm
  rw [launch_get?_eq h ht] at hw
  rw [hsame]
  refine ⟨w, fun ⟨s, hs⟩ => ?_, fun hnone => ?_, hn⟩
  · rw [if_neg (List.ne_nil_of_mem hs)] at hw
    cases hw with
    | used hw => exact hw
  · have hempty : l.launchExtents t = [] :=
      List.eq_nil_iff_forall_not_mem.2 fun s hs => hnone ⟨s, hs⟩
    rw [if_pos hempty] at hw
    exact hw.unique .unused

/-- Every loop bound to a launch type is recorded for it, and what is recorded besides is the extent
of a stale binding.  Where the extents hold no floating-point literals, those of the loops alone are
recorded if and only if stale bindings add none, and then a launch without overrides is as wide as
the widest loop. -/
theorem launchExtents_exact_iff (h : make f = .ok l) (ht : t.isLaunch = true) :
    (∀ s, l.plan.LoopExtent t s → ∃ s' ∈ l.launchExtents t, s = s' ∨ (s == s') = true) ∧
      (∀ s ∈ l.launchExtents t, l.plan.LoopExtent t s ∨
        ∃ a, l.plan.Stale t a ∧ l.plan.concreteExtent a = s) ∧
      ((∀ s ∈ l.launchExtents t, s.floatFree = true) →
        ((∀ s, s ∈ l.launchExtents t ↔ l.plan.LoopExtent t s) ↔
          ∀ a, l.plan.Stale t a → l.plan.LoopExtent t (l.plan.concreteExtent a))) ∧
      ((∀ s, s ∈ l.launchExtents t ↔ l.plan.LoopExtent t s) → ∀ env n,
        Binding.launchSize l.kernel env none t = .ok n → ∃ w,
          ((∃ s, l.plan.LoopExtent t s) → IsWidest env (l.plan.LoopExtent t) w) ∧
          ((¬ ∃ s, l.plan.LoopExtent t s) → w = 1) ∧ (n : Int) = w % Binding.launchModulus) := by
  obtain ⟨hbuild, haxis⟩ := plan_groups h
  have honly : ∀ s ∈ l.launchExtents t, l.plan.LoopExtent t s ∨
      ∃ a, l.plan.Stale t a ∧ l.plan.concreteExtent a = s := by
    rw [launchExtents_eq h ht]
    exact fun s => LoopPlan.loopExtent_or_stale hbuild haxis ht
  refine ⟨fun s => recorded_of_loopExtent h ht, honly, fun hfree => ?_,
    fun hexact env n => exists_widest h ht hexact⟩
  have heq : ∀ {s s'}, s' ∈ l.launchExtents t → s = s' ∨ (s == s') = true → s = s' :=
    fun hs' hor => hor.elim id (Scalar.eq_of_beq_floatFree (.inr (hfree _ hs')))
  constructor
  · intro hexact a ha
    obtain ⟨s, hs, hor⟩ := ha.recorded hbuild haxis ht
    rw [← launchExtents_eq h ht] at hs
    rw [heq hs hor]
    exact (hexact s).1 hs
  · intro hstale s
    constructor
    · intro hs
      rcases honly s hs with hloop | ⟨a, ha, rfl⟩
      · exact hloop
      · exact hstale a ha
    · intro hs
      obtain ⟨s', hs', hor⟩ := recorded_of_loopExtent h ht hs
      rwa [heq hs' hor]

/-- A square matrix is negated.  Its rows are bound to the threads and then split in two, and the
columns are bound to the threads instead. -/
def reboundSquare : List Call :=
  [.tensor [4, 4] [true, true] .float, .input ⟨0⟩, .unary .neg (.value ⟨0⟩), .output ⟨7⟩,
    .parallelize ⟨7⟩ 0 .threadX, .split ⟨7⟩ 0 (.const 2) true, .parallelize ⟨7⟩ 2 .threadX]

/-- The binding of the rows is stale, but there are as many columns. -/
theorem reboundSquare_exact :
    ∃ l, make (attemptAll reboundSquare {}) = .ok l ∧ ParallelType.threadX.isLaunch = true ∧
      (∃ a, l.plan.Stale .threadX a) ∧ l.launchExtents .threadX ≠ [] ∧
      ∀ s, s ∈ l.launchExtents .threadX ↔ l.plan.LoopExtent .threadX s := by
  have hrun : (make (attemptAll reboundSquare {})).toOption.any (fun l =>
      decide ((∃ x ∈ l.plan.groups.sets.entries, l.plan.Stale .threadX x.1) ∧
        l.launchExtents .threadX ≠ [] ∧ (∀ s ∈ l.launchExtents .threadX, s.floatFree = true) ∧
        ∀ x ∈ l.plan.groups.sets.entries, l.plan.Stale .threadX x.1 →
          ∃ g ∈ l.plan.groups.groups, l.plan.IsLoop g ∧ g.parallel = .threadX ∧
            (l.plan.fusion.ownExtent g.concrete == l.plan.concreteExtent x.1) = true ∧
            (l.plan.concreteExtent x.1).floatFree = true)) = true := by
    decide +kernel
  obtain ⟨l, hl, hchecks⟩ := (Option.any_eq_true _ _).1 hrun
  obtain ⟨⟨x, -, hx⟩, hused, hfree, hstale⟩ := of_decide_eq_true hchecks
  have hmake := ok_of_toOption hl
  refine ⟨l, hmake, rfl, ⟨x.1, hx⟩, hused, ?_⟩
  refine ((launchExtents_exact_iff hmake rfl).2.2.1 hfree).2 fun a ha => ?_
  obtain ⟨g, -, hloop, hbound, heq, hlit⟩ := hstale _ (DisjointSets.contains_iff.1 ha.grouped) ha
  exact ⟨g, hloop, hbound, Scalar.eq_of_beq_floatFree (.inr hlit) heq⟩

/-- A vector is negated.  It is bound to the threads and then split into blocks of four. -/
def splitThreads : List Call :=
  [.tensor [8] [true] .float, .input ⟨0⟩, .unary .neg (.value ⟨0⟩), .output ⟨4⟩,
    .parallelize ⟨4⟩ 0 .threadX, .split ⟨4⟩ 0 (.const 4) true]

/-- Eight threads are launched although no loop is bound to the threads. -/
theorem splitThreads_too_wide :
    ∃ l, make (attemptAll splitThreads {}) = .ok l ∧
      (∃ s ∈ l.launchExtents .threadX, s.int? = some 8) ∧
      (¬ ∃ s, l.plan.LoopExtent .threadX s) ∧
      Binding.launchSize l.kernel {} none .threadX = .ok 8 := by
  have hrun : (make (attemptAll splitThreads {})).toOption.any (fun l =>
      decide ((∃ s ∈ l.launchExtents .threadX, s.int? = some 8) ∧
        (∀ g ∈ l.plan.groups.groups, g.parallel = .threadX → ¬ l.plan.IsLoop g) ∧
        (Binding.launchSize l.kernel {} none .threadX).toOption = some 8)) = true := by
    decide +kernel
  obtain ⟨l, hl, hchecks⟩ := (Option.any_eq_true _ _).1 hrun
  obtain ⟨hrecorded, hnone, hsize⟩ := of_decide_eq_true hchecks
  exact ⟨l, ok_of_toOption hl, hrecorded, fun ⟨_, g, hloop, hbound, _⟩ => hnone g hloop.mem hbound hloop,
    ok_of_toOption hsize⟩

end Lowered
end FusionCompiler
