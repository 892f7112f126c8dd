import FusionCompiler.Schedule.RootMap
import FusionCompiler.Proofs.DisjointSets
import FusionCompiler.Proofs.Fusion.Downstream
import FusionCompiler.Proofs.Outcome
import FusionCompiler.Proofs.Schedule.Inlining

/-!
# What a root map knows

A root map takes in the pairs of all live expressions and then the reduction axes
of all tensors.  Its classes relate what the pairs relate and nothing else, and an
axis that several tensors list as a reduction belongs to the last one of them.

Main results:

- Theorems `RootMap.build_within` and `RootMap.find_eq_of_mem_allPairs`: the
  classes of a root map are those of the pairs.
- Theorem `RootMap.crossesReduction_build`: an axis is kept from what is computed
  from its owner, the last tensor that lists it as a reduction.
-/

namespace FusionCompiler

instance : IsStrictTotalOrder AxisId (· < ·) where
  trichotomous a b hab hba := by
    have hindex : a.index = b.index := Nat.le_antisymm (Nat.not_lt.1 hba) (Nat.not_lt.1 hab)
    cases a
    cases b
    exact congrArg AxisId.mk hindex
  irrefl a := Nat.lt_irrefl a.index
  trans _ _ _ hab hbc := Nat.lt_trans hab hbc

namespace RootMap

open Fusion DisjointSets

variable {f : Fusion} {m : RootMap} {a b : AxisId} {v t : ValueId} {p : AxisId × AxisId}

/-! ## Axes and pairs -/

/-- The root and logical axes of all tensors that take part. -/
def knownAxes (f : Fusion) : List AxisId :=
  f.allTensors.flatMap (tensorAxes f)

theorem mem_tensorAxes : a ∈ tensorAxes f v ↔
    a ∈ (f.view v).domain.root ∨ a ∈ (f.view v).domain.logical :=
  List.mem_append

/-- A pair comes from a live expression, which reads the producer and computes the consumer. -/
theorem mem_allPairs : p ∈ allPairs f ↔ ∃ e ∈ f.tensorExprs, ∃ c ∈ (f.expr e).outputs,
    f.isTensor c = true ∧ ∃ u ∈ (f.expr e).inputs, f.isTensor u = true ∧ p ∈ f.rootPairs u c := by
  unfold allPairs
  simp only [List.mem_flatMap, List.mem_filter]
  tauto

/-- Paired axes are known. -/
theorem known_of_mem_allPairs (h : p ∈ allPairs f) : p.1 ∈ knownAxes f ∧ p.2 ∈ knownAxes f := by
  obtain ⟨e, he, c, hc, hct, u, hu, hut, hp⟩ := mem_allPairs.1 h
  obtain ⟨hlive, -⟩ := mem_tensorExprs.1 he
  obtain ⟨hproducer, hconsumer⟩ := mem_of_mem_rootPairs hp
  constructor
  · refine List.mem_flatMap.2 ⟨u, mem_allTensors.2 ⟨.inr ⟨e, hlive, .inl hu⟩, hut⟩, ?_⟩
    exact mem_tensorAxes.2 (.inr (List.mem_filter.1 hproducer).1)
  · refine List.mem_flatMap.2 ⟨c, mem_allTensors.2 ⟨.inr ⟨e, hlive, .inr hc⟩, hct⟩, ?_⟩
    exact mem_tensorAxes.2 (.inl hconsumer)

/-! ## Taking in pairs -/

/-- The root map before any pair is taken in. -/
def start (f : Fusion) : RootMap where
  sets := (knownAxes f).foldl DisjointSets.insert .empty
  broadcasts := ((knownAxes f).filter fun a => (f.axis a).isBroadcast).foldl addNew []
  resolutions := []
  reductionOwners := []
  downstream := []

theorem mem_start_broadcasts :
    a ∈ (start f).broadcasts ↔ a ∈ knownAxes f ∧ (f.axis a).isBroadcast = true := by
  unfold start
  rw [mem_foldl_addNew, List.mem_filter]
  simp

/-- A pair of which one axis is a broadcast is a resolution, and any other pair is joined. -/
theorem addPair_eq (m : RootMap) (p : AxisId × AxisId) : m.addPair p =
    if m.broadcasts.contains p.1 = m.broadcasts.contains p.2 then
      { m with sets := m.sets.union p.1 p.2 }
    else if m.broadcasts.contains p.1 then { m with resolutions := m.resolutions ++ [p] }
    else { m with resolutions := m.resolutions ++ [(p.2, p.1)] } := by
  obtain ⟨x, y⟩ := p
  unfold addPair
  dsimp only
  generalize m.broadcasts.contains x = first
  generalize m.broadcasts.contains y = second
  cases first <;> cases second <;> simp

/-- A root map that has taken in a list of pairs. -/
structure Paired (f : Fusion) (l : List (AxisId × AxisId)) (m : RootMap) : Prop where
  broadcasts : m.broadcasts = (start f).broadcasts
  reductionOwners : m.reductionOwners = []
  downstream : m.downstream = []
  resolutions : ∀ x ∈ m.resolutions, x ∈ l ∨ (x.2, x.1) ∈ l
  ordered : Ordered m.sets
  together : ∀ p ∈ l, (f.axis p.1).isBroadcast = (f.axis p.2).isBroadcast →
    Together m.sets p.1 p.2
  within : ∀ R : AxisId → AxisId → Prop, Equivalence R →
    (∀ p ∈ l, (f.axis p.1).isBroadcast = (f.axis p.2).isBroadcast → R p.1 p.2) → Within R m.sets

theorem paired_start (f : Fusion) : Paired f [] (start f) := by
  have hinsert : ∀ (s : DisjointSets AxisId) (P : DisjointSets AxisId → Prop), P s →
      (∀ s a, P s → P (s.insert a)) → P ((knownAxes f).foldl DisjointSets.insert s) := by
    intro s P hs hstep
    generalize knownAxes f = axes
    induction axes generalizing s with
    | nil => exact hs
    | cons a axes ih => exact ih _ (hstep s a hs)
  refine ⟨rfl, rfl, rfl, by simp [start], ?_, by simp, fun R hR _ => ?_⟩
  · exact hinsert _ Ordered .empty fun s a hs => hs.insert a
  · exact hinsert _ (Within R) .empty fun s a hs => hs.insert hR a

/-- Taking in one pair of known axes. -/
theorem Paired.addPair {l : List (AxisId × AxisId)} (h : Paired f l m)
    (hp : p.1 ∈ knownAxes f ∧ p.2 ∈ knownAxes f) : Paired f (l ++ [p]) (m.addPair p) := by
  have hcontains : ∀ a ∈ knownAxes f, m.broadcasts.contains a = (f.axis a).isBroadcast := by
    intro a ha
    rw [Bool.eq_iff_iff, List.contains_iff_mem, h.broadcasts, mem_start_broadcasts]
    simp [ha]
  have hold : ∀ x ∈ m.resolutions, x ∈ l ++ [p] ∨ (x.2, x.1) ∈ l ++ [p] := fun x hx =>
    (h.resolutions x hx).imp (List.mem_append_left _) (List.mem_append_left _)
  rw [addPair_eq, hcontains _ hp.1, hcontains _ hp.2]
  by_cases hsame : (f.axis p.1).isBroadcast = (f.axis p.2).isBroadcast
  · rw [if_pos hsame]
    refine ⟨h.broadcasts, h.reductionOwners, h.downstream, hold, h.ordered.union _ _,
      fun q hq hkind => ?_, fun R hR hall => ?_⟩
    · rcases List.mem_append.1 hq with hq | hq
      · exact (h.together q hq hkind).union _ _
      · rw [List.mem_singleton.1 hq]
        exact together_union _ _ _
    · have hl := h.within R hR fun q hq => hall q (List.mem_append_left _ hq)
      exact hl.union hR (hall p (by simp) hsame)
  · have hrest : ∀ r, (∀ x ∈ r, x ∈ l ++ [p] ∨ (x.2, x.1) ∈ l ++ [p]) →
        Paired f (l ++ [p]) { m with resolutions := r } := by
      intro r hr
      refine ⟨h.broadcasts, h.reductionOwners, h.downstream, hr, h.ordered,
        fun q hq hkind => ?_, fun R hR hall => ?_⟩
      · rcases List.mem_append.1 hq with hq | hq
        · exact h.together q hq hkind
        · rw [List.mem_singleton.1 hq] at hkind
          exact absurd hkind hsame
      · exact h.within R hR fun q hq => hall q (List.mem_append_left _ hq)
    rw [if_neg hsame]
    split
    · apply hrest
      intro x hx
      rcases List.mem_append.1 hx with hx | hx
      · exact hold x hx
      · rw [List.mem_singleton.1 hx]
        exact .inl (by simp)
    · apply hrest
      intro x hx
      rcases List.mem_append.1 hx with hx | hx
      · exact hold x hx
      · rw [List.mem_singleton.1 hx]
        exact .inr (by simp)

theorem paired_foldl {l : List (AxisId × AxisId)}
    (h : ∀ p ∈ l, p.1 ∈ knownAxes f ∧ p.2 ∈ knownAxes f) :
    Paired f l (l.foldl RootMap.addPair (start f)) := by
  induction l using List.reverseRecOn with
  | nil => exact paired_start f
  | append_singleton l p ih =>
      rw [List.foldl_append]
      exact (ih fun q hq => h q (List.mem_append_left _ hq)).addPair (h p (by simp))

/-! ## Taking in reductions -/

/-- The reduction axes that a tensor owns unless a later one lists them too. -/
def ownedAxes (f : Fusion) (v : ValueId) : List AxisId :=
  if !f.isReductionTensor v && (f.view v).domain.rfactor.isNone then []
  else (tensorAxes f v).filter fun a => (f.axis a).isReduction

/-- The last tensor that takes part and lists an axis as a reduction. -/
def owner? (f : Fusion) (a : AxisId) : Option ValueId :=
  f.allTensors.reverse.find? fun v => a ∈ ownedAxes f v

theorem mem_ownedAxes (h : a ∈ ownedAxes f v) :
    a ∈ tensorAxes f v ∧ (f.axis a).isReduction = true := by
  unfold ownedAxes at h
  split at h
  · cases h
  · exact List.mem_filter.1 h

/-- An owner takes part and lists the axis as a reduction. -/
theorem owner?_eq_some {o : ValueId} (h : owner? f a = some o) :
    o ∈ f.allTensors ∧ a ∈ tensorAxes f o ∧ (f.axis a).isReduction = true := by
  have howns : a ∈ ownedAxes f o := by simpa using List.find?_some h
  exact ⟨List.mem_reverse.1 (List.mem_of_find?_eq_some h), mem_ownedAxes howns⟩

theorem addReductions_eq (f : Fusion) (m : RootMap) (v : ValueId) : addReductions f m v =
    if ownedAxes f v = [] then m
    else { m with
      reductionOwners := (ownedAxes f v).map (·, v) ++ m.reductionOwners
      downstream := (v, f.downstream v) :: m.downstream } := by
  unfold addReductions ownedAxes
  split
  · simp
  · split
    case h_1 hnone => simp [hnone]
    case h_2 hne => rw [if_neg fun hnone => hne hnone]

/-- A root map that has taken in the reductions of a list of tensors. -/
structure Owned (f : Fusion) (l : List ValueId) (m m' : RootMap) : Prop where
  sets : m'.sets = m.sets
  broadcasts : m'.broadcasts = m.broadcasts
  resolutions : m'.resolutions = m.resolutions
  reductionOwners : ∀ a, m'.reductionOwners.find? (·.1 == a) =
    (l.reverse.find? fun v => a ∈ ownedAxes f v).map (a, ·)
  downstream : ∀ v ∈ l, ownedAxes f v ≠ [] → (v, f.downstream v) ∈ m'.downstream
  sound : ∀ x ∈ m'.downstream, x.2 = f.downstream x.1

theorem owned_nil (howners : m.reductionOwners = []) (hdownstream : m.downstream = []) :
    Owned f [] m m :=
  ⟨rfl, rfl, rfl, by simp [howners], by simp, by simp [hdownstream]⟩

/-- Taking in the reductions of one tensor. -/
theorem Owned.addReductions {l : List ValueId} {m' : RootMap} (h : Owned f l m m') (v : ValueId) :
    Owned f (l ++ [v]) m (addReductions f m' v) := by
  rw [addReductions_eq]
  split
  case isTrue hnone =>
      refine ⟨h.sets, h.broadcasts, h.resolutions, fun a => ?_, fun u hu hne => ?_, h.sound⟩
      · rw [h.reductionOwners]
        simp [hnone]
      · rcases List.mem_append.1 hu with hu | hu
        · exact h.downstream u hu hne
        · rw [List.mem_singleton.1 hu] at hne
          exact absurd hnone hne
  case isFalse hsome =>
      refine ⟨h.sets, h.broadcasts, h.resolutions, fun a => ?_, fun u hu hne => ?_, fun x hx => ?_⟩
      · have hfirst : ((ownedAxes f v).map (·, v)).find? (·.1 == a) =
            if a ∈ ownedAxes f v then some (a, v) else none := by
          generalize ownedAxes f v = axes
          induction axes with
          | nil => rfl
          | cons b axes ih =>
              by_cases hb : b = a
              · simp [hb]
              · simp [hb, Ne.symm hb, ih]
        rw [List.find?_append, hfirst, h.reductionOwners, List.reverse_append, List.reverse_singleton,
          List.singleton_append, List.find?_cons]
        by_cases ha : a ∈ ownedAxes f v
        · simp [ha]
        · simp [ha]
      · rcases List.mem_append.1 hu with hu | hu
        · exact List.mem_cons_of_mem _ (h.downstream u hu hne)
        · rw [List.mem_singleton.1 hu]
          exact List.mem_cons_self
      · rcases List.mem_cons.1 hx with rfl | hx
        · rfl
        · exact h.sound x hx

theorem owned_foldl (l : List ValueId) (howners : m.reductionOwners = [])
    (hdownstream : m.downstream = []) :
    Owned f l m (l.foldl (RootMap.addReductions f) m) := by
  induction l using List.reverseRecOn with
  | nil => exact owned_nil howners hdownstream
  | append_singleton l v ih =>
      rw [List.foldl_append]
      exact ih.addReductions v

/-! ## The whole map -/

theorem build_spec (f : Fusion) : ∃ m, Paired f (allPairs f) m ∧
    Owned f f.allTensors m (RootMap.build f) := by
  have hpaired := paired_foldl (f := f) (l := allPairs f) fun p hp => known_of_mem_allPairs hp
  exact ⟨_, hpaired, owned_foldl _ hpaired.reductionOwners hpaired.downstream⟩

theorem build_broadcasts : (RootMap.build f).broadcasts.contains a = true ↔
    a ∈ knownAxes f ∧ (f.axis a).isBroadcast = true := by
  obtain ⟨m, hpaired, howned⟩ := build_spec f
  rw [List.contains_iff_mem, howned.broadcasts, hpaired.broadcasts, mem_start_broadcasts]

theorem mem_build_resolutions {x : AxisId × AxisId} (hx : x ∈ (RootMap.build f).resolutions) :
    x ∈ allPairs f ∨ (x.2, x.1) ∈ allPairs f := by
  obtain ⟨m, hpaired, howned⟩ := build_spec f
  exact hpaired.resolutions x (howned.resolutions ▸ hx)

/-- The classes of a root map lie within every equivalence that the joined pairs respect. -/
theorem build_within {R : AxisId → AxisId → Prop} (hR : Equivalence R)
    (h : ∀ p ∈ allPairs f, (f.axis p.1).isBroadcast = (f.axis p.2).isBroadcast → R p.1 p.2) :
    Within R (RootMap.build f).sets := by
  obtain ⟨m, hpaired, howned⟩ := build_spec f
  exact howned.sets ▸ hpaired.within R hR h

/-- The axes of a joined pair are in one class. -/
theorem find_eq_of_mem_allPairs (hp : p ∈ allPairs f)
    (hkind : (f.axis p.1).isBroadcast = (f.axis p.2).isBroadcast) :
    (RootMap.build f).sets.find p.1 = (RootMap.build f).sets.find p.2 := by
  obtain ⟨m, hpaired, howned⟩ := build_spec f
  rw [howned.sets]
  exact (hpaired.together p hp hkind).find_eq hpaired.ordered

/-- An axis is kept from what is computed from its owner. -/
theorem crossesReduction_build : (RootMap.build f).crossesReduction a t = true ↔
    ∃ o, owner? f a = some o ∧ o ≠ t ∧ t ∈ f.downstream o := by
  obtain ⟨m, -, howned⟩ := build_spec f
  have hdownstream : ∀ o, owner? f a = some o →
      (RootMap.build f).downstream.find? (·.1 == o) = some (o, f.downstream o) := by
    intro o ho
    have hmem := List.mem_of_find?_eq_some ho
    have howns := List.find?_some ho
    have hlisted := howned.downstream o (List.mem_reverse.1 hmem) fun hnone => by
      simp [hnone] at howns
    cases hfind : (RootMap.build f).downstream.find? (·.1 == o) with
    | none => exact absurd (List.find?_eq_none.1 hfind _ hlisted) (by simp)
    | some x =>
        have hkey : x.1 = o := by simpa using List.find?_some hfind
        have hvalue := howned.sound x (List.mem_of_find?_eq_some hfind)
        cases x
        subst hkey
        rw [← hvalue]
  have howner : (RootMap.build f).reductionOwners.find? (·.1 == a) = (owner? f a).map (a, ·) :=
    howned.reductionOwners a
  unfold crossesReduction
  rw [howner]
  cases ho : owner? f a with
  | none => simp
  | some o => simp [hdownstream o ho]

end RootMap
end FusionCompiler
