import FusionCompiler.Proofs.Lower.Counterparts
import FusionCompiler.Proofs.Schedule.RootMaps

/-!
# Loops that several axes share

An axis of a producer that is inlined shares the loop of its counterpart in the
consumer.  The counterpart is never the smaller one: a broadcast may meet a
larger axis on the way, but nothing shrinks.  So extents grow along inlining, and
a loop runs often enough for all axes that share it as soon as it does for those
that are inlined no further.

The extent of a loop is that of the first member of its group that is no
broadcast.  This need not be one that is inlined no further: an axis merged from
a broadcast and an iteration counts as an iteration.

Main results:

- Theorem `LoopGroups.build_closed`: what an axis is inlined into is in its group.
- Theorem `Fusion.exists_outermost`: a member of a group is no larger than some
  member that is inlined no further.
- Theorem `Fusion.runsOftenEnough_iff`: a loop runs often enough for all members
  of its group if and only if it does for the outermost ones.
-/

namespace FusionCompiler

namespace Fusion

variable {f : Fusion}

/-- The inlined leaves of a tensor and all axes they were derived from. -/
def inlinedAxes (f : Fusion) (v : ValueId) : List AxisId :=
  ((f.leaf v).take (f.view v).computeAt).flatMap fun leaf => leaf :: f.origins leaf

/-- The axis `a` of an inlined producer shares the loop of its counterpart `b`. -/
def InlinedInto (f : Fusion) (a b : AxisId) : Prop :=
  ∃ x ∈ LoopGroups.inlinedEdges f, a ∈ f.inlinedAxes x.1 ∧ (f.counterparts x.1 x.2).get? a = some b

end Fusion

/-! ## Groups are closed under inlining -/

namespace LoopGroups

open DisjointSets Fusion

variable {f : Fusion} {m : LoopGroups} {s s' : DisjointSets AxisId} {images : AxisMap}
  {leaf target a b : AxisId}

/-- What joining does: elements that are listed together stay together, in order. -/
structure Joins (s s' : DisjointSets AxisId) : Prop where
  ordered : Ordered s → Ordered s'
  rooted : Rooted s → Rooted s'
  together : ∀ a b, Together s a b → Together s' a b

protected theorem Joins.refl (s : DisjointSets AxisId) : Joins s s :=
  ⟨id, id, fun _ _ h => h⟩

protected theorem Joins.trans {s'' : DisjointSets AxisId} (h : Joins s s') (h' : Joins s' s'') :
    Joins s s'' :=
  ⟨fun hs => h'.ordered (h.ordered hs), fun hs => h'.rooted (h.rooted hs),
    fun a b hab => h'.together a b (h.together a b hab)⟩

theorem Joins.union (s : DisjointSets AxisId) (a b : AxisId) : Joins s (s.union a b) :=
  ⟨fun hs => hs.union a b, fun hs => hs.union a b, fun _ _ h => h.union a b⟩

/-- Joining a leaf joins it and its origins with their counterparts. -/
theorem joinLeaf_joins (f : Fusion) (images : AxisMap) (leaf target : AxisId)
    (s : DisjointSets AxisId) :
    Joins s (joinLeaf f images leaf target s) ∧ Together (joinLeaf f images leaf target s) leaf target ∧
      ∀ a ∈ f.origins leaf, ∀ b, images.get? a = some b →
        Together (joinLeaf f images leaf target s) a b := by
  obtain ⟨hjoins, hall⟩ : Joins (s.union leaf target) (joinLeaf f images leaf target s) ∧
      ∀ a ∈ f.origins leaf, ∀ b, images.get? a = some b →
        Together (joinLeaf f images leaf target s) a b := by
    refine Results.foldl_establishes (R := Joins)
      (Q := fun a s => ∀ b, images.get? a = some b → Together s a b) _ _ Joins.refl
      (fun _ _ _ => Joins.trans)
      (fun a _ _ htogether hjoins b hb => hjoins.together a b (htogether b hb)) ?_
    intro s a
    split
    next c hc =>
      refine ⟨.union s a c, fun b hb => ?_⟩
      rw [hc] at hb
      cases hb
      exact together_union s a c
    next hnone =>
      refine ⟨.refl s, fun b hb => ?_⟩
      rw [hnone] at hb
      cases hb
  exact ⟨(Joins.union s leaf target).trans hjoins,
    hjoins.together _ _ (together_union s leaf target), hall⟩

/-- Joining an edge joins all inlined axes of the producer with their counterparts. -/
theorem joinEdge_joins {producer consumer : ValueId} (h : joinEdge f s producer consumer = .ok s') :
    Joins s s' ∧ ∀ a ∈ f.inlinedAxes producer, ∀ b,
      (f.counterparts producer consumer).get? a = some b → Together s' a b := by
  unfold joinEdge at h
  obtain ⟨pairs, hpairs, h⟩ := Results.bind_eq_ok.1 h
  obtain rfl := eq_of_rootPairs? hpairs
  obtain ⟨hjoins, hall⟩ : Joins s s' ∧
      ∀ q ∈ ((f.leaf producer).take (f.view producer).computeAt).zipIdx,
        ∀ a ∈ q.1 :: f.origins q.1, ∀ b,
          (f.counterparts producer consumer).get? a = some b → Together s' a b := by
    refine Results.foldlM_establishes (R := Joins)
      (Q := fun (q : AxisId × Nat) s => ∀ a ∈ q.1 :: f.origins q.1, ∀ b,
        (f.counterparts producer consumer).get? a = some b → Together s a b)
      Joins.refl (fun _ _ _ => Joins.trans)
      (fun q _ _ htogether hjoins a ha b hb => hjoins.together a b (htogether a ha b hb)) ?_ h
    intro s s' q hs
    dsimp only at hs
    split at hs
    next target htarget =>
      cases hs
      have hget : (f.counterparts producer consumer).get? q.1 = some target :=
        (Option.filter_eq_some_iff.1 htarget).1
      obtain ⟨hjoins, htogether, horigins⟩ :=
        joinLeaf_joins f (f.counterparts producer consumer) q.1 target s
      refine ⟨hjoins, fun a ha b hb => ?_⟩
      rcases List.mem_cons.1 ha with rfl | ha
      · rw [hget] at hb
        cases hb
        exact htogether
      · exact horigins a ha b hb
    next => cases hs
  refine ⟨hjoins, fun a ha b hb => ?_⟩
  obtain ⟨leaf, hleaf, ha⟩ := List.mem_flatMap.1 ha
  obtain ⟨i, hi⟩ := List.mem_iff_getElem?.1 hleaf
  exact hall (leaf, i) (List.mem_zipIdx_iff_getElem?.2 hi) a ha b hb

/-- The classes of the loop groups are in order and join every inlined axis with its counterpart. -/
theorem build_joined (h : build f = .ok m) : Ordered m.sets ∧ Rooted m.sets ∧
    ∀ x ∈ inlinedEdges f, ∀ a ∈ f.inlinedAxes x.1, ∀ b,
      (f.counterparts x.1 x.2).get? a = some b → Together m.sets a b := by
  have hown : Ordered (ownClasses f) ∧ Rooted (ownClasses f) := by
    unfold ownClasses
    generalize f.allTensors.flatMap _ = axes
    have hfold : ∀ s : DisjointSets AxisId, Ordered s ∧ Rooted s →
        Ordered (axes.foldl DisjointSets.insert s) ∧ Rooted (axes.foldl DisjointSets.insert s) := by
      induction axes with
      | nil => exact fun _ h => h
      | cons c axes ih => exact fun s h => ih _ ⟨h.1.insert c, h.2.insert c⟩
    exact hfold _ ⟨Ordered.empty, Rooted.empty⟩
  obtain ⟨hjoins, hall⟩ := Results.foldlM_establishes (R := Joins)
    (Q := fun (x : ValueId × ValueId) s => ∀ a ∈ f.inlinedAxes x.1, ∀ b,
      (f.counterparts x.1 x.2).get? a = some b → Together s a b)
    Joins.refl (fun _ _ _ => Joins.trans)
    (fun x _ _ htogether hjoins a ha b hb => hjoins.together a b (htogether a ha b hb))
    (fun _ _ _ => joinEdge_joins) (build_cases h).1
  exact ⟨hjoins.ordered hown.1, hjoins.rooted hown.2, hall⟩

section Names

variable (h : build f = .ok m) (a : AxisId)

include h

/-- A group is found under its name. -/
theorem get?_name : m.get? (m.name a) = m.get? a := by
  obtain ⟨hordered, hrooted, -⟩ := build_joined h
  unfold get? name
  rw [find_find hordered hrooted a]

theorem parallel_name : m.parallel (m.name a) = m.parallel a := by
  unfold parallel
  rw [get?_name h a]

theorem concrete_name : m.concrete (m.name a) = m.concrete a := by
  unfold concrete
  rw [get?_name h a]
  cases hget : m.get? a with
  | some g => rfl
  | none =>
      -- an axis that is listed has a group
      have hunknown : lookup a m.sets.entries = none := by
        rw [Option.eq_none_iff_forall_ne_some]
        intro r hr
        have hmem := (build_joined h).2.1 _ (mem_of_lookup hr)
        have hnames : r ∈ m.sets.names :=
          List.mem_map.2 ⟨(r, r), List.mem_filter.2 ⟨hmem, by simp⟩, rfl⟩
        obtain ⟨g, hg, hgroup⟩ := Results.exists_mem_mapM (build_cases h).2 hnames
        have hname : m.name a = g.name := by
          rw [(groupOf_cases hgroup).1]
          simp [name, find, hr]
        have hnot := List.find?_eq_none.1 hget g hg
        rw [hname] at hnot
        simp at hnot
      simp [name, find, hunknown]

end Names

/-- What an axis is inlined into is in its group. -/
theorem build_closed (h : build f = .ok m) {g : LoopGroup} (hg : g ∈ m.groups)
    (ha : a ∈ g.members) (hab : f.InlinedInto a b) : b ∈ g.members := by
  obtain ⟨hordered, -, hall⟩ := build_joined h
  obtain ⟨name, -, hname⟩ := Results.mem_mapM (build_cases h).2 hg
  obtain ⟨rfl, hmembers, -⟩ := groupOf_cases hname
  obtain ⟨x, hx, hin, hget⟩ := hab
  rw [hmembers] at ha ⊢
  exact (hall x hx a hin b hget).mem_membersOf hordered ha

end LoopGroups

/-! ## Members that are inlined no further -/

namespace Fusion

open LoopGroups

variable {f : Fusion} {env : Scalar.Env} {m : LoopGroups} {g : LoopGroup} {v : ValueId} {a : AxisId}

/-- The axis `a` of the tensor `v` is inlined no further. -/
def Outermost (f : Fusion) (v : ValueId) (a : AxisId) : Prop :=
  ∀ x ∈ inlinedEdges f, x.1 = v → a ∈ f.inlinedAxes v → (f.counterparts v x.2).get? a = none

/-- The loop of a group runs often enough for every axis that shares it. -/
def RunsOftenEnough (f : Fusion) (env : Scalar.Env) (g : LoopGroup) : Prop :=
  ∀ v ∈ f.allTensors, ∀ a ∈ f.axesOf v, a ∈ g.members →
    f.extentsAt env a ≤ f.extentsAt env g.concrete

/-- An inlined edge leads from an operand of a live expression to one of its results. -/
theorem exists_expr_of_mem_inlinedEdges {x : ValueId × ValueId} (hx : x ∈ inlinedEdges f) :
    ∃ e ∈ f.liveExprs, x.1 ∈ (f.expr e).inputs ∧ x.2 ∈ (f.expr e).outputs ∧
      x.1 ∈ f.allTensors ∧ x.2 ∈ f.allTensors := by
  obtain ⟨e, he, hx⟩ := List.mem_flatMap.1 hx
  obtain ⟨p, hp, hx⟩ := List.mem_flatMap.1 hx
  obtain ⟨c, hc, rfl⟩ := List.mem_map.1 hx
  have hlive := (List.mem_filter.1 he).1
  obtain ⟨hin, hpt⟩ : p ∈ (f.expr e).inputs ∧ f.isTensor p = true := by
    have := (List.mem_filter.1 hp).1
    simpa [tensorInputs, mem_foldl_addNew] using this
  obtain ⟨hout, hct⟩ := List.mem_filter.1 hc
  exact ⟨e, hlive, hin, hout, mem_allTensors.2 ⟨.inr ⟨e, hlive, .inl hin⟩, hpt⟩,
    mem_allTensors.2 ⟨.inr ⟨e, hlive, .inr hout⟩, hct⟩⟩

/-- A member of a group is no larger than some member that is inlined no further. -/
theorem exists_outermost (hs : f.SharedSizes env) (hf : Sound f) (hw : Wired f)
    (hbuild : build f = .ok m) (hg : g ∈ m.groups) (hv : v ∈ f.allTensors)
    (ha : a ∈ f.axesOf v) (hmem : a ∈ g.members) :
    ∃ w ∈ f.allTensors, ∃ b ∈ f.axesOf w, b ∈ g.members ∧ f.Outermost w b ∧
      f.extentsAt env a ≤ f.extentsAt env b := by
  obtain ⟨rank, hrank⟩ := hw.ranked
  obtain ⟨top, htop, -⟩ := exists_threshold rank f.allTensors
  -- every inlining step leads to a tensor of higher rank, and there is a highest one
  induction hn : top - rank v using Nat.strongRecOn generalizing v a with
  | ind n ih =>
      by_cases hout : f.Outermost v a
      · exact ⟨v, hv, a, ha, hmem, hout, Int.le_refl _⟩
      · unfold Outermost at hout
        push Not at hout
        obtain ⟨⟨p, c⟩, hx, hp, hin, hget⟩ := hout
        obtain ⟨e, -, hread, hcomputed, hpt, hct⟩ := exists_expr_of_mem_inlinedEdges hx
        dsimp only at hp hget hread hcomputed hpt hct
        subst hp
        obtain ⟨b, hb⟩ := Option.ne_none_iff_exists'.1 hget
        obtain ⟨hbmem, hle⟩ := hs.counterparts_grow hf hct hpt hx a b hb
        have hup : rank p < rank c := by
          cases he : f.expr? e with
          | none =>
              rw [expr, he] at hread
              cases hread
          | some y =>
              rw [expr, he] at hread hcomputed
              exact hrank e y he p hread c hcomputed
        have hdown : top - rank c < n := by
          have := htop p hv
          omega
        obtain ⟨w, hwt, d, hd, hdmem, hdout, hdle⟩ := ih _ hdown hct hbmem
          (build_closed hbuild hg hmem ⟨(p, c), hx, hin, hb⟩) rfl
        exact ⟨w, hwt, d, hd, hdmem, hdout, Int.le_trans hle hdle⟩

/-- A loop runs often enough for all members of its group if and only if it does for those that are
inlined no further. -/
theorem runsOftenEnough_iff {calls : List Call} (h : applyAll Schedule.replay calls {} = some f)
    (hbuild : build f = .ok m) (hs : f.SharedSizes env) (hg : g ∈ m.groups) :
    f.RunsOftenEnough env g ↔ ∀ v ∈ f.allTensors, ∀ a ∈ f.axesOf v, a ∈ g.members →
      f.Outermost v a → f.extentsAt env a ≤ f.extentsAt env g.concrete := by
  constructor
  · exact fun hall v hv a ha hmem _ => hall v hv a ha hmem
  · intro hall v hv a ha hmem
    obtain ⟨w, hw, b, hb, hbmem, hout, hle⟩ :=
      exists_outermost hs (applyAll_sound h) (applyAll_wired h) hbuild hg hv ha hmem
    exact Int.le_trans hle (hall w hw b hb hbmem hout)

/-- A row added to all rows of a matrix, both axes in one loop, with the row inlined. -/
def inlinedRow : List Call :=
  [.tensor [1, 3] [true, true] .float, .input ⟨0⟩, .tensor [2, 3] [true, true] .float, .input ⟨5⟩,
    .unary .neg (.value ⟨0⟩), .binary .add (.value ⟨12⟩) (.value ⟨5⟩), .output ⟨15⟩,
    .merge ⟨15⟩ 0 1, .computeAt ⟨12⟩ ⟨15⟩ 1]

theorem inlinedRow_runsOftenEnough :
    ∃ f m, applyAll Schedule.replay inlinedRow {} = some f ∧ build f = .ok m ∧
      (∃ g ∈ m.groups, 1 < g.members.length) ∧ ∀ g ∈ m.groups, f.RunsOftenEnough {} g := by
  have hrun : ((applyAll Schedule.replay inlinedRow {}).any fun f =>
      f.checkSharedSizes {} && (build f).toOption.any fun m =>
        (m.groups.any fun g => decide (1 < g.members.length)) &&
          m.groups.all fun g => f.allTensors.all fun v => (f.axesOf v).all fun a =>
            !g.members.contains a || decide (f.extentsAt {} a ≤ f.extentsAt {} g.concrete)) =
              true := by
    cbv
  obtain ⟨f, hf, hchecks⟩ := (Option.any_eq_true _ _).1 hrun
  obtain ⟨hs, hm⟩ := Bool.and_eq_true_iff.1 hchecks
  obtain ⟨m, hm, hgroups⟩ := (Option.any_eq_true _ _).1 hm
  obtain ⟨hshared, hall⟩ := Bool.and_eq_true_iff.1 hgroups
  have hbuild := Results.ok_of_toOption hm
  refine ⟨f, m, hf, hbuild, by simpa using hshared, fun g hg => ?_⟩
  refine (runsOftenEnough_iff hf hbuild (checkSharedSizes_iff.1 hs) hg).2 fun v hv a ha hmem _ => ?_
  have hmember := List.all_eq_true.1 (List.all_eq_true.1 (List.all_eq_true.1 hall g hg) v hv) a ha
  simpa [hmem] using hmember

/-- The same sum with the axes of the row merged first: the merged axis counts as an iteration and
is the oldest of its group, so it gives the loop its extent. -/
def mergedRow : List Call :=
  [.tensor [1, 3] [true, true] .float, .input ⟨0⟩, .tensor [2, 3] [true, true] .float, .input ⟨5⟩,
    .unary .neg (.value ⟨0⟩), .binary .add (.value ⟨12⟩) (.value ⟨5⟩), .output ⟨15⟩,
    .merge ⟨12⟩ 0 1, .merge ⟨15⟩ 0 1, .computeAt ⟨12⟩ ⟨15⟩ 1]

theorem mergedRow_not_runsOftenEnough :
    ∃ f m, applyAll Schedule.replay mergedRow {} = some f ∧ build f = .ok m ∧
      f.SharedSizes {} ∧ ∃ g ∈ m.groups, ¬ f.RunsOftenEnough {} g := by
  have hrun : ((applyAll Schedule.replay mergedRow {}).any fun f =>
      f.checkSharedSizes {} && (build f).toOption.any fun m =>
        m.groups.any fun g => f.allTensors.any fun v => (f.axesOf v).any fun a =>
          g.members.contains a && decide (f.extentsAt {} g.concrete < f.extentsAt {} a)) = true := by
    cbv
  obtain ⟨f, hf, hchecks⟩ := (Option.any_eq_true _ _).1 hrun
  obtain ⟨hs, hm⟩ := Bool.and_eq_true_iff.1 hchecks
  obtain ⟨m, hm, hgroups⟩ := (Option.any_eq_true _ _).1 hm
  obtain ⟨g, hg, hlarger⟩ := List.any_eq_true.1 hgroups
  obtain ⟨v, hv, hlarger⟩ := List.any_eq_true.1 hlarger
  obtain ⟨a, ha, hlarger⟩ := List.any_eq_true.1 hlarger
  obtain ⟨hmem, hlt⟩ : a ∈ g.members ∧ f.extentsAt {} g.concrete < f.extentsAt {} a := by
    simpa using hlarger
  refine ⟨f, m, hf, Results.ok_of_toOption hm, checkSharedSizes_iff.1 hs, g, hg, fun hruns => ?_⟩
  exact absurd (hruns v hv a ha hmem) (Int.not_le.2 hlt)

end Fusion
end FusionCompiler
