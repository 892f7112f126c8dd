import FusionCompiler.Lower.LoopPlan
import FusionCompiler.Proofs.DisjointSets
import FusionCompiler.Proofs.Fusion.Building

/-!
# What loop groups relate

Loop groups are the classes of a partition that starts with every axis on its
own and joins axes along the inlined edges of a fusion.  Whatever equivalence the
joined axes respect relates all members of a group to each other.  A fusion that
inlines nothing has one group for each axis, and its loops run over the extents
of the axes themselves.

Main results:

- Theorem `LoopGroups.build_within`: an equivalence that all joins respect relates
  all members of a group.
- Theorem `LoopGroups.build_plain`: where nothing is inlined there are loop groups,
  and every axis is its own concrete member.
-/

namespace FusionCompiler
namespace LoopGroups

open DisjointSets Results

variable {f : Fusion} {R : AxisId → AxisId → Prop} {m : LoopGroups}

/-! ## Taking the construction apart -/

theorem build_cases (h : build f = .ok m) :
    (inlinedEdges f).foldlM (fun sets (p, c) => joinEdge f sets p c) (ownClasses f) = .ok m.sets ∧
      m.sets.names.mapM (groupOf f m.sets) = .ok m.groups := by
  obtain ⟨sets, hsets, h⟩ := bind_eq_ok.1 h
  obtain ⟨groups, hgroups, h⟩ := bind_eq_ok.1 h
  cases h
  exact ⟨hsets, hgroups⟩

/-- The concrete member of a class is its name or a member that is no broadcast. -/
theorem groupOf_cases {sets : DisjointSets AxisId} {name : AxisId} {g : LoopGroup}
    (h : groupOf f sets name = .ok g) :
    g.name = name ∧ g.members = sets.membersOf name ∧
      (g.concrete = name ∨ g.concrete ∈ g.members ∧ (f.axis g.concrete).isBroadcast = false) := by
  obtain ⟨parallel, -, h⟩ := bind_eq_ok.1 h
  cases h
  refine ⟨rfl, rfl, ?_⟩
  cases hfind : (sets.membersOf name).find? fun a => !(f.axis a).isBroadcast with
  | none => exact .inl rfl
  | some a =>
      refine .inr ?_
      simp only [Option.getD_some]
      exact ⟨List.mem_of_find?_eq_some hfind, by simpa using List.find?_some hfind⟩

/-! ## Groups inside an equivalence -/

theorem ownClasses_within (hR : Equivalence R) : Within R (ownClasses f) := by
  unfold ownClasses
  generalize f.allTensors.flatMap _ = axes
  have hfold : ∀ s : DisjointSets AxisId, Within R s → Within R (axes.foldl DisjointSets.insert s) := by
    induction axes with
    | nil => exact fun _ h => h
    | cons a axes ih => exact fun s h => ih _ (h.insert hR a)
  exact hfold _ Within.empty

/-- An equivalence that all joins respect relates all members of a group to its name. -/
theorem build_within (hR : Equivalence R)
    (hedges : ∀ e ∈ inlinedEdges f, ∀ s s', Within R s → joinEdge f s e.1 e.2 = .ok s' →
      Within R s') (h : build f = .ok m) :
    Within R m.sets ∧ ∀ g ∈ m.groups, (∀ a ∈ g.members, R a g.name) ∧ R g.concrete g.name := by
  obtain ⟨hsets, hgroups⟩ := build_cases h
  have hwithin : Within R m.sets := foldlM_keeps hedges (ownClasses_within hR) hsets
  refine ⟨hwithin, fun g hg => ?_⟩
  obtain ⟨name, -, hname⟩ := mem_mapM hgroups hg
  obtain ⟨rfl, hmembers, hconcrete⟩ := groupOf_cases hname
  have hall : ∀ a ∈ g.members, R a g.name := by
    intro a ha
    rw [hmembers] at ha
    exact hwithin.membersOf ha
  refine ⟨hall, ?_⟩
  rcases hconcrete with heq | ⟨hmem, -⟩
  · rw [heq]
    exact hR.refl g.name
  · exact hall _ hmem

/-! ## Fusions that inline nothing -/

/-- Axes that are executed alike have a common binding. -/
theorem commonBinding_ok (name : AxisId) {members : List AxisId} {q : ParallelType}
    (h : ∀ a ∈ members, (f.axis a).parallel = q) : ∃ r, commonBinding f name members = .ok r := by
  have hrun : ∀ bound, bound = .serial ∨ bound = q → ∃ r, members.foldlM (fun bound a =>
      let p := (f.axis a).parallel
      if p = .serial ∨ p = bound then (.ok bound : Except LowerError ParallelType)
      else if bound = .serial then .ok p
      else .error (.parallelTypeConflict name bound p)) bound = .ok r := by
    induction members with
    | nil => exact fun bound _ => ⟨bound, rfl⟩
    | cons a members ih =>
        intro bound hbound
        have hq := h a List.mem_cons_self
        have hrest := ih fun b hb => h b (List.mem_cons_of_mem a hb)
        rw [List.foldlM_cons]
        dsimp only
        split
        · exact hrest bound hbound
        case isFalse hne =>
            have hserial : bound = .serial := by
              rcases hbound with hb | rfl
              · exact hb
              · exact absurd (.inr hq) hne
            rw [if_pos hserial]
            exact hrest _ (.inr hq)
  exact hrun .serial (.inl rfl)

theorem inlinedEdges_plain (hp : f.Plain) : inlinedEdges f = [] := by
  unfold inlinedEdges
  rw [List.flatMap_eq_nil_iff]
  intro e _
  have hnone : (f.tensorInputs e).filter (fun p => (f.view p).computeAt != 0) = [] := by
    rw [List.filter_eq_nil_iff]
    intro p _
    simp [hp.computeAt p]
  rw [hnone, List.flatMap_nil]

/-- Where nothing is inlined there are loop groups, and every axis is its own concrete member. -/
theorem build_plain (hp : f.Plain) : ∃ m, build f = .ok m ∧ ∀ a, m.concrete a = a := by
  have hR : Equivalence (Eq : AxisId → AxisId → Prop) := eq_equivalence
  have hown : Within Eq (ownClasses f) := ownClasses_within hR
  have hbinding : ∀ name ∈ (ownClasses f).names, ∃ g, groupOf f (ownClasses f) name = .ok g := by
    intro name _
    have hsame : ∀ a ∈ (ownClasses f).membersOf name, (f.axis a).parallel = (f.axis name).parallel :=
      fun a ha => by rw [hown.membersOf ha]
    obtain ⟨r, hr⟩ := commonBinding_ok name hsame
    exact ⟨_, bind_eq_ok.2 ⟨r, hr, rfl⟩⟩
  obtain ⟨groups, hgroups, -⟩ := mapM_of_all hbinding
  have hbuild : build f = .ok ⟨ownClasses f, groups⟩ := by
    unfold build
    rw [inlinedEdges_plain hp, List.foldlM_nil]
    change (ownClasses f).names.mapM (groupOf f (ownClasses f)) >>= _ = _
    rw [hgroups]
    rfl
  refine ⟨_, hbuild, fun a => ?_⟩
  have hwithin := build_within hR (fun e he => by simp [inlinedEdges_plain hp] at he) hbuild
  unfold concrete get?
  cases hfind : groups.find? fun g => g.name == name ⟨ownClasses f, groups⟩ a with
  | none => rfl
  | some g =>
      have hname : g.name = (ownClasses f).find a := by
        have hg := List.find?_some hfind
        exact eq_of_beq hg
      have hconcrete := (hwithin.2 g (List.mem_of_find?_eq_some hfind)).2
      rw [Option.map_some, Option.getD_some, hconcrete, hname]
      exact (hown.find hR a).symm

end LoopGroups
end FusionCompiler
