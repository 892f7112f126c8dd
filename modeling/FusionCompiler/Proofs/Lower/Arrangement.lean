import FusionCompiler.Lower.LoopTree
import FusionCompiler.Proofs.Fusion.Ordering
import FusionCompiler.Proofs.Outcome
import FusionCompiler.Proofs.Schedule.Calls

/-!
# Arranging expressions into loops

Expressions are bundled by the next loop they enter, the bundles are ordered so that
none waits for a later one, and every cluster is arranged in the same way inside its
loop.  Read from left to right, the tree is an order of the expressions in which
operands come first, and every expression stands inside the loops of its own leaves.

An order of the expressions can be read off a tree only if those that share their
outermost loops stand together.  When bundles wait for each other there is no such
order: the bundle of the first expression among them would have to contain what it
waits for.

Main results:

- Theorem `LoopTree.Arranged.all`: the trees of ordered bundles, one after the other.
- Theorem `LoopTree.Bundles.exists_ready`: among bundles of expressions that can be
  brought into order, one waits for no other.
- Theorem `LoopTree.exprsAll_perm`: trees have the expressions they are built from.
- Theorem `LoopTree.build_arranges`: trees are correct orders of their expressions,
  and there is none when building them fails.
-/

namespace FusionCompiler

namespace Results

variable {ε α β : Type}

/-- Repeated computations succeed one by one. -/
theorem forall₂_mapM {g : α → Except ε β} {l : List α} {ys : List β} (h : l.mapM g = .ok ys) :
    List.Forall₂ (fun x y => g x = .ok y) l ys := by
  induction l generalizing ys with
  | nil =>
      cases h
      exact .nil
  | cons x l ih =>
      rw [List.mapM_cons] at h
      obtain ⟨y, hy, h⟩ := bind_eq_ok.1 h
      obtain ⟨ys, hys, h⟩ := bind_eq_ok.1 h
      cases h
      exact .cons hy (ih hys)

/-- If repeated computations fail, one of them does. -/
theorem mapM_eq_error {g : α → Except ε β} {l : List α} {e : ε} (h : l.mapM g = .error e) :
    ∃ x ∈ l, g x = .error e := by
  induction l with
  | nil => cases h
  | cons x l ih =>
      rw [List.mapM_cons] at h
      cases hx : g x with
      | error e' =>
          rw [hx] at h
          cases h
          exact ⟨x, List.mem_cons_self, hx⟩
      | ok y =>
          rw [hx] at h
          cases hl : l.mapM g with
          | ok ys =>
              rw [hl] at h
              cases h
          | error e' =>
              rw [hl] at h
              cases h
              obtain ⟨z, hz, hgz⟩ := ih hl
              exact ⟨z, List.mem_cons_of_mem x hz, hgz⟩

end Results

/-! ## Orders of expressions -/

namespace Fusion

variable {f : Fusion} {l : List ExprId}

/-- An expression reads a tensor that another one computes. -/
def Awaits (f : Fusion) (e d : ExprId) : Prop :=
  ∃ v ∈ f.tensorInputs e, f.definition v = some d

/-- Each expression of a list comes after those of the list that compute its tensor inputs. -/
def OperandsFirst (f : Fusion) (l : List ExprId) : Prop :=
  ∀ pre e post, l = pre ++ e :: post → ∀ d ∈ l, f.Awaits e d → d ∈ pre

/-- Operands come first just if awaited positions are smaller. -/
theorem operandsFirst_iff (hl : l.Nodup) : f.OperandsFirst l ↔
    ∀ i j (hi : i < l.length) (hj : j < l.length), f.Awaits l[i] l[j] → j < i := by
  constructor
  · intro h i j hi hj hawaits
    have hsplit : l = l.take i ++ l[i] :: l.drop (i + 1) := by simp
    have hmem := h _ _ _ hsplit l[j] (List.getElem_mem hj) hawaits
    obtain ⟨k, hk, heq⟩ := List.mem_take_iff_getElem.1 hmem
    have : k = j := (hl.getElem_inj_iff).1 heq
    omega
  · intro h pre e post heq d hd hawaits
    obtain ⟨j, hj, rfl⟩ := List.getElem_of_mem hd
    have hlt : j < pre.length := by
      apply h pre.length j (by simp [heq]) hj
      simpa [heq] using hawaits
    simp only [heq, List.getElem_append_left hlt]
    exact List.getElem_mem hlt

/-- The tensor expressions are listed with operands first. -/
theorem Founded.operandsFirst_tensorExprs (hf : Founded f) : f.OperandsFirst f.tensorExprs := by
  intro pre e post heq d hd hawaits
  obtain ⟨v, hv, hdef⟩ := hawaits
  unfold tensorInputs at hv
  rw [mem_foldl_addNew] at hv
  have hv := List.mem_filter.1 (hv.resolve_left (by simp))
  exact hf.tensorExprs_inOrder heq hv.1 hv.2 hdef

end Fusion

/-! ## Bundles -/

namespace LoopTree

open Fusion

variable {f : Fusion} {items : List Placed} {bundles : List Bundle} {pos : ExprId → Nat}

/-- An expression inside one more loop. -/
def Placed.enter (group : AxisId) (p : Placed) : Placed :=
  ⟨p.expr, group :: p.loops⟩

/-- Entering a loop keeps the expression. -/
@[simp]
theorem Placed.expr_enter (group : AxisId) (p : Placed) : (p.enter group).expr = p.expr :=
  rfl

/-- Entering a loop puts it around the others. -/
@[simp]
theorem Placed.loops_enter (group : AxisId) (p : Placed) :
    (p.enter group).loops = group :: p.loops :=
  rfl

/-- The expressions of a bundle with the loops they had before they were bundled. -/
def Bundle.placed : Bundle → List Placed
  | .loose e => [⟨e, []⟩]
  | .cluster group members => members.map (Placed.enter group)

/-- The expressions of a bundle are those that are placed in it. -/
@[simp]
theorem Bundle.map_expr_placed (u : Bundle) : u.placed.map (·.expr) = u.exprs := by
  cases u with
  | loose e => rfl
  | cluster group members => simp [Bundle.placed, Bundle.exprs, Function.comp_def]

/-- A bundle has an expression just if it is placed in it. -/
theorem Bundle.mem_exprs {u : Bundle} {e : ExprId} :
    e ∈ u.exprs ↔ ∃ p ∈ u.placed, p.expr = e := by
  rw [← u.map_expr_placed, List.mem_map]

/-- The group of a cluster. -/
def Bundle.group? : Bundle → Option AxisId
  | .loose _ => none
  | .cluster group _ => some group

/-- Expressions of a bundle that share a loop with others are in the cluster of that loop. -/
theorem Bundle.group?_of_mem {u : Bundle} {p : Placed} (hp : p ∈ u.placed) :
    p.loops.head? = u.group? := by
  cases u with
  | loose e =>
      rw [Bundle.placed, List.mem_singleton] at hp
      subst hp
      rfl
  | cluster group members =>
      obtain ⟨q, -, rfl⟩ := List.mem_map.1 hp
      rfl

/-- Adds an expression to the cluster of a group. -/
def Bundle.put (group : AxisId) (p : Placed) : Bundle → Bundle
  | .loose e => .loose e
  | .cluster g members => .cluster g (if g = group then members ++ [p] else members)

/-- A bundle keeps its loop. -/
@[simp]
theorem Bundle.group?_put (group : AxisId) (p : Placed) (u : Bundle) :
    (u.put group p).group? = u.group? := by
  cases u <;> rfl

/-- Other loops do not take an expression in. -/
theorem Bundle.placed_put_of_ne {group : AxisId} {u : Bundle} (h : u.group? ≠ some group)
    (p : Placed) : (u.put group p).placed = u.placed := by
  cases u with
  | loose e => rfl
  | cluster g members =>
      have hne : g ≠ group := fun heq => h (heq ▸ rfl)
      simp [Bundle.put, Bundle.placed, hne]

/-- Its own loop takes an expression in, behind the others. -/
theorem Bundle.placed_put_of_eq {group : AxisId} {u : Bundle} (h : u.group? = some group)
    (p : Placed) : (u.put group p).placed = u.placed ++ [p.enter group] := by
  cases u with
  | loose e => cases h
  | cluster g members =>
      cases h
      simp [Bundle.put, Bundle.placed]

/-- An expression becomes a bundle of its own, or joins the cluster of its next loop. -/
theorem addBundle_cases (bundles : List Bundle) (p : Placed) :
    (∃ u : Bundle, u.placed = [p] ∧ (∀ g, u.group? = some g →
        g ∉ bundles.filterMap Bundle.group?) ∧ addBundle bundles p = bundles ++ [u]) ∨
      ∃ group rest, p = Placed.enter group ⟨p.expr, rest⟩ ∧
        group ∈ bundles.filterMap Bundle.group? ∧
          addBundle bundles p = bundles.map (Bundle.put group ⟨p.expr, rest⟩) := by
  obtain ⟨e, loops⟩ := p
  cases loops with
  | nil => exact .inl ⟨.loose e, rfl, by simp [Bundle.group?], rfl⟩
  | cons group rest =>
      rw [addBundle]
      dsimp only
      split
      case isTrue hany =>
          obtain ⟨u, hu, hgroup⟩ := List.any_eq_true.1 hany
          refine .inr ⟨group, rest, rfl, List.mem_filterMap.2 ⟨u, hu, ?_⟩, ?_⟩
          · cases u with
            | loose d => cases hgroup
            | cluster g members => exact congrArg some (eq_of_beq hgroup)
          · apply List.map_congr_left
            intro w _
            cases w with
            | loose d => rfl
            | cluster g members =>
                by_cases hg : g = group <;> simp [Bundle.put, hg]
      case isFalse hany =>
          refine .inl ⟨.cluster group [⟨e, rest⟩], rfl, ?_, rfl⟩
          rintro g hg hmem
          cases hg
          obtain ⟨u, hu, hgroup⟩ := List.mem_filterMap.1 hmem
          apply hany
          apply List.any_eq_true.2
          refine ⟨u, hu, ?_⟩
          cases u with
          | loose d => cases hgroup
          | cluster g members =>
              cases hgroup
              exact beq_self_eq_true group

/-- Bundles of expressions, with one cluster for each loop. -/
structure Bundles (items : List Placed) (bundles : List Bundle) : Prop where
  placed : (bundles.flatMap Bundle.placed).Perm items
  groups : (bundles.filterMap Bundle.group?).Nodup

/-- An expression that joins one of several clusters is in all of them together. -/
theorem flatMap_placed_put {group : AxisId} {p : Placed}
    (hgroups : (bundles.filterMap Bundle.group?).Nodup)
    (hmem : group ∈ bundles.filterMap Bundle.group?) :
    ((bundles.map (Bundle.put group p)).flatMap Bundle.placed).Perm
      (bundles.flatMap Bundle.placed ++ [p.enter group]) := by
  induction bundles with
  | nil => cases hmem
  | cons u bundles ih =>
      rw [List.map_cons, List.flatMap_cons, List.flatMap_cons]
      by_cases hu : u.group? = some group
      · -- the clusters behind it are of other groups
        have hothers : ∀ w ∈ bundles, w.group? ≠ some group := by
          intro w hw heq
          rw [List.filterMap_cons_some hu] at hgroups
          exact (List.nodup_cons.1 hgroups).1 (List.mem_filterMap.2 ⟨w, hw, heq⟩)
        have hrest : (bundles.map (Bundle.put group p)).flatMap Bundle.placed =
            bundles.flatMap Bundle.placed := by
          rw [List.flatMap_map]
          exact List.flatMap_congr fun w hw => Bundle.placed_put_of_ne (hothers w hw) p
        rw [hrest, Bundle.placed_put_of_eq hu, List.append_assoc, List.append_assoc]
        exact List.Perm.append_left _ List.perm_append_comm
      · have hgroups' : (bundles.filterMap Bundle.group?).Nodup :=
          ((List.sublist_cons_self u bundles).filterMap _).nodup hgroups
        have hmem' : group ∈ bundles.filterMap Bundle.group? := by
          obtain ⟨w, hw, hgroup⟩ := List.mem_filterMap.1 hmem
          rcases List.mem_cons.1 hw with rfl | hw
          · exact absurd hgroup hu
          · exact List.mem_filterMap.2 ⟨w, hw, hgroup⟩
        rw [Bundle.placed_put_of_ne hu, List.append_assoc]
        exact List.Perm.append_left _ (ih hgroups' hmem')

/-- One more expression joins the bundle of its loop, or opens one. -/
theorem Bundles.add (h : Bundles items bundles) (p : Placed) :
    Bundles (items ++ [p]) (addBundle bundles p) := by
  rcases addBundle_cases bundles p with ⟨u, hplaced, hgroup, heq⟩ | ⟨group, rest, hp, hmem, heq⟩
  · rw [heq]
    constructor
    · rw [List.flatMap_append, List.flatMap_singleton, hplaced]
      exact h.placed.append_right [p]
    · rw [List.filterMap_append, List.nodup_append]
      refine ⟨h.groups, ?_, ?_⟩
      · cases hu : u.group? <;> simp [hu]
      · intro a ha b hb hab
        obtain ⟨w, hw, hb⟩ := List.mem_filterMap.1 hb
        rw [List.mem_singleton.1 hw] at hb
        exact hgroup b hb (hab ▸ ha)
  · rw [heq]
    constructor
    · rw [hp]
      exact (flatMap_placed_put h.groups hmem).trans (h.placed.append_right _)
    · simpa [List.filterMap_map, Function.comp_def] using h.groups

/-- Adding all expressions, one after another. -/
theorem bundles_foldl (items : List Placed) : Bundles items (items.foldl addBundle []) := by
  have hrun : ∀ done bundles, Bundles done bundles →
      Bundles (done ++ items) (items.foldl addBundle bundles) := by
    induction items with
    | nil => simp
    | cons p items ih =>
        intro done bundles h
        have hrest := ih _ _ (h.add p)
        rwa [List.append_assoc] at hrest
  exact hrun [] [] ⟨.nil, .nil⟩

/-- What is bundled was to be arranged. -/
theorem Bundles.mem_items (h : Bundles items bundles) {u : Bundle} {p : Placed} (hu : u ∈ bundles)
    (hp : p ∈ u.placed) : p ∈ items :=
  h.placed.subset (List.mem_flatMap_of_mem hu hp)

/-! ## The order of bundles -/

/-- A bundle reads what another one computes. -/
def Bundle.Awaits (f : Fusion) (u w : Bundle) : Prop :=
  ∃ e ∈ u.exprs, ∃ d ∈ w.exprs, f.Awaits e d

/-- A bundle waits for others just if one of its expressions does. -/
theorem waitsFor_iff {u : Bundle} : waitsFor f u bundles = true ↔ ∃ w ∈ bundles, u.Awaits f w := by
  unfold waitsFor
  simp only [List.any_eq_true]
  constructor
  · rintro ⟨e, he, v, hv, hd⟩
    split at hd
    case h_1 d hdef =>
        obtain ⟨w, hw, hmem⟩ := List.any_eq_true.1 hd
        exact ⟨w, hw, e, he, d, by simpa using hmem, v, hv, hdef⟩
    case h_2 => cases hd
  · rintro ⟨w, hw, e, he, d, hd, v, hv, hdef⟩
    refine ⟨e, he, v, hv, ?_⟩
    rw [hdef]
    exact List.any_eq_true.2 ⟨w, hw, by simpa using hd⟩

/-- What is taken waits for none of the others. -/
theorem takeReady_eq_some {skipped rest : List Bundle} {u : Bundle}
    (h : takeReady f skipped bundles = some (u, rest)) :
    (u :: rest).Perm (skipped ++ bundles) ∧ ∀ w ∈ rest, ¬ u.Awaits f w := by
  induction bundles generalizing skipped with
  | nil => cases h
  | cons b bundles ih =>
      rw [takeReady] at h
      split at h
      case isTrue => simpa using ih h
      case isFalse hready =>
          cases h
          constructor
          · exact List.perm_middle.symm
          · intro w hw hawaits
            exact hready (waitsFor_iff.2 ⟨w, hw, hawaits⟩)

/-- If nothing is taken, all bundles wait for others. -/
theorem takeReady_eq_none {skipped : List Bundle} (h : takeReady f skipped bundles = none) :
    ∀ u ∈ bundles, ∃ others, (u :: others).Perm (skipped ++ bundles) ∧
      ∃ w ∈ others, u.Awaits f w := by
  induction bundles generalizing skipped with
  | nil => simp
  | cons b bundles ih =>
      rw [takeReady] at h
      split at h
      case isTrue hwaits =>
          intro u hu
          rcases List.mem_cons.1 hu with rfl | hu
          · exact ⟨skipped ++ bundles, List.perm_middle.symm, waitsFor_iff.1 hwaits⟩
          · simpa using ih h u hu
      case isFalse => cases h

/-- Ordered bundles wait for earlier ones only. -/
theorem orderBundles_eq_ok {fuel : Nat} {ordered : List Bundle}
    (h : orderBundles f fuel bundles = .ok ordered) :
    ordered.Perm bundles ∧ ordered.Pairwise fun u w => ¬ u.Awaits f w := by
  fun_induction orderBundles f fuel bundles generalizing ordered with
  | case1 =>
      cases h
      simp
  | case2 => cases h
  | case3 => cases h
  | case4 fuel bundles hne u rest hready ih =>
      obtain ⟨hperm, hfirst⟩ := takeReady_eq_some hready
      cases hothers : orderBundles f fuel rest with
      | error stuck =>
          rw [hothers] at h
          cases h
      | ok others =>
          rw [hothers] at h
          cases h
          obtain ⟨hrest, hpairwise⟩ := ih hothers
          constructor
          · exact (hrest.cons u).trans hperm
          · apply List.pairwise_cons.2
            exact ⟨fun w hw => hfirst w (hrest.subset hw), hpairwise⟩

/-- Stuck bundles wait for each other. -/
theorem orderBundles_eq_error {fuel : Nat} {stuck : List Bundle} (hfuel : bundles.length ≤ fuel)
    (h : orderBundles f fuel bundles = .error stuck) :
    stuck ≠ [] ∧ (∃ done, (done ++ stuck).Perm bundles) ∧
      ∀ u ∈ stuck, ∃ others, (u :: others).Perm stuck ∧ ∃ w ∈ others, u.Awaits f w := by
  fun_induction orderBundles f fuel bundles generalizing stuck with
  | case1 => cases h
  | case2 bundles hne => simp_all
  | case3 fuel bundles hne hnone =>
      cases h
      refine ⟨by simpa using hne, ⟨[], .refl _⟩, ?_⟩
      exact takeReady_eq_none hnone
  | case4 fuel bundles hne u rest hready ih =>
      obtain ⟨hperm, -⟩ := takeReady_eq_some hready
      have hlength : rest.length ≤ fuel := by
        have := hperm.length_eq
        simp only [List.length_cons, List.nil_append] at this
        omega
      cases hothers : orderBundles f fuel rest with
      | ok others =>
          rw [hothers] at h
          cases h
      | error stuck' =>
          rw [hothers] at h
          cases h
          obtain ⟨hstuck, ⟨done, hdone⟩, hwait⟩ := ih hlength hothers
          exact ⟨hstuck, ⟨u :: done, (hdone.cons u).trans hperm⟩, hwait⟩

/-- Positions at which operands come first and expressions that share their outermost loops
stand together. -/
structure Orderly (f : Fusion) (pos : ExprId → Nat) (items : List Placed) : Prop where
  operands : ∀ p ∈ items, ∀ q ∈ items, f.Awaits p.expr q.expr → pos q.expr < pos p.expr
  together : ∀ p ∈ items, ∀ q ∈ items, ∀ r ∈ items, pos p.expr ≤ pos q.expr →
    pos q.expr ≤ pos r.expr → ∀ groups, groups <+: p.loops → groups <+: r.loops →
      groups <+: q.loops

/-- Fewer expressions are in order too. -/
theorem Orderly.mono {items' : List Placed} (h : Orderly f pos items) (hsub : items' ⊆ items) :
    Orderly f pos items' where
  operands p hp q hq := h.operands p (hsub hp) q (hsub hq)
  together p hp q hq r hr := h.together p (hsub hp) q (hsub hq) r (hsub hr)

/-- Expressions of one loop can be brought into order if they can with the loop around them. -/
theorem Orderly.of_enter {group : AxisId} {members : List Placed}
    (h : Orderly f pos (members.map (Placed.enter group))) : Orderly f pos members where
  operands p hp q hq :=
    h.operands (p.enter group) (List.mem_map_of_mem hp) (q.enter group) (List.mem_map_of_mem hq)
  together p hp q hq r hr hpq hqr groups hgp hgr := by
    have hinside := h.together (p.enter group) (List.mem_map_of_mem hp) (q.enter group)
      (List.mem_map_of_mem hq) (r.enter group) (List.mem_map_of_mem hr) hpq hqr (group :: groups)
    simp only [Placed.loops_enter, List.cons_prefix_cons, true_and] at hinside
    exact hinside hgp hgr

/-- What lies between two expressions of a bundle is in that bundle. -/
theorem Bundles.not_between (h : Bundles items bundles) (horderly : Orderly f pos items)
    {u w : Bundle} {others : List Bundle} (hperm : (u :: others).Perm bundles) (hw : w ∈ others)
    {e d e' : ExprId} (he : e ∈ u.exprs) (hd : d ∈ w.exprs) (he' : e' ∈ u.exprs)
    (hlow : pos e ≤ pos d) : pos e' ≤ pos d := by
  obtain ⟨p, hp, rfl⟩ := Bundle.mem_exprs.1 he
  obtain ⟨q, hq, rfl⟩ := Bundle.mem_exprs.1 hd
  obtain ⟨r, hr, rfl⟩ := Bundle.mem_exprs.1 he'
  have hu : u ∈ bundles := hperm.subset List.mem_cons_self
  have hw' : w ∈ bundles := hperm.subset (List.mem_cons_of_mem u hw)
  by_contra hhigh
  cases u with
  | loose e =>
      rw [Bundle.placed, List.mem_singleton] at hp hr
      subst hp hr
      exact hhigh hlow
  | cluster group members =>
      -- the expression in between is in the loop of the cluster, so in the cluster
      have hstart : ∀ p ∈ (Bundle.cluster group members).placed, [group] <+: p.loops := by
        intro p hp
        obtain ⟨p', -, rfl⟩ := List.mem_map.1 hp
        exact List.cons_prefix_cons.2 ⟨rfl, List.nil_prefix⟩
      have hshared := horderly.together p (h.mem_items hu hp) q (h.mem_items hw' hq) r
        (h.mem_items hu hr) hlow (by omega) [group] (hstart p hp) (hstart r hr)
      have hgroup : w.group? = some group := by
        rw [← Bundle.group?_of_mem hq]
        cases hloops : q.loops with
        | nil => simp [hloops] at hshared
        | cons g rest =>
            rw [hloops, List.cons_prefix_cons] at hshared
            simp [hshared.1]
      have hnodup := (hperm.filterMap Bundle.group?).nodup_iff.2 h.groups
      rw [List.filterMap_cons_some (show (Bundle.cluster group members).group? = _ from rfl)]
        at hnodup
      exact (List.nodup_cons.1 hnodup).1 (List.mem_filterMap.2 ⟨w, hw, hgroup⟩)

/-- Among bundles of expressions that can be brought into order, one waits for no other: the one
of the first expression. -/
theorem Bundles.exists_ready (h : Bundles items bundles) (horderly : Orderly f pos items)
    {u₀ : Bundle} (hu₀ : u₀ ∈ bundles) (hexprs : u₀.exprs ≠ []) :
    ∃ u others, (u :: others).Perm bundles ∧ ∀ w ∈ others, ¬ u.Awaits f w := by
  obtain ⟨e₀, he₀⟩ := List.exists_mem_of_ne_nil _ hexprs
  obtain ⟨e, he, hmin⟩ := Finset.exists_min_image (bundles.flatMap Bundle.exprs).toFinset pos
    ⟨e₀, by simpa using ⟨u₀, hu₀, he₀⟩⟩
  rw [List.mem_toFinset, List.mem_flatMap] at he
  obtain ⟨u, hu, he⟩ := he
  obtain ⟨before, after, rfl⟩ := List.append_of_mem hu
  refine ⟨u, before ++ after, List.perm_middle.symm, ?_⟩
  rintro w hw ⟨e', he', d, hd, hawaits⟩
  have hw' : w ∈ before ++ u :: after :=
    List.perm_middle.symm.subset (List.mem_cons_of_mem u hw)
  have hlow : pos e ≤ pos d :=
    hmin d (List.mem_toFinset.2 (List.mem_flatMap.2 ⟨w, hw', hd⟩))
  have hhigh : pos e' ≤ pos d := h.not_between horderly List.perm_middle.symm hw he hd he' hlow
  obtain ⟨p, hp, rfl⟩ := Bundle.mem_exprs.1 he'
  obtain ⟨q, hq, rfl⟩ := Bundle.mem_exprs.1 hd
  have := horderly.operands p (h.mem_items hu hp) q (h.mem_items hw' hq) hawaits
  omega

/-- Bundles that are stuck cannot be brought into order. -/
theorem Bundles.not_orderly_of_stuck (h : Bundles items bundles) {stuck : List Bundle}
    (hstuck : orderBundles f bundles.length bundles = .error stuck) : ¬ Orderly f pos items := by
  intro horderly
  obtain ⟨hne, ⟨done, hdone⟩, hwait⟩ := orderBundles_eq_error (Nat.le_refl _) hstuck
  have hsub : stuck.flatMap Bundle.placed ⊆ items := by
    intro p hp
    obtain ⟨u, hu, hp⟩ := List.mem_flatMap.1 hp
    exact h.mem_items (hdone.subset (List.mem_append_right done hu)) hp
  have hgroups : (stuck.filterMap Bundle.group?).Nodup := by
    have hall := (hdone.filterMap Bundle.group?).nodup_iff.2 h.groups
    rw [List.filterMap_append] at hall
    exact (List.nodup_append.1 hall).2.1
  obtain ⟨u₀, hu₀⟩ := List.exists_mem_of_ne_nil _ hne
  have hexprs : u₀.exprs ≠ [] := by
    obtain ⟨-, -, -, -, e, he, -⟩ := hwait u₀ hu₀
    exact List.ne_nil_of_mem he
  obtain ⟨u, others, hperm, hready⟩ :=
    Bundles.exists_ready ⟨.refl _, hgroups⟩ (horderly.mono hsub) hu₀ hexprs
  obtain ⟨others', hperm', w, hw, hawaits⟩ := hwait u (hperm.subset List.mem_cons_self)
  have hsame : others'.Perm others := (hperm'.trans hperm.symm).cons_inv
  exact hready w (hsame.subset hw) hawaits

/-- Expressions that cannot be arranged cannot be brought into order. -/
theorem arrangeWith_eq_error {fuel : Nat} {err : LowerError}
    (h : arrangeWith f fuel items = .error err) :
    (∃ tensors, err = .loopNestCycle tensors) ∧ ∀ pos, ¬ Orderly f pos items := by
  induction fuel generalizing items with
  | zero => cases h
  | succ fuel ih =>
      have hbundles := bundles_foldl items
      rw [arrangeWith] at h
      dsimp only at h
      split at h
      case h_1 stuck hstuck =>
          cases h
          exact ⟨⟨_, rfl⟩, fun pos => hbundles.not_orderly_of_stuck hstuck⟩
      case h_2 ordered hordered =>
          obtain ⟨u, hu, herr⟩ := Results.mapM_eq_error h
          have hmem := (orderBundles_eq_ok hordered).1.subset hu
          cases u with
          | loose e => cases herr
          | cluster group members =>
              cases hmembers : arrangeWith f fuel members with
              | ok children =>
                  dsimp only at herr
                  rw [hmembers] at herr
                  cases herr
              | error err' =>
                  dsimp only at herr
                  rw [hmembers] at herr
                  cases herr
                  obtain ⟨hcycle, hnone⟩ := ih hmembers
                  refine ⟨hcycle, fun pos horderly => hnone pos ?_⟩
                  apply Orderly.of_enter
                  exact horderly.mono fun p hp => hbundles.mem_items hmem hp

/-! ## Trees -/

mutual

/-- The expressions of a tree in order, each with the loops around it, outermost first. -/
def placements : LoopTree → List Placed
  | .expr e => [⟨e, []⟩]
  | .loop group children => (placementsAll children).map (Placed.enter group)

/-- The expressions of trees in order, each with the loops around it. -/
def placementsAll : List LoopTree → List Placed
  | [] => []
  | t :: rest => placements t ++ placementsAll rest

end

mutual

/-- The expressions of a tree are those that it places. -/
theorem map_expr_placements : ∀ t : LoopTree, t.placements.map (·.expr) = t.exprs
  | .expr _ => rfl
  | .loop group children => by
      rw [placements, exprs, ← map_expr_placementsAll children, List.map_map]
      rfl

/-- The expressions of several trees are those that they place. -/
theorem map_expr_placementsAll : ∀ ts : List LoopTree,
    (placementsAll ts).map (·.expr) = exprsAll ts
  | [] => rfl
  | t :: rest => by
      rw [placementsAll, exprsAll, List.map_append, map_expr_placements t,
        map_expr_placementsAll rest]

end

/-- The expressions that share their outermost loops stand together. -/
def Contiguous (placed : List Placed) : Prop :=
  ∀ groups : List AxisId, (placed.filter fun p => groups <+: p.loops) <:+: placed

/-- Nothing is contiguous. -/
theorem contiguous_nil : Contiguous [] :=
  fun _ => List.nil_infix

/-- One expression is contiguous. -/
theorem contiguous_singleton (p : Placed) : Contiguous [p] := by
  intro groups
  by_cases hp : groups <+: p.loops <;> simp [hp]

/-- Expressions in an order in which none reads a later one and those that share their outermost
loops stand together. -/
structure Arranged (f : Fusion) (items placed : List Placed) : Prop where
  perm : placed.Perm items
  ordered : placed.Pairwise fun p q => ¬ f.Awaits p.expr q.expr
  contiguous : Contiguous placed

/-- A loop around all expressions keeps them contiguous. -/
theorem Contiguous.enter {placed : List Placed} (h : Contiguous placed) (group : AxisId) :
    Contiguous (placed.map (Placed.enter group)) := by
  intro groups
  rw [List.filter_map]
  cases groups with
  | nil => simp [Function.comp_def]
  | cons g groups =>
      by_cases hg : g = group
      · simpa [Function.comp_def, hg] using (h groups).map (Placed.enter group)
      · simp [Function.comp_def, hg]

/-- A loop around all expressions keeps them arranged. -/
theorem Arranged.enter {members placed : List Placed} (h : Arranged f members placed)
    (group : AxisId) :
    Arranged f (members.map (Placed.enter group)) (placed.map (Placed.enter group)) where
  perm := h.perm.map _
  ordered := by simpa [List.pairwise_map] using h.ordered
  contiguous := h.contiguous.enter group

/-- Expressions of bundles with other groups share no loop with those of a cluster. -/
theorem filter_eq_nil_of_group {placed : List Placed} {g : AxisId} {groups : List AxisId}
    (h : ∀ p ∈ placed, p.loops.head? ≠ some g) :
    (placed.filter fun p => (g :: groups) <+: p.loops) = [] := by
  rw [List.filter_eq_nil_iff]
  intro p hp hstart
  apply h p hp
  obtain ⟨rest, heq⟩ := of_decide_eq_true hstart
  rw [← heq]
  rfl

/-- Trees of ordered bundles, one after the other, arrange what the bundles have. -/
theorem Arranged.all {ts : List LoopTree}
    (h : List.Forall₂ (fun u t => Arranged f u.placed t.placements) bundles ts)
    (horder : bundles.Pairwise fun u w => ¬ u.Awaits f w)
    (hgroups : (bundles.filterMap Bundle.group?).Nodup) :
    Arranged f (bundles.flatMap Bundle.placed) (placementsAll ts) := by
  induction h with
  | nil => exact ⟨.nil, .nil, contiguous_nil⟩
  | @cons u t bundles ts ht hts ih =>
      obtain ⟨hfirst, horder⟩ := List.pairwise_cons.1 horder
      have hrest := ih horder (((List.sublist_cons_self u bundles).filterMap _).nodup hgroups)
      constructor
      · exact ht.perm.append hrest.perm
      · refine List.pairwise_append.2 ⟨ht.ordered, hrest.ordered, ?_⟩
        intro p hp q hq hawaits
        obtain ⟨w, hw, hq⟩ := List.mem_flatMap.1 (hrest.perm.subset hq)
        apply hfirst w hw
        exact ⟨p.expr, Bundle.mem_exprs.2 ⟨p, ht.perm.subset hp, rfl⟩, q.expr,
          Bundle.mem_exprs.2 ⟨q, hq, rfl⟩, hawaits⟩
      · intro groups
        rw [placementsAll, List.filter_append]
        cases groups with
        | nil => simp
        | cons g groups =>
            by_cases hu : u.group? = some g
            · -- all the others are in other loops
              have hothers : ∀ p ∈ placementsAll ts, p.loops.head? ≠ some g := by
                intro p hp heq
                obtain ⟨w, hw, hp⟩ := List.mem_flatMap.1 (hrest.perm.subset hp)
                rw [Bundle.group?_of_mem hp] at heq
                rw [List.filterMap_cons_some hu] at hgroups
                exact (List.nodup_cons.1 hgroups).1 (List.mem_filterMap.2 ⟨w, hw, heq⟩)
              rw [filter_eq_nil_of_group hothers, List.append_nil]
              exact (ht.contiguous (g :: groups)).trans (List.prefix_append _ _).isInfix
            · have hnone : ∀ p ∈ t.placements, p.loops.head? ≠ some g := by
                intro p hp
                rwa [Bundle.group?_of_mem (ht.perm.subset hp)]
              rw [filter_eq_nil_of_group hnone, List.nil_append]
              exact (hrest.contiguous (g :: groups)).trans (List.suffix_append _ _).isInfix

/-- Trees arrange the expressions they are built from. -/
theorem arrangeWith_eq_ok {fuel : Nat} {ts : List LoopTree}
    (hfuel : ∀ p ∈ items, p.loops.length < fuel) (h : arrangeWith f fuel items = .ok ts) :
    Arranged f items (placementsAll ts) := by
  induction fuel generalizing items ts with
  | zero =>
      have hnone : items = [] := List.eq_nil_iff_forall_not_mem.2 fun p hp => by simpa using hfuel p hp
      subst hnone
      cases h
      exact ⟨.nil, .nil, contiguous_nil⟩
  | succ fuel ih =>
      have hbundles := bundles_foldl items
      rw [arrangeWith] at h
      dsimp only at h
      split at h
      case h_1 => cases h
      case h_2 ordered hordered =>
          obtain ⟨hperm, hready⟩ := orderBundles_eq_ok hordered
          have htrees : List.Forall₂ (fun u t => Arranged f u.placed t.placements) ordered ts := by
            have heach := (List.forall₂_and_left ordered ts).2
              ⟨fun u hu => hperm.subset hu, Results.forall₂_mapM h⟩
            refine heach.imp ?_
            rintro u t ⟨hu, htree⟩
            cases u with
            | loose e =>
                cases htree
                exact ⟨.refl _, List.pairwise_singleton _ _, contiguous_singleton _⟩
            | cluster group members =>
                obtain ⟨children, hchildren, htree⟩ := Results.bind_eq_ok.1 htree
                cases htree
                have hmembers := ih (fun p hp => ?_) hchildren
                · exact hmembers.enter group
                · have hmem : p.enter group ∈ items :=
                    hbundles.mem_items hu (List.mem_map_of_mem hp)
                  simpa using hfuel _ hmem
          have hgroups := (hperm.filterMap Bundle.group?).nodup_iff.2 hbundles.groups
          obtain ⟨hall, hpairwise, hcontiguous⟩ := Arranged.all htrees hready hgroups
          refine ⟨?_, hpairwise, hcontiguous⟩
          exact hall.trans ((hperm.flatMap_right Bundle.placed).trans hbundles.placed)

/-! ## Building trees -/

variable {m : LoopGroups} {es : List ExprId}

/-- Placing keeps the expressions and their order. -/
theorem map_expr_place (f : Fusion) (m : LoopGroups) (es : List ExprId) :
    (es.map (place f m)).map (·.expr) = es := by
  simp [place, Function.comp_def]

/-- The maximum is no less than any of the numbers. -/
theorem le_foldl_max {l : List Nat} {n b : Nat} (h : n ≤ b ∨ n ∈ l) : n ≤ l.foldl Max.max b := by
  induction l generalizing b with
  | nil => simpa using h
  | cons a l ih =>
      apply ih
      rcases h with h | h
      · exact .inl (Nat.le_trans h (Nat.le_max_left b a))
      · rcases List.mem_cons.1 h with rfl | h
        · exact .inl (Nat.le_max_right b n)
        · exact .inr h

/-- The elements of a part of a list are those between its ends. -/
theorem mem_infix_iff {α : Type} {s part t l : List α} (hl : l.Nodup) (heq : s ++ part ++ t = l)
    {i : Nat} (hi : i < l.length) :
    l[i] ∈ part ↔ s.length ≤ i ∧ i < s.length + part.length := by
  subst heq
  constructor
  · intro hmem
    obtain ⟨k, hk, hpart⟩ := List.getElem_of_mem hmem
    have hshift : s.length + k < (s ++ part ++ t).length := by
      simp only [List.length_append]
      omega
    have hsame : (s ++ part ++ t)[s.length + k] = part[k] := by
      rw [List.getElem_append_left (by simpa using hk), List.getElem_append_right (by omega)]
      simp
    have : s.length + k = i := hl.getElem_inj_iff.1 (hsame.trans hpart)
    omega
  · rintro ⟨hlow, hhigh⟩
    rw [List.getElem_append_left (by simpa using hhigh), List.getElem_append_right hlow]
    exact List.getElem_mem _

/-- Positions in an order of the expressions in which operands come first and those that share
their outermost loops stand together. -/
theorem orderly_idxOf {l : List ExprId} (hl : l.Nodup) (horder : f.OperandsFirst l)
    (htogether : Contiguous (l.map (place f m))) :
    Orderly f l.idxOf (l.map (place f m)) := by
  have hindex : ∀ p ∈ l.map (place f m), ∃ i, ∃ hi : i < l.length, l.idxOf p.expr = i ∧
      p = place f m l[i] := by
    intro p hp
    obtain ⟨e, he, rfl⟩ := List.mem_map.1 hp
    obtain ⟨i, hi, rfl⟩ := List.getElem_of_mem he
    exact ⟨i, hi, hl.idxOf_getElem i hi, rfl⟩
  constructor
  · intro p hp q hq hawaits
    obtain ⟨i, hi, hpos, rfl⟩ := hindex p hp
    obtain ⟨j, hj, hpos', rfl⟩ := hindex q hq
    rw [hpos, hpos']
    exact (operandsFirst_iff hl).1 horder i j hi hj hawaits
  · intro p hp q hq r hr hpq hqr groups hgp hgr
    obtain ⟨i, hi, hpos, rfl⟩ := hindex p hp
    obtain ⟨j, hj, hpos', rfl⟩ := hindex q hq
    obtain ⟨k, hk, hpos'', rfl⟩ := hindex r hr
    rw [hpos, hpos'] at hpq
    rw [hpos', hpos''] at hqr
    obtain ⟨s, t, heq⟩ := htogether groups
    -- the expressions inside these loops are a part of the list
    have hpart : ∀ i, ∀ hi : i < l.length, groups <+: (place f m l[i]).loops ↔
        s.length ≤ i ∧ i < s.length +
          ((l.map (place f m)).filter fun p => groups <+: p.loops).length := by
      intro i hi
      have hplaced : (l.map (place f m)).Nodup := by
        apply List.Nodup.of_map (·.expr)
        rwa [map_expr_place]
      have hi' : i < (l.map (place f m)).length := by simpa using hi
      rw [← mem_infix_iff hplaced heq hi', List.mem_filter, List.getElem_map]
      have hmem : place f m l[i] ∈ l.map (place f m) := List.mem_map_of_mem (List.getElem_mem hi)
      simp [hmem]
    rw [hpart] at hgp hgr ⊢
    omega

/-- Trees arrange the placed expressions. -/
theorem arranged_build {ts : List LoopTree} (h : build f m es = .ok ts) :
    Arranged f (es.map (place f m)) (placementsAll ts) := by
  apply arrangeWith_eq_ok ?_ h
  intro p hp
  apply Nat.lt_succ_of_le
  apply le_foldl_max
  exact .inr (List.mem_map_of_mem hp)

/-- Trees have the expressions they are built from, each once. -/
theorem exprsAll_perm {ts : List LoopTree} (h : build f m es = .ok ts) : (exprsAll ts).Perm es := by
  have hmap := (arranged_build h).perm.map (·.expr)
  rwa [map_expr_placementsAll, map_expr_place] at hmap

/-- A tree is an order of its expressions in which operands come first, those that share their
outermost loops stand together, and each is inside the loops of the leaves of the tensor it
computes.  Where no tree is built there is no such order, and the expressions that wait for each
other are reported. -/
theorem build_arranges (hnodup : es.Nodup) (horder : f.OperandsFirst es) :
    (∀ ts, build f m es = .ok ts → (exprsAll ts).Perm es ∧ f.OperandsFirst (exprsAll ts) ∧
      placementsAll ts = (exprsAll ts).map (place f m) ∧ Contiguous (placementsAll ts)) ∧
    ∀ err, build f m es = .error err → (∃ tensors, err = .loopNestCycle tensors) ∧
      ∀ l : List ExprId, l.Perm es → f.OperandsFirst l → ¬ Contiguous (l.map (place f m)) := by
  constructor
  · intro ts h
    have harranged := arranged_build h
    have hperm := exprsAll_perm h
    refine ⟨hperm, ?_, ?_, harranged.contiguous⟩
    · rw [operandsFirst_iff (hperm.nodup_iff.2 hnodup)]
      intro i j hi hj hawaits
      have hordered : (exprsAll ts).Pairwise fun e d => ¬ f.Awaits e d := by
        rw [← map_expr_placementsAll, List.pairwise_map]
        exact harranged.ordered
      have hlt : j ≤ i := by
        by_contra hlt
        exact List.pairwise_iff_getElem.1 hordered i j hi hj (by omega) hawaits
      have hne : j ≠ i := by
        rintro rfl
        obtain ⟨k, hk, heq⟩ := List.getElem_of_mem (hperm.subset (List.getElem_mem hj))
        have := (operandsFirst_iff hnodup).1 horder k k hk hk (by rwa [heq])
        omega
      omega
    · rw [← map_expr_placementsAll, List.map_map]
      refine (List.map_id _).symm.trans (List.map_congr_left fun p hp => ?_)
      obtain ⟨e, -, rfl⟩ := List.mem_map.1 (harranged.perm.subset hp)
      rfl
  · intro err h
    obtain ⟨hcycle, hnone⟩ := arrangeWith_eq_error h
    refine ⟨hcycle, fun l hl horder' htogether => hnone l.idxOf ?_⟩
    exact (orderly_idxOf (hl.nodup_iff.2 hnodup) horder' htogether).mono
      (hl.map (place f m)).symm.subset

/-- The inlined copy and the flattened copy of a matrix share the rows of the second one. -/
theorem inlinedFlattening_arranges :
    ∃ f m, applyAll Schedule.replay inlinedFlattening {} = some f ∧ LoopGroups.build f = .ok m ∧
      f.tensorExprs.Nodup ∧ f.OperandsFirst f.tensorExprs ∧
        ∃ ts, build f m f.tensorExprs = .ok ts ∧ (exprsAll ts).Perm f.tensorExprs ∧
          f.OperandsFirst (exprsAll ts) ∧ placementsAll ts = (exprsAll ts).map (place f m) ∧
            Contiguous (placementsAll ts) := by
  have hrun : (applyAll Schedule.replay inlinedFlattening {}).any (fun f =>
      (LoopGroups.build f).toOption.any fun m =>
        (build f m f.tensorExprs).toOption.isSome) = true := by
    cbv
  obtain ⟨f, hf, hrun⟩ := (Option.any_eq_true _ _).1 hrun
  obtain ⟨m, hm, hrun⟩ := (Option.any_eq_true _ _).1 hrun
  obtain ⟨ts, hts⟩ := Option.isSome_iff_exists.1 hrun
  have hfounded := (applyAll_wired hf).founded (applyAll_sound hf)
  have hnodup := hfounded.tensorExprs_nodup
  have horder := hfounded.operandsFirst_tensorExprs
  have hts := Results.ok_of_toOption hts
  obtain ⟨hperm, hfirst, hplaced, htogether⟩ := (build_arranges hnodup horder).1 ts hts
  exact ⟨f, m, hf, Results.ok_of_toOption hm, hnodup, horder, ts, hts, hperm, hfirst, hplaced,
    htogether⟩

end LoopTree
end FusionCompiler
