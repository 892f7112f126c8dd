import FusionCompiler.Proofs.Heuristic.Tilings
import FusionCompiler.Proofs.Lower.VectorAccesses

/-!
# Vectors of a point-wise schedule

A point-wise schedule that moves vectors copies its inputs and outputs, merges all axes of its
reference and splits the vectors off.  So the innermost leaf of the reference is what the
lowering asks of a leaf that runs over a vector: the inner half of an inner split of an axis
that was merged from all root axes.  Spreading the loops over the graph and binding them to
the launch leaves this alone.  What is left of the check are the bytes of a vector, which no
step looks at.

Main results:

- Theorem `LoopPlan.checkVectorized_iff`: the check accepts a copy that is tiled for vectors
  just if a vector fills at most sixteen bytes.
- Theorem `Heuristic.Pointwise.bindLoops_vectorTiled`: a point-wise schedule that moves vectors
  tiles its reference for them.
- Theorem `Heuristic.bindLoops_checkVectorized`: so the check accepts the reference just if a
  vector fills at most sixteen bytes.
-/

namespace FusionCompiler

open Fusion

/-! ## Tensors tiled for vectors -/

namespace Fusion

variable {f f' f₁ f₂ : Fusion} {v : ValueId} {a : AxisId} {l : List AxisId} {x : Transform}
  {n : Int}

/-- Only axes of the fusion come from transforms. -/
theorem Originates.hasAxis (h : f.Originates a x) : f.HasAxis a := by
  obtain ⟨t, -, horigin, -⟩ := h
  by_contra hnot
  have hnone : f.axis a = default := by
    simp [Fusion.axis, Array.getElem?_eq_none (Nat.not_lt.1 hnot)]
  rw [hnone] at horigin
  cases horigin

/-- Later steps that change no origin keep what made an axis. -/
theorem Originates.mono (h : f.Originates a x) (hext : Extends f f')
    (horigin : ∀ a, f.HasAxis a → (f'.axis a).origin = (f.axis a).origin) : f'.Originates a x := by
  have hhas := h.hasAxis
  obtain ⟨t, ht, hmade, rfl⟩ := h
  exact ⟨t, hext.hasTransform ht, (horigin a hhas).trans hmade, hext.transform t ht⟩

/-- The lowering reads the transform that an axis comes from. -/
theorem Originates.origin?_eq (h : f.Originates a x) : LoopPlan.origin? f a = some x := by
  obtain ⟨t, -, horigin, rfl⟩ := h
  rw [LoopPlan.origin?, horigin]
  rfl

/-- A literal is known. -/
theorem constInt?_of_const? {k : ValueId} (h : f.const? k = some (.int n)) :
    f.constInt? k = some n := by
  unfold constInt? evaluateInt evaluate evaluateWith
  simp [kind_of_const? h, Bindings.get?, Constant.toInt]
  rfl

/-- Steps that leave the loops of a tensor alone: its leaves, what they were made from, and what
computes the tensor. -/
structure KeepsLoops (v : ValueId) (f f' : Fusion) : Prop where
  ext : Extends f f'
  origin : ∀ a, f.HasAxis a → (f'.axis a).origin = (f.axis a).origin
  kind : ∀ a, f.HasAxis a → (f'.axis a).kind = (f.axis a).kind
  domain : (f'.view v).domain = (f.view v).domain
  definingExpr : f'.definingExpr? v = f.definingExpr? v

namespace KeepsLoops

/-- Doing nothing keeps loops. -/
protected theorem refl (v : ValueId) (f : Fusion) : KeepsLoops v f f :=
  ⟨.refl f, fun _ _ => rfl, fun _ _ => rfl, rfl, rfl⟩

/-- Steps one after another keep loops. -/
protected theorem trans (h : KeepsLoops v f₁ f₂) (h' : KeepsLoops v f₂ f') : KeepsLoops v f₁ f' :=
  ⟨h.ext.trans h'.ext, fun a ha => (h'.origin a (h.ext.hasAxis ha)).trans (h.origin a ha),
    fun a ha => (h'.kind a (h.ext.hasAxis ha)).trans (h.kind a ha), h'.domain.trans h.domain,
    h'.definingExpr.trans h.definingExpr⟩

end KeepsLoops

/-- An axis merged, one after another, from axes that no transform makes. -/
inductive MergedFrom (f : Fusion) : List AxisId → AxisId → Prop where
  | root {a : AxisId} (hhas : f.HasAxis a) (hnone : (f.axis a).origin = none) : MergedFrom f [a] a
  | merge {l : List AxisId} {outer inner out : AxisId} (houter : MergedFrom f l outer)
      (hhas : f.HasAxis inner) (hnone : (f.axis inner).origin = none)
      (hout : f.Originates out (.merge outer inner out)) : MergedFrom f (l ++ [inner]) out

namespace MergedFrom

/-- A merge has a part. -/
theorem length_pos (h : f.MergedFrom l a) : 0 < l.length := by
  cases h <;> simp

/-- Later steps that change no origin keep what an axis was merged from. -/
theorem mono (h : f.MergedFrom l a) (hext : Extends f f')
    (horigin : ∀ a, f.HasAxis a → (f'.axis a).origin = (f.axis a).origin) : f'.MergedFrom l a := by
  induction h with
  | root hhas hnone => exact .root (hext.hasAxis hhas) ((horigin _ hhas).trans hnone)
  | merge houter hhas hnone hout ih =>
      exact .merge ih (hext.hasAxis hhas) ((horigin _ hhas).trans hnone) (hout.mono hext horigin)

end MergedFrom

/-- A tensor without broadcasts and reductions of which the innermost leaf is the inner half of a
split, by a number, of an axis merged from all root axes.  All axes on the way are among those of
the fusion, which bounds their number. -/
structure VectorTiled (f : Fusion) (v : ValueId) (n : Int) : Prop where
  root : f.IteratedRoot v
  nodup : (f.view v).domain.root.Nodup
  rfactor : (f.view v).domain.rfactor = none
  size : 2 * (f.view v).domain.root.length ≤ f.axes.size + 1
  leaf : ∃ front input o k leaf, f.leaf v = front ++ [leaf] ∧ leaf ∉ front ∧
    f.Originates leaf (.split input o leaf k true) ∧
    f.MergedFrom (f.view v).domain.root input ∧ f.Literal (f.extent leaf) n

/-- A tensor stays tiled for vectors. -/
theorem VectorTiled.mono (h : f.VectorTiled v n) (hf : Sound f) (hk : KeepsLoops v f f') :
    f'.VectorTiled v n := by
  obtain ⟨front, input, o, k, leaf, hleaf, hnot, hsplit, hmerged, hliteral⟩ := h.leaf
  have hroot : (f'.view v).domain.root = (f.view v).domain.root := by rw [hk.domain]
  have hhas := hsplit.hasAxis
  refine ⟨fun a ha => ?_, hroot ▸ h.nodup, hk.domain ▸ h.rfactor, ?_,
    front, input, o, k, leaf, ?_, hnot, hsplit.mono hk.ext hk.origin, ?_, ?_⟩
  · rw [hroot] at ha
    rw [hk.kind a (hf.domains v a (List.mem_append_left _ (by simp [ha])))]
    exact h.root a ha
  · have haxes := hk.ext.axes
    have hsize := h.size
    rw [hroot]
    omega
  · rw [← hleaf]
    exact congrArg TensorDomain.leaf hk.domain
  · rw [hroot]
    exact hmerged.mono hk.ext hk.origin
  · rw [hk.ext.extent leaf hhas]
    exact hliteral.mono (hf.extents leaf hhas) hk.ext

end Fusion

namespace LoopPlan

variable {p : LoopPlan} {f : Fusion} {v : ValueId} {a : AxisId} {l : List AxisId} {e : Expr}

/-- A walk back from a merged axis finds what it was merged from, innermost axis first. -/
theorem mergedRoots?_cons (h : f.MergedFrom l a) (fuel : Nat) (rest : List AxisId) :
    mergedRoots? f (2 * l.length - 1 + fuel) (a :: rest) =
      (mergedRoots? f fuel rest).map (l.reverse ++ ·) := by
  induction h generalizing fuel rest with
  | @root a hhas hnone =>
      have hfuel : 2 * [a].length - 1 + fuel = fuel + 1 := Nat.add_comm 1 fuel
      rw [hfuel, mergedRoots?, origin?, hnone]
      rfl
  | @merge l outer inner out houter hhas hnone hout ih =>
      have hpos := houter.length_pos
      have hfuel : 2 * (l ++ [inner]).length - 1 + fuel = (2 * l.length - 1 + fuel) + 1 + 1 := by
        simp
        omega
      rw [hfuel, mergedRoots?, hout.origin?_eq]
      dsimp only
      rw [mergedRoots?, origin?, hnone]
      dsimp only [Option.map_none]
      rw [ih, Option.map_map]
      congr 1
      funext m
      simp

/-- A leaf that is tiled for vectors covers all root axes. -/
theorem vectorizedRoots_of_tiled {n : Int} (h : f.VectorTiled v n) {front : List AxisId}
    {leaf : AxisId} (hleaf : f.leaf v = front ++ [leaf]) :
    vectorizedRoots f v leaf = .ok (f.view v).domain.root.length := by
  obtain ⟨front', input, o, k, leaf', hleaf', -, hsplit, hmerged, -⟩ := h.leaf
  obtain rfl : leaf = leaf' := by
    have hlast := congrArg List.getLast? (hleaf.symm.trans hleaf')
    simpa using hlast
  have hshape := h.root.shape_eq h.rfactor
  have hpos := hmerged.length_pos
  have hconcrete : (f.view v).domain.root.filter (fun a => !(f.axis a).isBroadcast) =
      (f.view v).domain.root := by
    refine List.filter_eq_self.2 fun a ha => ?_
    rw [Axis.isBroadcast, h.root a ha]
    rfl
  have hwalk : mergedRoots? f (f.axes.size + 1) [input] =
      some (f.view v).domain.root.reverse := by
    have hsize := h.size
    rw [show f.axes.size + 1 = 2 * (f.view v).domain.root.length - 1 +
      (f.axes.size + 2 - 2 * (f.view v).domain.root.length) by omega, mergedRoots?_cons hmerged]
    simp [mergedRoots?]
  -- the axes that are found are the root axes, in another order
  have hperm : ((f.view v).domain.root.reverse.foldl addNew []).Perm (f.view v).domain.root := by
    refine (List.perm_ext_iff_of_nodup (nodup_foldl_addNew List.nodup_nil) h.nodup).2 fun a => ?_
    rw [mem_foldl_addNew, List.mem_reverse]
    simp
  unfold vectorizedRoots
  rw [hsplit.origin?_eq]
  dsimp only
  rw [if_pos rfl]
  refine Results.bind_eq_ok.2 ⟨input, rfl, ?_⟩
  rw [hwalk]
  simp only [hshape, List.filter_reverse, hconcrete, hperm.length_eq, Nat.sub_self, List.drop_zero]
  rw [if_pos]
  simpa [hpos, mem_foldl_addNew] using fun a ha => hperm.mem_iff.2 ha

/-- The check accepts a copy that is tiled for vectors of two or four elements, and of which no
other leaf runs over a vector, just if a vector fills at most sixteen bytes. -/
theorem checkVectorized_iff {w : Nat} (h : p.fusion.VectorTiled v w) (hw : w = 2 ∨ w = 4)
    (hvector : p.vectorLeaf? v = (p.fusion.leaf v).getLast?)
    (hdef : p.fusion.definingExpr? v = some e) (hcopy : e.kind = .unary .set) :
    (∃ accesses, p.checkVectorized v = .ok accesses) ↔ w * (p.fusion.dtype v).bytes ≤ 16 := by
  obtain ⟨front, input, o, k, leaf, hleaf, hnot, -, -, hliteral⟩ := h.leaf
  have hroots := vectorizedRoots_of_tiled h hleaf
  have hwidth := Heuristic.vectorWidth_iff (v := v) hw (constInt?_of_const? hliteral.1)
  have hfind : (p.fusion.leaf v).find? (fun a => (p.groups.parallel a).isVectorize) =
      some leaf := by
    rw [← vectorLeaf?, hvector, hleaf, List.getLast?_concat]
  have hlast : (p.fusion.leaf v).idxOf leaf + 1 = (p.fusion.leaf v).length := by
    simp [hleaf, List.idxOf_append, hnot]
  rw [← hwidth]
  unfold checkVectorized
  dsimp only
  rw [hfind]
  dsimp only
  rw [if_neg (not_not.2 hlast), hdef]
  constructor
  · rintro ⟨accesses, h⟩
    obtain ⟨width, hok, -⟩ := Results.bind_eq_ok.1 h
    have heq := (vectorWidth_eq hok).1
    rw [constInt?_of_const? hliteral.1, Option.some.injEq, Nat.cast_inj] at heq
    rw [heq]
    exact hok
  · intro h
    have hkind : (e.kind != .unary .set) = false := by
      rw [hcopy]
      rfl
    rw [h, hroots]
    simp only [hkind]
    exact ⟨_, rfl⟩

end LoopPlan

/-! ## Steps that leave loops alone -/

namespace Schedule

variable {f f' : Fusion} {v w : ValueId} {u : Unit}

/-- How an axis is executed does not matter for loops. -/
theorem modifyParallel_keepsLoops (v : ValueId) (f : Fusion) (a : AxisId)
    (parallel : ParallelType) : KeepsLoops v f (f.modifyAxis a fun x => { x with parallel }) := by
  have hsame := SameExtents.modifyAxis f a (g := fun x => { x with parallel }) fun _ => rfl
  refine ⟨hsame.toExtends, fun b _ => ?_, fun b _ => ?_, congrArg (·.domain) (hsame.view v),
    hsame.definingExpr? v⟩
  all_goals
    rw [axis_modifyAxis]
    split
    case isTrue hb => rw [hb.1]
    case isFalse => rfl

/-- Choosing an execution changes no loops. -/
theorem parallelize_keepsLoops {tensor : ValueId} {axis : Int} {parallel : ParallelType}
    (v : ValueId) (h : (parallelize tensor axis parallel).Returns f u f') : KeepsLoops v f f' := by
  obtain ⟨a, rfl⟩ := returns_parallelize h
  exact modifyParallel_keepsLoops v f a parallel

/-- Choosing the execution of several tensors changes no loops. -/
theorem parallelizeAll_keepsLoops {tensors : List ValueId} {axis : Int} {parallel : ParallelType}
    (v : ValueId) (h : (tensors.forM fun t => parallelize t axis parallel).Returns f u f') :
    KeepsLoops v f f' := by
  induction tensors generalizing f with
  | nil =>
      obtain ⟨-, rfl⟩ := EditE.returns_pure.1 h
      exact .refl v f
  | cons t tensors ih =>
      obtain ⟨_, f₁, hone, h⟩ := EditE.returns_bind.1 h
      exact (parallelize_keepsLoops v hone).trans (ih h)

/-- Executions copied to several axes change no loops. -/
theorem copyExecutions_keepsLoops (v : ValueId) (types : ParallelSet) (leaf : List AxisId)
    (pairs : List (AxisId × AxisId)) (f : Fusion) :
    KeepsLoops v f (pairs.foldl (copyExecution types leaf) f) := by
  induction pairs generalizing f with
  | nil => exact .refl v f
  | cons pair pairs ih =>
      refine KeepsLoops.trans ?_ (ih _)
      unfold copyExecution
      dsimp only
      split
      · exact modifyParallel_keepsLoops v f _ _
      · exact .refl v f

/-- Copying executions changes no loops: siblings have the view of a tensor already. -/
theorem parallelizeLike_keepsLoops {reference : ValueId} {tensors : List ValueId}
    {types : ParallelSet} (hf : Regular f) (v : ValueId)
    (h : (parallelizeLike reference tensors types).Returns f u f') : KeepsLoops v f f' := by
  unfold parallelizeLike build at h
  simp only [EditE.returns_bind, EditE.returns_discard, EditE.returns_mapError,
    Build.returns_ensureTensor, EditE.returns_get] at h
  obtain ⟨-, f₁, ⟨_, -, rfl⟩, f₀, f₂, ⟨rfl, rfl⟩, h⟩ := h
  generalize leafCorrespondence f reference = maps at h
  generalize (if tensors.isEmpty = true then f.allTensors else tensors) = selected at h
  induction selected generalizing f with
  | nil =>
      obtain ⟨-, rfl⟩ := EditE.returns_pure.1 h
      exact .refl v f
  | cons t selected ih =>
      obtain ⟨_, f₁, hstep, h⟩ := EditE.returns_bind.1 h
      have hone : KeepsLoops v f f₁ ∧ Regular f₁ := by
        rw [← EditE.returns_modify.1 hstep]
        split
        · exact ⟨.refl v f, hf⟩
        · split
          · exact ⟨.refl v f, hf⟩
          case h_2 m _ =>
              have hcopies := copyExecutions_keepsLoops v types (f.leaf t) m.pairs f
              have hr : Regular (m.pairs.foldl (copyExecution types (f.leaf t)) f) :=
                (Freezes.ofExtents hf
                  (SameExtents.foldl (copyExecution_sameExtents types (f.leaf t)) _ f)).regular
              have hsync := syncSiblings_freezes hr t
              have hsame :=
                SameGraph.syncSiblings (m.pairs.foldl (copyExecution types (f.leaf t)) f) t
              refine ⟨hcopies.trans ⟨hsync.ext, fun a _ => ?_, fun a _ => ?_, ?_,
                hsame.definingExpr? v⟩, hsync.regular⟩
              · rw [hsame.axis]
              · rw [hsame.axis]
              · rw [view_syncSiblings_eq hr]
      exact hone.1.trans (ih hone.2 h)

/-- Rearranging other tensors. -/
theorem Rearranges.keepsLoops (h : Rearranges w f f') (hv : f.HasValue v)
    (hne : ¬ (v = w ∨ v ∈ f.siblings w)) : KeepsLoops v f f' :=
  ⟨h.ext, fun a ha => by rw [h.axis a ha], fun a ha => by rw [h.axis a ha],
    by rw [h.others v hne], h.definingExpr v hv⟩

/-- The best step is one of those to choose from. -/
theorem mem_of_bestStep {l : List Step} {s : Step} (h : bestStep? l = some s) : s ∈ l := by
  unfold bestStep? at h
  refine List.foldlRecOn (motive := fun best => ∀ s, best = some s → s ∈ l) l _ (by simp) ?_ s h
  intro best hbest t ht s hs
  split at hs
  case h_1 b =>
      split at hs
      · exact Option.some.inj hs ▸ ht
      · exact hbest s hs
  case h_2 => exact Option.some.inj hs ▸ ht

/-- A step of the spread leads to a tensor that is not reached. -/
theorem not_reached_of_bestStep {reached : List Reached} {s : Step}
    (h : bestStep? (steps f reached) = some s) : ∀ r ∈ reached, r.tensor ≠ s.next.tensor := by
  have hmem := mem_of_bestStep h
  unfold steps at hmem
  obtain ⟨r, -, hmem⟩ := List.mem_flatMap.1 hmem
  obtain ⟨n, hn, rfl⟩ := List.mem_map.1 hmem
  have hnot := (List.mem_filter.1 hn).2
  intro q hq heq
  simp only [Bool.not_eq_true', List.any_eq_false, beq_iff_eq] at hnot
  exact hnot q hq heq

/-- What is computed on its own is a sibling of nothing else. -/
theorem eq_of_mem_siblings {e : Expr} (hf : Regular f) (hdef : f.definingExpr? v = some e)
    (hout : e.outputs = [v]) (hmem : v ∈ f.siblings w) : w = v := by
  obtain ⟨y, hy, hvy, -, -⟩ := mem_siblings.1 hmem
  obtain ⟨d, hd, rfl⟩ := Option.map_eq_some_iff.1 hy
  obtain ⟨z, hz, hw⟩ := hf.sound.defined w d hd
  have hsame : f.definingExpr? v = some (f.expr d) := by
    rw [definingExpr?, hf.wired.definition_eq hvy, Option.map_some]
  obtain rfl : e = f.expr d := Option.some.inj (hdef.symm.trans hsame)
  rw [Fusion.expr, hz, Option.getD_some] at hout
  exact List.mem_singleton.1 (hout ▸ hw)

/-- Spreading loops leaves those of a tensor alone that is reached and computed on its own. -/
theorem spread_keepsLoops {fuel : Nat} {reached : List Reached} {e : Expr} (hf : Regular f)
    (hv : f.HasValue v) (hdef : f.definingExpr? v = some e) (hout : e.outputs = [v])
    (hreached : ∃ r ∈ reached, r.tensor = v) (h : (spread replay fuel reached).Returns f u f') :
    KeepsLoops v f f' := by
  induction fuel generalizing f reached with
  | zero =>
      obtain ⟨-, rfl⟩ := EditE.returns_pure.1 h
      exact .refl v f
  | succ fuel ih =>
      unfold spread at h
      obtain ⟨f₀, f₁, hget, h⟩ := EditE.returns_bind.1 h
      obtain ⟨rfl, rfl⟩ := EditE.returns_get.1 hget
      dsimp only at h
      split at h
      · obtain ⟨-, rfl⟩ := EditE.returns_pure.1 h
        exact .refl v _
      case h_2 s hs =>
          obtain ⟨r, hr, hrv⟩ := hreached
          have hne : s.next.tensor ≠ v :=
            fun heq => not_reached_of_bestStep hs r hr (hrv.trans heq.symm)
          have hapart : ¬ (v = s.next.tensor ∨ v ∈ f.siblings s.next.tensor) := by
            rintro (heq | hmem)
            · exact hne heq.symm
            · exact hne (eq_of_mem_siblings hf hdef hout hmem)
          have hrest : ∀ {f₂ : Fusion}, Rearranges s.next.tensor f f₂ → EditE.Returns (do
              let new := (← get).siblings s.next.tensor ++ [s.next.tensor]
              spread replay fuel (reached ++ new.map (⟨·, s.carried⟩)) : Schedule Unit) f₂ u f' →
              KeepsLoops v f f' := by
            intro f₂ hstep h
            obtain ⟨f₀, f₃, hget, h⟩ := EditE.returns_bind.1 h
            obtain ⟨rfl, rfl⟩ := EditE.returns_get.1 hget
            have hone := hstep.keepsLoops hv hapart
            refine hone.trans (ih hstep.regular (hstep.ext.hasValue hv)
              (hone.definingExpr.trans hdef) ⟨r, List.mem_append_left _ hr, hrv⟩ h)
          split at h
          · obtain ⟨_, f₂, hreplay, h⟩ := EditE.returns_bind.1 h
            obtain ⟨n, hreplay⟩ := EditE.returns_discard.1 hreplay
            exact hrest (replayOntoProducer_rearranges hf hreplay).1 h
          · obtain ⟨_, f₂, hreplay, h⟩ := EditE.returns_bind.1 h
            obtain ⟨n, hreplay⟩ := EditE.returns_discard.1 hreplay
            exact hrest (replayOntoConsumer_rearranges hf hreplay).1 h

/-- Spreading the loops of a tensor leaves them alone. -/
theorem propagateTransforms_keepsLoops {e : Expr} (hf : Regular f)
    (hdef : f.definingExpr? v = some e) (hout : e.outputs = [v])
    (h : (propagateTransforms v).Returns f u f') : KeepsLoops v f f' := by
  unfold propagateTransforms propagateTransformsWith at h
  simp only [EditE.returns_bind, returns_ensureView, EditE.returns_get] at h
  obtain ⟨x, f₁, ⟨ht, -, rfl⟩, f₀, f₂, ⟨rfl, rfl⟩, h⟩ := h
  exact spread_keepsLoops hf (hasValue_of_isTensor ht) hdef hout
    ⟨⟨v, _⟩, List.mem_cons_self, rfl⟩ h

/-! ## Merging all axes -/

/-- Steps that transform the leaves of a tensor. -/
structure Retiles (v : ValueId) (f f' : Fusion) : Prop extends Schedules f f' where
  regular : Regular f'
  root : (f'.view v).domain.root = (f.view v).domain.root
  definingExpr : f'.definingExpr? v = f.definingExpr? v

namespace Retiles

variable {f₁ f₂ : Fusion} {a : AxisId} {l : List AxisId} {x : Transform}

/-- Doing nothing transforms no leaves. -/
protected theorem refl (v : ValueId) (hf : Regular f) : Retiles v f f :=
  ⟨.refl hf.sound, hf, rfl, rfl⟩

/-- Transforms one after another. -/
protected theorem trans (h : Retiles v f₁ f₂) (h' : Retiles v f₂ f') : Retiles v f₁ f' :=
  ⟨h.toSchedules.trans h'.toSchedules, h'.regular, h'.root.trans h.root,
    h'.definingExpr.trans h.definingExpr⟩

/-- One transform of the leaves. -/
theorem ofTransformed {leaf : List AxisId} (h : Transformed f f' v x leaf) (hr : Regular f')
    (hv : f.HasValue v) : Retiles v f f' :=
  ⟨h.toSchedules, hr, h.root, h.definingExpr v hv⟩

/-- Origins of axes that were there stay. -/
theorem origin (h : Retiles v f f') : ∀ a, f.HasAxis a → (f'.axis a).origin = (f.axis a).origin :=
  fun a ha => by rw [h.axis a ha]

end Retiles

/-- Merging leaves that no transform makes, one after another. -/
theorem mergeRange_mergedFrom {a : AxisId} {l rest : List AxisId} (hf : Regular f) (hc : Cuts f)
    (hv : f.HasValue v) (hleaf : f.leaf v = a :: rest) (hmerged : f.MergedFrom l a)
    (hrest : ∀ b ∈ rest, f.HasAxis b ∧ (f.axis b).origin = none)
    (hsize : 2 * l.length + rest.length ≤ f.axes.size + 1)
    (h : (mergeRange v 0 (rest.length + 1)).Returns f u f') :
    Retiles v f f' ∧ 2 * (l ++ rest).length ≤ f'.axes.size + 1 ∧
      ∃ b, f'.leaf v = [b] ∧ f'.MergedFrom (l ++ rest) b := by
  induction rest generalizing f a l with
  | nil =>
      obtain ⟨-, rfl⟩ := EditE.returns_pure.1 h
      rw [List.append_nil]
      exact ⟨.refl v hf, hsize, a, hleaf, hmerged⟩
  | cons b rest ih =>
      obtain ⟨_, f₁, hmerge, h⟩ := EditE.returns_bind.1 h
      have hr := (merge_freezes hf hmerge.leaves).regular
      obtain ⟨front, c, d, back, out, hsplit, hfront, hdone⟩ :=
        merge_transformed (p := 0) hf.sound hc hmerge
      obtain rfl := List.length_eq_zero_iff.1 hfront
      obtain ⟨rfl, rfl, rfl⟩ : a = c ∧ b = d ∧ rest = back := by
        simpa using hleaf.symm.trans hsplit
      have hstep : Retiles v f f₁ := .ofTransformed hdone hr hv
      obtain ⟨hfresh, hout⟩ := hdone.origin out (by simp [Transform.outputs])
      obtain ⟨hhas, hnone⟩ := hrest b List.mem_cons_self
      have hone : f₁.MergedFrom (l ++ [b]) out :=
        .merge (hmerged.mono hstep.ext hstep.origin) (hstep.ext.hasAxis hhas)
          ((hstep.origin b hhas).trans hnone) hout
      have hgrown : f.axes.size < f₁.axes.size :=
        Nat.lt_of_le_of_lt (Nat.not_lt.1 hfresh) hout.hasAxis
      have hsize₁ : 2 * (l ++ [b]).length + rest.length ≤ f₁.axes.size + 1 := by
        simp only [List.length_append, List.length_cons, List.length_nil] at hsize ⊢
        omega
      obtain ⟨hall, hsize', e, hleaf', hmerged'⟩ := ih hr (hdone.cuts hc) (hstep.ext.hasValue hv)
        hdone.leaf hone (fun e he => by
          obtain ⟨hhas, hnone⟩ := hrest e (List.mem_cons_of_mem b he)
          exact ⟨hstep.ext.hasAxis hhas, (hstep.origin e hhas).trans hnone⟩) hsize₁ h
      rw [List.append_assoc, List.singleton_append] at hsize' hmerged'
      exact ⟨hstep.trans hall, hsize', e, hleaf', hmerged'⟩

/-! ## Copies of the outputs -/

/-- Making the axes of a result declares no output. -/
theorem elementwiseAxes_outputs {columns : List (List AxisId)} {axes : List AxisId}
    (h : Edit.Gives (Build.elementwiseAxes columns) f axes f') : f'.outputs = f.outputs := by
  induction columns generalizing f axes with
  | nil =>
      obtain ⟨-, rfl⟩ := Edit.gives_pure.1 h
      rfl
  | cons column columns ih =>
      unfold Build.elementwiseAxes Edit.newAxis at h
      obtain ⟨f₀, f₁, hget, h⟩ := Edit.gives_bind.1 h
      obtain ⟨rfl, rfl⟩ := Edit.gives_get.1 hget
      dsimp only at h
      split at h
      all_goals
        simp only [Edit.gives_bind, Edit.newInt, Edit.newConst, Edit.gives_newValue,
          Edit.gives_addAxis, Edit.gives_pure] at h
        obtain ⟨a, f₂, ⟨start, f₁, ⟨rfl, rfl⟩, rfl, rfl⟩, rest, f₃, hrest, rfl, rfl⟩ := h
        exact (ih hrest :)

/-- A copy behind a tensor is no output. -/
theorem cacheAfter_outputs {cache : ValueId} (h : (cacheAfter v).Returns f cache f') :
    f'.outputs = f.outputs := by
  unfold cacheAfter at h
  simp only [EditE.returns_bind, returns_ensureView, EditE.returns_ensure, EditE.returns_get,
    EditE.returns_pure] at h
  obtain ⟨x, f₁, ⟨ht, -, rfl⟩, -, f₂, ⟨-, rfl⟩, f₀, f₃, ⟨rfl, rfl⟩, out, f₁, hcopy, _, f₂, hforM,
    rfl, rfl⟩ := h
  have hcopy := EditE.returns_mapError.1 hcopy
  unfold Build.copy Build.resolve at hcopy
  simp only [EditE.returns_bind, EditE.returns_lift, Edit.gives_pure, EditE.returns_get] at hcopy
  obtain ⟨_, f₄, ⟨rfl, rfl⟩, f₀, f₃, ⟨rfl, rfl⟩, hcopy⟩ := hcopy
  obtain ⟨columns, root, f₃, -, hroot, -, rfl⟩ := Build.elementwise_columns (by simp [ht]) hcopy
  rw [(replaceInputs_tables hforM).2.2, outputs_pushExpr]
  exact (elementwiseAxes_outputs hroot :)

/-- A tensor that copies another one, over axes that no transform makes. -/
structure ReadsCopy (f : Fusion) (v : ValueId) : Prop where
  isTensor : f.isTensor v = true
  definingExpr : ∃ copy, f.definingExpr? v = some ⟨.unary .set, [copy], [v]⟩
  origin : ∀ a ∈ (f.view v).domain.root, (f.axis a).origin = none

/-- A copy in front of a tensor: the tensor reads it, and others read theirs. -/
theorem cacheBefore_readsCopy {cache : ValueId} (hf : Sound f)
    (h : (cacheBefore w).Returns f cache f') (hv : v = w ∨ ReadsCopy f v) : ReadsCopy f' v := by
  have hk := cacheBefore_keeps hf h
  obtain ⟨hdef, hothers⟩ := cacheBefore_definingExpr hf h
  obtain ⟨-, haxis, root, -, -, halike, hviews⟩ := cacheBefore_views hf h
  obtain ⟨_, _, _, _, htensor, -⟩ := returns_cacheBefore h
  by_cases heq : v = w
  · subst heq
    have hhas := hasValue_of_isTensor htensor
    refine ⟨(hk.ext.isTensor v hhas).trans htensor, ⟨cache, hdef⟩, fun a ha => ?_⟩
    rcases hviews v with ⟨hv, -⟩ | ⟨-, hnot⟩ | ⟨-, hne⟩
    · rw [hv] at ha
      exact (halike a ha).2.1
    · exact absurd hhas hnot
    · exact absurd rfl hne
  · obtain ⟨ht, ⟨copy, hcopy⟩, horigin⟩ := hv.resolve_left heq
    have hhas := hasValue_of_isTensor ht
    refine ⟨(hk.ext.isTensor v hhas).trans ht, ⟨copy, (hothers v ht heq).trans hcopy⟩,
      fun a ha => ?_⟩
    rcases hviews v with ⟨-, heq'⟩ | ⟨-, hnot⟩ | ⟨hv, -⟩
    · exact absurd heq' heq
    · exact absurd hhas hnot
    · rw [hv] at ha
      rw [haxis a (hf.domains v a (List.mem_append_left _ (by simp [ha])))]
      exact horigin a ha

/-- Copies in front of several tensors: all of them read one. -/
theorem cacheAllBefore_readsCopy {tensors : List ValueId} (hf : Sound f)
    (h : (tensors.forM fun t => discard (cacheBefore t)).Returns f u f')
    (hv : v ∈ tensors ∨ ReadsCopy f v) : ReadsCopy f' v := by
  induction tensors generalizing f with
  | nil =>
      obtain ⟨-, rfl⟩ := EditE.returns_pure.1 h
      exact hv.resolve_left List.not_mem_nil
  | cons t tensors ih =>
      obtain ⟨_, f₁, hone, h⟩ := EditE.returns_bind.1 h
      obtain ⟨cache, hone⟩ := EditE.returns_discard.1 hone
      have hkept : v = t ∨ ReadsCopy f v → ReadsCopy f₁ v := cacheBefore_readsCopy hf hone
      refine ih (cacheBefore_keeps hf hone).sound h ?_
      rcases hv with hv | hv
      · rcases List.mem_cons.1 hv with heq | hv
        · exact .inr (hkept (.inl heq))
        · exact .inl hv
      · exact .inr (hkept (.inr hv))

/-- Copies behind several tensors are no outputs. -/
theorem cacheAllAfter_outputs {tensors copies : List ValueId}
    (h : (tensors.mapM cacheAfter).Returns f copies f') : f'.outputs = f.outputs := by
  induction tensors generalizing f copies with
  | nil =>
      rw [List.mapM_nil] at h
      obtain ⟨-, rfl⟩ := EditE.returns_pure.1 h
      rfl
  | cons t tensors ih =>
      rw [List.mapM_cons] at h
      simp only [EditE.returns_bind, EditE.returns_pure] at h
      obtain ⟨c, f₁, hone, copies, f₂, hrest, -, rfl⟩ := h
      exact (ih hrest).trans (cacheAfter_outputs hone)

end Schedule

namespace Heuristic

open Schedule

variable {f f' : Fusion} {v : ValueId} {params : PointwiseParams}

/-- The copies that a point-wise schedule with vectors starts with. -/
theorem Pointwise.insertCaches_readsCopy {vs : List ValueId} (hf : Unstarted f)
    (hv : v ∈ f.outputs) (h : Pointwise.insertCaches.Returns f vs f') :
    Stays f f' ∧ ReadsCopy f' v := by
  have hstays := Pointwise.insertCaches_stays hf h
  unfold Pointwise.insertCaches at h
  simp only [EditE.returns_bind, EditE.returns_get, EditE.returns_pure] at h
  obtain ⟨f₀, f₁, ⟨rfl, rfl⟩, copies, f₁, hafter, f₀, f₂, ⟨rfl, rfl⟩, _, f₃, hbefore, -, rfl⟩ := h
  have hs := Schedule.mapM_stays (fun _ _ _ _ => Schedule.cacheAfter_stays) hf hafter
  rw [← cacheAllAfter_outputs hafter] at hv
  exact ⟨hstays, cacheAllBefore_readsCopy hs.unstarted.sound hbefore (.inl hv)⟩

/-- Root axes are axes, each once. -/
theorem length_root_le (hf : Unstarted f) (v : ValueId) :
    (f.view v).domain.root.length ≤ f.axes.size := by
  have hnodup : ((f.view v).domain.root.map AxisId.index).Nodup :=
    (hf.unscheduled v).nodup.map fun a b h => congrArg AxisId.mk h
  have hsub : (f.view v).domain.root.map AxisId.index ⊆ List.range f.axes.size := by
    intro n hn
    obtain ⟨a, ha, rfl⟩ := List.mem_map.1 hn
    exact List.mem_range.2 (hf.hasAxis ha)
  simpa using (hnodup.subperm hsub).length_le

/-- Merging all root axes of a tensor that is not scheduled yet. -/
theorem mergeAll_mergedFrom {ndims : Nat} {u : Unit} (hf : Unstarted f) (hv : f.HasValue v)
    (horigin : ∀ a ∈ (f.view v).domain.root, (f.axis a).origin = none)
    (hrank : (f.view v).domain.root.length = ndims) (hpos : ndims ≠ 0)
    (h : (mergeRange v 0 ndims).Returns f u f') :
    Retiles v f f' ∧ 2 * (f.view v).domain.root.length ≤ f'.axes.size + 1 ∧
      ∃ b, f'.leaf v = [b] ∧ f'.MergedFrom (f.view v).domain.root b := by
  have hcuts : Cuts f := (hf.tiling v).cuts
  have hcount := length_root_le hf v
  have hroots : ∀ a ∈ (f.view v).domain.root, f.HasAxis a := fun a ha => hf.hasAxis ha
  have hleaf : f.leaf v = (f.view v).domain.root := (hf.unscheduled v).leaf
  generalize (f.view v).domain.root = root at *
  obtain ⟨a, rest, rfl⟩ : ∃ a rest, root = a :: rest :=
    List.exists_cons_of_length_pos (by omega)
  obtain rfl : rest.length + 1 = ndims := hrank
  refine mergeRange_mergedFrom hf.regular hcuts hv hleaf
    (.root (hroots a List.mem_cons_self) (horigin a List.mem_cons_self)) (fun c hc => ?_) ?_ h
  · exact ⟨hroots c (List.mem_cons_of_mem a hc), horigin c (List.mem_cons_of_mem a hc)⟩
  · simp only [List.length_cons, List.length_nil] at hcount ⊢
    omega

/-- An inner split of the first leaf. -/
theorem split_head {b : AxisId} {back : List AxisId} {n : Int} {u : Unit} (hf : Regular f)
    (hc : Cuts f) (hv : f.HasValue v) (hleaf : f.leaf v = b :: back)
    (h : (split v 0 (.const n) true).Returns f u f') :
    ∃ o i k, Retiles v f f' ∧ f'.leaf v = o :: i :: back ∧
      f'.Originates i (.split b o i k true) ∧ f'.Literal (f'.extent i) n ∧
      ∀ a, f.HasAxis a → a ∉ [o, i] := by
  have hr := (split_freezes hf h.leaves).regular
  obtain ⟨front, c, back, o, i, k, hat, hfront, -, hliteral, hdone⟩ :=
    split_transformed (p := 0) hf.sound hc h
  obtain rfl := List.length_eq_zero_iff.1 hfront
  obtain ⟨rfl, rfl⟩ := List.cons.inj (hleaf.symm.trans hat)
  have hextent : f'.extent i = k := hdone.recorded.2.2.2.2.1
  refine ⟨o, i, k, .ofTransformed hdone hr hv, hdone.leaf,
    (hdone.origin i (by simp [Transform.outputs])).2, hextent ▸ hliteral, fun a ha hmem => ?_⟩
  exact (hdone.origin a (by simpa [Transform.outputs] using hmem)).1 ha

/-- The loops that a point-wise schedule with vectors makes of its reference. -/
theorem Pointwise.tile_vectorTiled {ndims : Nat} {vectorized : List ValueId} (hf : Unstarted f)
    (hwide : 1 < params.vectorWidth) (hout : v ∈ f.outputs) (hhas : f.HasValue v)
    (hroot : f.IteratedRoot v) (hndims : (f.view v).ndims = ndims) (hpos : ndims ≠ 0)
    (h : (Pointwise.tile params v ndims).Returns f vectorized f') :
    Regular f' ∧ Extends f f' ∧ f'.VectorTiled v params.vectorWidth ∧
      ∃ copy, f'.definingExpr? v = some ⟨.unary .set, [copy], [v]⟩ := by
  unfold Pointwise.tile at h
  simp only [EditE.returns_bind, EditE.returns_pure, if_pos hwide] at h
  obtain ⟨vs, f₁, hcaches, _, f₂, hmerge, _, f₃, hsplit, _, f₄, hblock, -, rfl⟩ := h
  obtain ⟨hs, hreads⟩ := Pointwise.insertCaches_readsCopy hf hout hcaches
  obtain ⟨copy, hcopy⟩ := hreads.definingExpr
  obtain ⟨hroot₁, hlength⟩ := hs.iterated v hhas hroot
  have hhas₁ := hs.ext.hasValue hhas
  have hcuts : Cuts f₁ := (hs.unstarted.tiling v).cuts
  have hrank : (f₁.view v).domain.root.length = ndims := by
    rw [hlength, ← hndims, TensorView.ndims, (hf.unscheduled v).leaf]
  -- one loop over all elements, then the vectors, then blocks and threads
  obtain ⟨hmerges, hsize, b, hleaf, hmerged⟩ :=
    mergeAll_mergedFrom hs.unstarted hhas₁ hreads.origin hrank hpos hmerge
  have hhas₂ := hmerges.ext.hasValue hhas₁
  obtain ⟨o, leaf, k, hvectors, hleaf, hmade, hliteral, -⟩ :=
    split_head hmerges.regular (hmerges.cuts hcuts) hhas₂ hleaf hsplit
  obtain ⟨o', i', k', hblocks, hleaf, -, -, hfresh⟩ := split_head hvectors.regular
    (hvectors.cuts (hmerges.cuts hcuts)) (hvectors.ext.hasValue hhas₂) hleaf hblock
  have hlater := hvectors.trans hblocks
  have hall := hmerges.trans hlater
  refine ⟨hall.regular, hs.ext.trans hall.ext, ⟨fun c hc => ?_, ?_, ?_, ?_, [o', i'], b, o, k, leaf,
    hleaf, hfresh leaf hmade.hasAxis, hmade.mono hblocks.ext hblocks.origin, ?_, ?_⟩, copy,
    hall.definingExpr.trans hcopy⟩
  · rw [hall.root] at hc
    rw [hall.axis c (hs.unstarted.hasAxis hc)]
    exact hroot₁ c hc
  · rw [hall.root]
    exact (hs.unstarted.unscheduled v).nodup
  · exact (hall.plain hs.unstarted.sound hs.unstarted.plain).rfactor v
  · rw [hall.root]
    exact hsize.trans (Nat.add_le_add_right hlater.ext.axes 1)
  · rw [hall.root]
    exact hmerged.mono hlater.ext hlater.origin
  · rw [hblocks.ext.extent leaf hmade.hasAxis]
    exact hliteral.mono (hvectors.sound.extents leaf hmade.hasAxis) hblocks.ext

/-- The reference is an output. -/
theorem Pointwise.reference_mem (h : Pointwise.reference f = .ok v) : v ∈ f.outputs := by
  unfold Pointwise.reference at h
  dsimp only at h
  split at h
  · cases h
  case h_2 first rest houtputs =>
      split at h
      · cases h
      · cases h
        rw [houtputs]
        refine List.foldlRecOn (motive := fun best => best ∈ first :: rest) rest _
          List.mem_cons_self fun best hbest w hw => ?_
        split
        · exact List.mem_cons_of_mem first hw
        · exact hbest

/-- A point-wise schedule gives the reference. -/
theorem Pointwise.bindLoops_reference (h : (Pointwise.bindLoops params).Returns f v f') :
    Pointwise.reference f = .ok v := by
  unfold Pointwise.bindLoops at h
  obtain ⟨⟨w, vectorized⟩, f₁, harrange, h⟩ := EditE.returns_bind.1 h
  have hw : v = w := by
    obtain ⟨f₀, f₂, hget, h⟩ := EditE.returns_bind.1 h
    split at h
    · exact (EditE.returns_pure.1 h).1.symm
    · simp only [EditE.returns_bind, EditE.returns_pure] at h
      obtain ⟨_, _, -, _, _, -, _, _, -, _, _, -, _, _, -, rfl, -⟩ := h
      rfl
  subst hw
  unfold Pointwise.arrange at harrange
  simp only [EditE.returns_bind, EditE.returns_get, EditE.returns_ofExcept] at harrange
  obtain ⟨f₀, f₂, ⟨rfl, rfl⟩, w, f₂, ⟨href, rfl⟩, f₀, f₃, ⟨rfl, rfl⟩, harrange⟩ := harrange
  split at harrange
  · obtain ⟨heq, -⟩ := EditE.returns_pure.1 harrange
    cases heq
    exact href
  · simp only [EditE.returns_bind, EditE.returns_pure, Prod.mk.injEq] at harrange
    obtain ⟨_, _, -, ⟨rfl, -⟩, -⟩ := harrange
    exact href

/-- A point-wise schedule that moves vectors tiles its reference for them: running along blocks,
threads and vectors leaves the tiling alone. -/
theorem Pointwise.bindLoops_vectorTiled (hf : Unstarted f) (hwide : 1 < params.vectorWidth)
    (hhas : f.HasValue v) (hroot : f.IteratedRoot v) (hrank : (f.view v).ndims ≠ 0)
    (h : (Pointwise.bindLoops params).Returns f v f') :
    Extends f f' ∧ f'.VectorTiled v params.vectorWidth ∧
      ∃ copy, f'.definingExpr? v = some ⟨.unary .set, [copy], [v]⟩ := by
  have hbind : ∀ {w : ValueId} {vectorized : List ValueId} {f₁ : Fusion},
      (Pointwise.arrange params).Returns f (w, vectorized) f₁ → w = v →
      Regular f₁ ∧ Extends f f₁ ∧ f₁.VectorTiled v params.vectorWidth ∧
        ∃ copy, f₁.definingExpr? v = some ⟨.unary .set, [copy], [v]⟩ := by
    rintro w vectorized f₁ harrange rfl
    unfold Pointwise.arrange at harrange
    simp only [EditE.returns_bind, EditE.returns_get, EditE.returns_ofExcept] at harrange
    obtain ⟨f₀, f₂, ⟨rfl, rfl⟩, w', f₂, ⟨hreference, rfl⟩, f₀, f₃, ⟨rfl, rfl⟩, harrange⟩ := harrange
    split at harrange
    case isTrue hzero =>
        obtain ⟨heq, -⟩ := EditE.returns_pure.1 harrange
        cases heq
        exact absurd hzero hrank
    case isFalse =>
        simp only [EditE.returns_bind, EditE.returns_pure, Prod.mk.injEq] at harrange
        obtain ⟨vs, f₂, htile, ⟨rfl, -⟩, rfl⟩ := harrange
        exact Pointwise.tile_vectorTiled hf hwide (Pointwise.reference_mem hreference) hhas hroot
          rfl hrank htile
  unfold Pointwise.bindLoops at h
  obtain ⟨⟨w, vectorized⟩, f₁, harrange, h⟩ := EditE.returns_bind.1 h
  obtain ⟨f₀, f₂, hget, h⟩ := EditE.returns_bind.1 h
  obtain ⟨rfl, rfl⟩ := EditE.returns_get.1 hget
  split at h
  · obtain ⟨rfl, rfl⟩ := EditE.returns_pure.1 h
    exact (hbind harrange rfl).2
  · simp only [EditE.returns_bind, EditE.returns_pure] at h
    obtain ⟨_, f₂, hspread, _, f₃, hblock, _, f₄, hthread, _, f₅, hlike, _, f₆, hvectors, rfl,
      rfl⟩ := h
    obtain ⟨hr, hext, htiled, copy, hcopy⟩ := hbind harrange rfl
    have hr₂ := (propagateTransforms_freezes hr hspread.leaves).regular
    have hr₃ := (parallelize_freezes hr₂ hblock.leaves).regular
    have hr₄ := (parallelize_freezes hr₃ hthread.leaves).regular
    have hkeeps := (((propagateTransforms_keepsLoops hr hcopy rfl hspread).trans
      (parallelize_keepsLoops _ hblock)).trans (parallelize_keepsLoops _ hthread)).trans
        ((parallelizeLike_keepsLoops hr₄ _ hlike).trans (parallelizeAll_keepsLoops _ hvectors))
    exact ⟨hext.trans hkeeps.ext, htiled.mono hr.sound hkeeps, copy,
      hkeeps.definingExpr.trans hcopy⟩

/-- The check of the lowering accepts the reference of a proposed point-wise schedule that moves
vectors, of which the innermost loop is the one that runs over vectors, just if a vector fills at
most sixteen bytes. -/
theorem bindLoops_checkVectorized {calls : List Call} {args : Arguments} {p : LoopPlan}
    (hcalls : ∀ c ∈ calls, c.scope = .building) (hf : applyAll Schedule.replay calls {} = some f)
    (hparams : propose f args = .ok (.pointwise params)) (hwide : 1 < params.vectorWidth)
    (hlive : v ∈ f.allTensors)
    (hreduced : ∀ a ∈ (f.view v).domain.root, (f.axis a).isReduction = false)
    (h : (Pointwise.bindLoops params).Returns f v p.fusion)
    (hvector : p.vectorLeaf? v = (p.fusion.leaf v).getLast?) :
    (∃ accesses, p.checkVectorized v = .ok accesses) ↔
      params.vectorWidth * (f.dtype v).bytes ≤ 16 := by
  obtain ⟨_, heq, hp⟩ | ⟨_, heq, -⟩ | ⟨_, heq, -⟩ := propose_cases hparams <;> cases heq
  obtain ⟨w, href, hwidth⟩ := Pointwise.propose_vectorWidth_eq hp
  obtain ⟨hnone, n, hn, hvalue, -⟩ := vectorWidth_cases (hwidth ▸ hwide)
  have hstart := applyAll_unstarted hcalls hf
  have hhas := hasValue_of_isTensor (mem_allTensors.1 hlive).2
  have hroot : f.IteratedRoot v := by
    intro a ha
    simp only [hasBroadcastRoot, List.any_eq_false, Bool.not_eq_true] at hnone
    have hbroadcast := hnone v hlive a ha
    have hreduction := hreduced a ha
    unfold Axis.isBroadcast at hbroadcast
    unfold Axis.isReduction at hreduction
    generalize (f.axis a).kind = kind at *
    cases kind
    · rfl
    · cases hreduction
    · cases hbroadcast
  have hrank : (f.view v).ndims ≠ 0 := by
    intro hzero
    obtain rfl : w = v := Except.ok.inj (href.symm.trans (Pointwise.bindLoops_reference h))
    rw [TensorView.ndims, (hstart.unscheduled w).leaf,
      ← hroot.shape_eq ((hstart.unscheduled w).rfactor)] at hzero
    simp [hwidth, Pointwise.vectorWidth, hzero] at hwide
  obtain ⟨hext, htiled, copy, hcopy⟩ :=
    Pointwise.bindLoops_vectorTiled hstart hwide hhas hroot hrank h
  rw [hwidth, hn] at htiled ⊢
  rw [LoopPlan.checkVectorized_iff htiled hvalue hvector hcopy rfl, hext.dtype v hhas]
  norm_cast

/-- Four floats fill sixteen bytes. -/
example : ((applyAll Schedule.replay (negatedVector .float) {}).bind fun f =>
    scheduledPlan? f [.contiguous .float [8]]).any (fun p =>
      decide (p.vectorLeaf? ⟨4⟩ = (p.fusion.leaf ⟨4⟩).getLast?) &&
        (p.checkVectorized ⟨4⟩).toOption.isSome) = true := by
  cbv

end Heuristic
end FusionCompiler
