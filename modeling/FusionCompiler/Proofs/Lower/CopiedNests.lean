import FusionCompiler.Proofs.Lower.LoopNests
import FusionCompiler.Proofs.Schedule.Copies

/-!
# Copies of loop nests

Loops over copies of axes, with the transforms repeated on the copies, compute what
the loops over the axes themselves compute.  The extents of the copies need not be
given: those of the root and the factors of the splits determine all others.

Main results:

- Theorem `Fusion.Renamed.extents_eq`: the copies have the extents of the axes that
  they stand for.
- Theorem `Fusion.Renamed.fold_eq`: a loop nest over the copies folds the same
  elements in the same order.
-/

namespace FusionCompiler
namespace Fusion

variable {f f₁ : Fusion} {e e' x : AxisId → Int} {ρ : AxisId → AxisId} {s : Transform}
  {size : ValueId → Int} {root leaf shape : List AxisId} {ts ts' : List TransformId}

/-- The extent of an axis, where scalars have given values. -/
def extentBy (f : Fusion) (size : ValueId → Int) (a : AxisId) : Int :=
  size (f.extent a)

/-! ## Extents of copies -/

/-- The half of a split that its factor stands for has the factor as its extent. -/
def FactorExtent (size : ValueId → Int) (e : AxisId → Int) : Transform → Prop
  | .split _ _ i k true => e i = size k
  | .split _ o _ k false => e o = size k
  | .merge _ _ _ => True

theorem factorExtent_rename :
    FactorExtent size e (s.rename ρ) ↔ FactorExtent size (fun a => e (ρ a)) s := by
  cases s with
  | split a o i k innerSplit => cases innerSplit <;> rfl
  | merge o i out => rfl

theorem exact_rename : Exact e (s.rename ρ) ↔ Exact (fun a => e (ρ a)) s := by
  cases s with
  | split a o i k innerSplit => cases innerSplit <;> rfl
  | merge o i out => rfl

theorem traced_rename :
    Traced e x (s.rename ρ) ↔ Traced (fun a => e (ρ a)) (fun a => x (ρ a)) s := by
  cases s <;> rfl

theorem Recorded.factorExtent (h : f.Recorded s) : FactorExtent size (f.extentBy size) s := by
  cases s with
  | split a o i k innerSplit =>
      obtain ⟨-, -, -, -, hext⟩ := h
      cases innerSplit with
      | true => exact congrArg size hext.1
      | false => exact congrArg size hext.1
  | merge o i out => trivial

/-- The extents of the outputs follow from those of the inputs. -/
theorem Exact.outputs_eq (h : Exact e s) (h' : Exact e' s) (hk : FactorExtent size e s)
    (hk' : FactorExtent size e' s) (hin : ∀ a ∈ s.inputs, e' a = e a) :
    ∀ a ∈ s.outputs, e' a = e a := by
  cases s with
  | split a o i k innerSplit =>
      have ha := hin a (by simp [Transform.inputs])
      cases innerSplit with
      | true =>
          have hi : e' i = e i := Eq.trans hk' (Eq.symm hk)
          have ho : e' o = e o := by rw [h'.2, h.2, ha, hi]
          intro b hb
          rcases List.mem_pair.1 hb with rfl | rfl
          · exact ho
          · exact hi
      | false =>
          have ho : e' o = e o := Eq.trans hk' (Eq.symm hk)
          have hi : e' i = e i := by rw [h'.2, h.2, ha, ho]
          intro b hb
          rcases List.mem_pair.1 hb with rfl | rfl
          · exact ho
          · exact hi
  | merge o i out =>
      have ho := hin o (by simp [Transform.inputs])
      have hi := hin i (by simp [Transform.inputs])
      intro b hb
      have hout : e out = e o * e i := h
      have hout' : e' out = e' o * e' i := h'
      rw [List.mem_singleton.1 hb, hout', hout, ho, hi]

/-- The extents of other axes do not matter. -/
theorem Exact.congr (h : Exact e s) (he : ∀ a ∈ s.inputs ++ s.outputs, e' a = e a) :
    Exact e' s := by
  cases s with
  | split a o i k innerSplit =>
      have ha := he a (by simp [Transform.inputs])
      have ho := he o (by simp [Transform.outputs])
      have hi := he i (by simp [Transform.outputs])
      cases innerSplit with
      | true =>
          rw [Exact, ha, ho, hi]
          exact h
      | false =>
          rw [Exact, ha, ho, hi]
          exact h
  | merge o i out =>
      rw [Exact, he o (by simp [Transform.inputs]), he i (by simp [Transform.inputs]),
        he out (by simp [Transform.outputs])]
      exact h

theorem Traced.congr_extents (h : Traced e x s) (he : ∀ a ∈ s.inputs ++ s.outputs, e' a = e a) :
    Traced e' x s := by
  cases s with
  | split a o i k innerSplit =>
      rw [Traced, he i (by simp [Transform.outputs])]
      exact h
  | merge o i out =>
      rw [Traced, he i (by simp [Transform.inputs])]
      exact h

/-! ## Loops over copies -/

namespace Renamed

/-- The copies have the extents of the axes that they stand for. -/
theorem extents_eq (h : Renamed f f₁ ρ root ts leaf ts') (hf : Sound f) (hf₁ : Sound f₁)
    (hexact : ∀ t ∈ ts, Exact (f.extentBy size) (f.transform t))
    (hexact' : ∀ t ∈ ts', Exact (f₁.extentBy size) (f₁.transform t))
    (hroot : ∀ a ∈ root, f₁.extent (ρ a) = f.extent a) :
    ∀ a ∈ root ++ f.outputsOf ts, f₁.extentBy size (ρ a) = f.extentBy size a := by
  refine h.source.forward_induction hf (fun a ha => congrArg size (hroot a ha)) fun t ht => ?_
  obtain ⟨t', ht', hsame⟩ := h.exists_transform ht
  have hcopy := hexact' t' ht'
  have hrecorded := hf₁.recorded t' (h.target.has t' ht')
  rw [hsame] at hcopy hrecorded
  exact (hexact t ht).outputs_eq (exact_rename.1 hcopy)
    (hf.recorded t (h.source.has t ht)).factorExtent (factorExtent_rename.1 hrecorded.factorExtent)

open FusionCompiler.Fusion.Balanced

/-- A tuple gives a copy the index that it gives the axis. -/
theorem point_eq (h : Renamed f f₁ ρ root ts leaf ts') (hf : Sound f) (hf₁ : Sound f₁)
    (he : ∀ a ∈ root ++ f.outputsOf ts, e' (ρ a) = e a) {t : List Int}
    (ht : t.length = leaf.length) : ∀ a ∈ root ++ f.outputsOf ts,
      (nest f₁ (root.map ρ) ts' (leaf.map ρ)).point e' t (ρ a) =
        (nest f root ts leaf).point e t a := by
  set y := (nest f₁ (root.map ρ) ts' (leaf.map ρ)).point e' t
  have htraced : ∀ s ∈ ts, Traced e (fun a => y (ρ a)) (f.transform s) := by
    intro s hs
    obtain ⟨s', hs', hsame⟩ := h.exists_transform hs
    have hcopy := h.target.point_traced (e := e') hf₁ t s' hs'
    rw [hsame] at hcopy
    exact (traced_rename.1 hcopy).congr_extents fun a ha => (he a (h.source.mem_axes hs ha)).symm
  have hleaf : leaf.map (fun a => y (ρ a)) = t := by
    have hassign : (leaf.map ρ).map y = (leaf.map ρ).map (assign (leaf.map ρ) t) :=
      List.map_congr_left fun b hb => h.target.point_leaf t b hb
    rw [map_assign h.target.leaf_nodup (by simpa using ht), List.map_map] at hassign
    exact hassign
  intro a ha
  have hpoint := h.source.point_eq hf htraced a ha
  rw [hleaf] at hpoint
  exact hpoint.symm

/-- A loop nest over the copies folds the same elements in the same order. -/
theorem fold_eq (h : Renamed f f₁ ρ root ts leaf ts') (hf : Sound f) (hf₁ : Sound f₁)
    (he : ∀ a ∈ root ++ f.outputsOf ts, e' (ρ a) = e a)
    (hshape : ∀ a ∈ shape, a ∈ root ++ f.outputsOf ts) (op : Int → Int → Int) (init : Int)
    (read : List Int → Int) (i : List Int) :
    (nest f₁ (root.map ρ) ts' (leaf.map ρ)).fold e' op init (shape.map ρ) read i =
      (nest f root ts leaf).fold e op init shape read i := by
  have hpoint := fun t (ht : t ∈ tuples (leaf.map e)) =>
    h.point_eq hf hf₁ he (by simpa using length_of_mem_tuples ht)
  have hmap : ∀ axes : List AxisId, (∀ a ∈ axes, a ∈ root ++ f.outputsOf ts) →
      ∀ t ∈ tuples (leaf.map e),
        (axes.map ρ).map ((nest f₁ (root.map ρ) ts' (leaf.map ρ)).point e' t) =
          axes.map ((nest f root ts leaf).point e t) := by
    intro axes haxes t ht
    rw [List.map_map]
    exact List.map_congr_left fun a ha => hpoint t ht a (haxes a ha)
  have hroot : ∀ a ∈ root, a ∈ root ++ f.outputsOf ts := fun a ha => List.mem_append_left _ ha
  have hpassing : (nest f₁ (root.map ρ) ts' (leaf.map ρ)).passing e' =
      (nest f root ts leaf).passing e := by
    have hleaf : (leaf.map ρ).map e' = leaf.map e := by
      rw [List.map_map]
      exact List.map_congr_left fun a ha => he a (h.source.leaf_mem_axes ha)
    unfold LoopNest.passing
    change (tuples ((leaf.map ρ).map e')).filter _ = (tuples (leaf.map e)).filter _
    rw [hleaf]
    refine List.filter_congr fun t ht => ?_
    change (root.map ρ).all _ = root.all _
    rw [List.all_map, Bool.eq_iff_iff, List.all_eq_true, List.all_eq_true]
    refine forall₂_congr fun a ha => ?_
    rw [Function.comp_apply, hpoint t ht a (hroot a ha), he a (hroot a ha)]
  have hmem : ∀ t ∈ (nest f root ts leaf).passing e, t ∈ tuples (leaf.map e) :=
    fun t ht => (mem_passing.1 ht).1
  unfold LoopNest.fold
  rw [hpassing, List.filter_congr fun t ht => by rw [hmap shape hshape t (hmem t ht)]]
  congr 1
  refine List.map_congr_left fun t ht => ?_
  exact congrArg read (hmap root hroot t (hmem t (List.mem_filter.1 ht).1))

end Renamed
end Fusion
end FusionCompiler
