import FusionCompiler.Heuristic.Arguments
import FusionCompiler.Proofs.Schedule.ReducedAxes

/-!
# Extents of mapped axes

Axes that are no broadcasts are mapped along expressions.  An expression relates
axes by their positions and says nothing about their extents: the result of an
element-wise operation takes the extents of its first operands, and the others
need only have as many axes.  So mapped axes have equal extents under given
arguments just if every expression relates axes of equal extents.

Main results:

- Theorem `RootMap.canMap_of_mem_rootPairs`: what an expression relates is mapped.
- Theorem `RootMap.mapped_extents_iff`: all mapped axes have equal extents if and
  only if the axes that expressions relate do.
-/

namespace FusionCompiler
namespace RootMap

open Fusion DisjointSets

variable {f : Fusion} {a b : AxisId} {u v c : ValueId} {e : ExprId} {p : AxisId × AxisId}

/-- Whether two axes that are no broadcasts are mapped depends on their classes and on reductions. -/
theorem canMap_iff (ha : (f.axis a).isBroadcast = false) (hb : (f.axis b).isBroadcast = false) :
    (RootMap.build f).canMap u a v b = true ↔ a = b ∨
      (RootMap.build f).crossesReduction a v = false ∧
      (RootMap.build f).crossesReduction b u = false ∧
      (RootMap.build f).sets.find a = (RootMap.build f).sets.find b := by
  have hknown : ∀ x, (f.axis x).isBroadcast = false →
      (RootMap.build f).broadcasts.contains x = false := by
    intro x hx
    rw [← Bool.not_eq_true, build_broadcasts, hx]
    simp
  unfold canMap
  rw [hknown a ha, hknown b hb]
  by_cases hab : a = b
  · simp [hab]
  · rw [if_neg hab]
    cases (RootMap.build f).crossesReduction a v with
    | true => simp [hab]
    | false =>
        cases (RootMap.build f).crossesReduction b u with
        | true => simp [hab]
        | false => simp [hab, DisjointSets.same]

/-- Axes that an expression relates are not kept from each other. -/
theorem crossesReduction_of_mem_rootPairs (hf : Sound f) (hw : Wired f) (hown : OwnAxes f [])
    (hu : u ∈ (f.expr e).inputs) (hc : c ∈ (f.expr e).outputs) (hp : p ∈ f.rootPairs u c) :
    (RootMap.build f).crossesReduction p.1 c = false ∧
      (RootMap.build f).crossesReduction p.2 u = false := by
  obtain ⟨hproducer, hconsumer⟩ := mem_of_mem_rootPairs hp
  constructor
  · rw [← Bool.not_eq_true, crossesReduction_build]
    rintro ⟨o, ho, -, -⟩
    have hred := (owner?_eq_some ho).2.2
    simp [shape, hred] at hproducer
  · rw [← Bool.not_eq_true, crossesReduction_build]
    rintro ⟨o, ho, -, hdown⟩
    obtain ⟨hmem, haxis, -⟩ := owner?_eq_some ho
    have hresult := (kin_of_mem_tensorAxes hown hconsumer haxis).mem_outputs hown.computed hc
    -- the owner would be computed from the producer, and the producer from the owner
    obtain ⟨rank, hrank⟩ := hw.ranked
    have hleads := (mem_downstream hf hw (mem_allTensors.1 hmem).2).1 hdown
    have hback := hleads.rank_lt hrank hf
    obtain ⟨x, hx, hres⟩ := hf.defined o e (hw.definition_eq hresult)
    rw [expr, hx] at hu
    exact Nat.lt_asymm hback (hrank e x hx u hu o hres)

/-- What an expression relates is mapped. -/
theorem canMap_of_mem_rootPairs (hf : Sound f) (hw : Wired f) (hown : OwnAxes f [])
    (he : e ∈ f.tensorExprs) (hc : c ∈ (f.expr e).outputs) (hct : f.isTensor c = true)
    (hu : u ∈ (f.expr e).inputs) (hut : f.isTensor u = true) (hp : p ∈ f.rootPairs u c)
    (ha : (f.axis p.1).isBroadcast = false) (hb : (f.axis p.2).isBroadcast = false) :
    (RootMap.build f).canMap u p.1 c p.2 = true := by
  have hpair : p ∈ allPairs f := mem_allPairs.2 ⟨e, he, c, hc, hct, u, hu, hut, hp⟩
  obtain ⟨hfirst, hsecond⟩ := crossesReduction_of_mem_rootPairs hf hw hown hu hc hp
  exact (canMap_iff ha hb).2
    (.inr ⟨hfirst, hsecond, find_eq_of_mem_allPairs hpair (ha.trans hb.symm)⟩)

/-- An expression relates axes that have equal extents under the arguments, broadcasts aside. -/
def RelatesEqual (f : Fusion) (args : Arguments) (e : ExprId) : Prop :=
  ∀ c ∈ (f.expr e).outputs, f.isTensor c = true → ∀ u ∈ (f.expr e).inputs, f.isTensor u = true →
    ∀ p ∈ f.rootPairs u c, (f.axis p.1).isBroadcast = false → (f.axis p.2).isBroadcast = false →
      args.extents? f [p.1] = args.extents? f [p.2]

instance (f : Fusion) (args : Arguments) (e : ExprId) : Decidable (RelatesEqual f args e) :=
  inferInstanceAs (Decidable (∀ c ∈ (f.expr e).outputs, f.isTensor c = true →
    ∀ u ∈ (f.expr e).inputs, f.isTensor u = true → ∀ p ∈ f.rootPairs u c,
      (f.axis p.1).isBroadcast = false → (f.axis p.2).isBroadcast = false →
        args.extents? f [p.1] = args.extents? f [p.2]))

/-- Classes keep extents apart that expressions keep apart. -/
theorem extents_find {args : Arguments} (h : ∀ e ∈ f.tensorExprs, RelatesEqual f args e)
    (hfind : (RootMap.build f).sets.find a = (RootMap.build f).sets.find b)
    (ha : (f.axis a).isBroadcast = false) : args.extents? f [a] = args.extents? f [b] := by
  let Alike : AxisId → AxisId → Prop := fun x y =>
    (f.axis x).isBroadcast = (f.axis y).isBroadcast ∧
      ((f.axis x).isBroadcast = false → args.extents? f [x] = args.extents? f [y])
  have hR : Equivalence Alike := by
    constructor
    · exact fun x => ⟨rfl, fun _ => rfl⟩
    · exact fun h => ⟨h.1.symm, fun hy => (h.2 (h.1.trans hy)).symm⟩
    · exact fun h h' => ⟨h.1.trans h'.1, fun hx => (h.2 hx).trans (h'.2 (h.1.symm.trans hx))⟩
  have hwithin : Within Alike (RootMap.build f).sets := by
    refine build_within hR fun p hp hkind => ⟨hkind, fun hfirst => ?_⟩
    obtain ⟨e, he, c, hc, hct, u, hu, hut, hp⟩ := mem_allPairs.1 hp
    exact h e he c hc hct u hu hut p hp hfirst (hkind.symm.trans hfirst)
  have hfirst := hwithin.find hR a
  have hsecond := hwithin.find hR b
  rw [hfind] at hfirst
  exact (hR.trans hfirst (hR.symm hsecond)).2 ha

/-- Mapped axes have equal extents if and only if the axes that expressions relate do. -/
theorem mapped_extents_iff {calls : List Call} (h : applyAll Schedule.replay calls {} = some f)
    (args : Arguments) :
    (∀ u v a b, f.isTensor u = true → a ∈ tensorAxes f u → f.isTensor v = true →
      b ∈ tensorAxes f v → (f.axis a).isBroadcast = false → (f.axis b).isBroadcast = false →
        (RootMap.build f).canMap u a v b = true → args.extents? f [a] = args.extents? f [b]) ↔
      ∀ e ∈ f.tensorExprs, RelatesEqual f args e := by
  constructor
  · intro hmapped e he c hc hct u hu hut p hp ha hb
    obtain ⟨hproducer, hconsumer⟩ := mem_of_mem_rootPairs hp
    have hmaps := canMap_of_mem_rootPairs (applyAll_sound h) (applyAll_wired h) (applyAll_ownAxes h)
      he hc hct hu hut hp ha hb
    exact hmapped u c p.1 p.2 hut (mem_tensorAxes.2 (.inr (List.mem_filter.1 hproducer).1)) hct
      (mem_tensorAxes.2 (.inl hconsumer)) ha hb hmaps
  · intro hall u v a b _ _ _ _ ha hb hmaps
    rcases (canMap_iff ha hb).1 hmaps with rfl | ⟨-, -, hfind⟩
    · rfl
    · exact extents_find hall hfind ha

/-- The sum of two vectors of four elements. -/
def sumOfEqual : List Call :=
  [.tensor [4] [true] .float, .input ⟨0⟩, .tensor [4] [true] .float, .input ⟨3⟩,
    .binary .add (.value ⟨0⟩) (.value ⟨3⟩), .output ⟨7⟩]

theorem sumOfEqual_extents : ∃ f args, applyAll Schedule.replay sumOfEqual {} = some f ∧
    Arguments.ofShapes f [.contiguous .float [4], .contiguous .float [4]] = .ok args ∧
    (RootMap.build f).canMap ⟨0⟩ ⟨0⟩ ⟨3⟩ ⟨1⟩ = true ∧
    args.extents? f [⟨0⟩] = args.extents? f [⟨1⟩] := by
  have hrun : (applyAll Schedule.replay sumOfEqual {}).any (fun f =>
      (Arguments.ofShapes f [.contiguous .float [4], .contiguous .float [4]]).toOption.any
        fun args => decide ((f.isTensor ⟨0⟩ = true ∧ (⟨0⟩ : AxisId) ∈ tensorAxes f ⟨0⟩ ∧
          f.isTensor ⟨3⟩ = true ∧ (⟨1⟩ : AxisId) ∈ tensorAxes f ⟨3⟩ ∧
          (f.axis ⟨0⟩).isBroadcast = false ∧ (f.axis ⟨1⟩).isBroadcast = false ∧
          (RootMap.build f).canMap ⟨0⟩ ⟨0⟩ ⟨3⟩ ⟨1⟩ = true) ∧
          ∀ e ∈ f.tensorExprs, RelatesEqual f args e)) = true := by
    decide +kernel
  obtain ⟨f, hf, hrest⟩ := (Option.any_eq_true _ _).1 hrun
  obtain ⟨args, hargs, hfacts⟩ := (Option.any_eq_true _ _).1 hrest
  obtain ⟨⟨hu, ha, hv, hb, hfirst, hsecond, hmaps⟩, hall⟩ := of_decide_eq_true hfacts
  exact ⟨f, args, hf, Results.ok_of_toOption hargs, hmaps,
    (mapped_extents_iff hf args).2 hall ⟨0⟩ ⟨3⟩ ⟨0⟩ ⟨1⟩ hu ha hv hb hfirst hsecond hmaps⟩

/-- The sum of a vector of three elements and one of four. -/
def sumOfUnequal : List Call :=
  [.tensor [3] [true] .float, .input ⟨0⟩, .tensor [4] [true] .float, .input ⟨3⟩,
    .binary .add (.value ⟨0⟩) (.value ⟨3⟩), .output ⟨7⟩]

/-- The sum is accepted, the arguments are accepted, and the axes of the operands are mapped. -/
theorem sumOfUnequal_extents : ∃ f args, applyAll Schedule.replay sumOfUnequal {} = some f ∧
    Arguments.ofShapes f [.contiguous .float [3], .contiguous .float [4]] = .ok args ∧
    (f.view ⟨0⟩).domain.root = [⟨0⟩] ∧ (f.view ⟨3⟩).domain.root = [⟨1⟩] ∧
    (f.axis ⟨0⟩).isBroadcast = false ∧ (f.axis ⟨1⟩).isBroadcast = false ∧
    (RootMap.build f).canMap ⟨0⟩ ⟨0⟩ ⟨3⟩ ⟨1⟩ = true ∧
    args.extents? f [⟨0⟩] = some [3] ∧ args.extents? f [⟨1⟩] = some [4] := by
  have hrun : (applyAll Schedule.replay sumOfUnequal {}).any (fun f =>
      (Arguments.ofShapes f [.contiguous .float [3], .contiguous .float [4]]).toOption.any
        fun args => decide ((f.view ⟨0⟩).domain.root = [⟨0⟩] ∧ (f.view ⟨3⟩).domain.root = [⟨1⟩] ∧
          (f.axis ⟨0⟩).isBroadcast = false ∧ (f.axis ⟨1⟩).isBroadcast = false ∧
          (RootMap.build f).canMap ⟨0⟩ ⟨0⟩ ⟨3⟩ ⟨1⟩ = true ∧
          args.extents? f [⟨0⟩] = some [3] ∧ args.extents? f [⟨1⟩] = some [4])) = true := by
    decide +kernel
  obtain ⟨f, hf, hrest⟩ := (Option.any_eq_true _ _).1 hrun
  obtain ⟨args, hargs, hfacts⟩ := (Option.any_eq_true _ _).1 hrest
  exact ⟨f, args, hf, Results.ok_of_toOption hargs, of_decide_eq_true hfacts⟩

end RootMap
end FusionCompiler
