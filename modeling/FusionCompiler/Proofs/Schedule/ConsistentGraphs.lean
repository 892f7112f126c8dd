import Mathlib.Logic.Relation
import FusionCompiler.Proofs.Schedule.FrozenCalls

/-!
# Consistent graphs

A fusion says in four places what computes what: an expression lists its operands
and its results, and a value knows its definition and its uses.  In a consistent
fusion the four agree, inputs are computed by nothing, and no value is computed
from itself.

Inserting a copy and factoring a reduction rewrite expressions while they walk
through the uses of a value.  What they leave is consistent again, also where an
expression reads a value twice or computes several.

Main results:

- Theorem `Fusion.Regular.consistent`: a regular fusion is consistent.
- Theorem `Fusion.performAll_consistent`: every fusion that calls, new axes and
  new tensors lead to is consistent, whether the calls succeed or fail.
- Theorem `Fusion.performAll_lockstep`: in these fusions the results of one
  expression are scheduled alike.
-/

namespace FusionCompiler
namespace Fusion

variable {f : Fusion} {u v w : ValueId}

/-! ## Consistency -/

/-- A value is an operand of the definition of another one. -/
def ComputedFrom (f : Fusion) (u v : ValueId) : Prop :=
  ∃ x, f.definingExpr? v = some x ∧ u ∈ x.inputs

/-- Values and live expressions agree on what computes what, inputs are computed by nothing, and no
value is computed from itself. -/
structure Consistent (f : Fusion) : Prop where
  definition : ∀ v e, f.definition v = some e ↔ ∃ x, f.expr? e = some x ∧ v ∈ x.outputs
  uses : ∀ v e, e ∈ f.uses v ↔ ∃ x, f.expr? e = some x ∧ v ∈ x.inputs
  usesOnce : ∀ v, (f.uses v).Nodup
  inputs : ∀ v ∈ f.inputs, f.definition v = none
  acyclic : ∀ v, ¬ Relation.TransGen f.ComputedFrom v v

/-- A rank of the values grows from operands to results. -/
theorem Sound.rank_lt (hf : Sound f) {rank : ValueId → Nat} (hrank : f.Ranked rank)
    (h : f.ComputedFrom u v) : rank u < rank v := by
  obtain ⟨x, hx, hu⟩ := h
  obtain ⟨e, he, rfl⟩ := Option.map_eq_some_iff.1 hx
  obtain ⟨y, hy, hv⟩ := hf.defined v e he
  have hexpr : f.expr e = y := by
    rw [expr, hy]
    rfl
  rw [hexpr] at hu
  exact hrank e y hy u hu v hv

/-- A regular fusion is consistent. -/
theorem Regular.consistent (hf : Regular f) : Consistent f := by
  refine ⟨fun v e => ⟨hf.sound.defined v e, ?_⟩, fun v e => ⟨hf.sound.used v e, ?_⟩,
    hf.wired.once, fun v hv => (hf.wired.inputs v hv).2, fun v hcycle => ?_⟩
  · rintro ⟨x, hx, hv⟩
    exact hf.wired.defines e x hx v hv
  · rintro ⟨x, hx, hv⟩
    exact hf.wired.reads e x hx v hv
  · -- along a cycle the rank would grow beyond itself
    obtain ⟨rank, hrank⟩ := hf.wired.ranked
    have hgrows : ∀ w, Relation.TransGen f.ComputedFrom v w → rank v < rank w := by
      intro w hw
      induction hw with
      | single h => exact hf.sound.rank_lt hrank h
      | tail _ h ih => exact Nat.lt_trans ih (hf.sound.rank_lt hrank h)
    exact Nat.lt_irrefl _ (hgrows v hcycle)

/-! ## Calls, new axes and new tensors -/

instance (f : Fusion) (v : ValueId) : Decidable (f.IntegerScalar v) :=
  decidable_of_iff (f.HasValue v ∧ f.isTensor v = false ∧ (f.dtype v).isInt = true)
    ⟨fun ⟨h, hs, hi⟩ => ⟨h, hs, hi⟩, fun ⟨h, hs, hi⟩ => ⟨h, hs, hi⟩⟩

/-- A step that makes a fusion larger or rewrites it. -/
inductive Step where
  | call (c : Call)
  | axis (x : Axis)
  /-- A new tensor over axes that are there, whatever their order and whoever else has them. -/
  | tensor (domain : TensorDomain) (t : DataType)

/-- The fusion after a step that succeeds or fails.  An axis whose extent is not an integer scalar
and a tensor over unknown axes are not made. -/
def perform (f : Fusion) : Step → Fusion
  | .call c => c.attempt f
  | .axis x => if f.IntegerScalar x.extent then ((Edit.addAxis x).run f).2 else f
  | .tensor d t =>
    if ∀ a ∈ d.listed, f.HasAxis a then ((Edit.newTensor d t).run f).2 else f

/-- The fusion after a sequence of steps, each of which succeeds or fails. -/
def performAll (steps : List Step) (f : Fusion) : Fusion :=
  steps.foldl perform f

/-- An axis of an integer extent keeps a fusion regular. -/
theorem Regular.pushAxis (hf : Regular f) {x : Axis} (hx : f.IntegerScalar x.extent) :
    Regular (f.pushAxis x) :=
  (Freezes.ofAdds hf (Builds.pushAxis hf.sound hx).keeps ((Adds.refl f).pushAxis x)).regular

/-- A tensor over axes that are there keeps a fusion regular. -/
theorem Regular.pushTensor (hf : Regular f) {d : TensorDomain} (hd : ∀ a ∈ d.listed, f.HasAxis a)
    (t : DataType) : Regular (f.pushValue t (.tensor { domain := d })) := by
  have hsound : Sound (f.pushValue t (.tensor { domain := d })) := by
    refine hf.sound.pushValue (fun c hc _ => ?_) fun x hx => ?_
    · cases hc
    · cases hx
      exact hd
  have hext := extends_pushValue f t (.tensor { domain := d })
  have hkeeps : Keeps False f (f.pushValue t (.tensor { domain := d })) :=
    ⟨⟨hsound, hext, False.elim⟩, fun hw => hw.sameFlow (.pushValue f t _) hext⟩
  exact (Freezes.ofAdds hf hkeeps ((Adds.refl f).pushTensor t d)).regular

/-- Every step keeps a fusion regular. -/
theorem Regular.perform (hf : Regular f) (s : Step) : Regular (f.perform s) := by
  cases s with
  | call c => exact (c.attempt_freezes hf).regular
  | axis x =>
      simp only [Fusion.perform]
      split
      case isTrue hx => exact hf.pushAxis hx
      case isFalse => exact hf
  | tensor d t =>
      simp only [Fusion.perform]
      split
      case isTrue hd => exact hf.pushTensor hd t
      case isFalse => exact hf

theorem performAll_regular (steps : List Step) (hf : Regular f) : Regular (performAll steps f) := by
  induction steps generalizing f with
  | nil => exact hf
  | cons s steps ih => exact ih (hf.perform s)

/-- Every fusion that calls, new axes and new tensors lead to, from the empty one on, is consistent:
the definition of a value is the live expression that lists it among its results, the uses of a
value are the live expressions that list it among their operands, each once, inputs have no
definition, and nothing is computed from itself. -/
theorem performAll_consistent (steps : List Step) : Consistent (performAll steps {}) :=
  (performAll_regular steps regular_empty).consistent

/-! ## Results of one expression -/

/-- Two tensors that are scheduled alike: their domains, their positions and their memory are equal. -/
structure Lockstep (x y : TensorView) : Prop where
  root : y.domain.root = x.domain.root
  rfactor : y.domain.rfactor = x.domain.rfactor
  leaf : y.domain.leaf = x.domain.leaf
  computeAt : y.computeAt = x.computeAt
  maxProducer : y.maxProducer = x.maxProducer
  memory : y.memory = x.memory

theorem Lockstep.ofEq {x y : TensorView} (h : y = x) : Lockstep x y :=
  h ▸ ⟨rfl, rfl, rfl, rfl, rfl, rfl⟩

/-- After any sequence of steps, each of which succeeds or fails, the results of every live
expression are in lockstep. -/
theorem performAll_lockstep (steps : List Step) {e : ExprId} {x : Expr}
    (hx : (performAll steps {}).expr? e = some x) (hv : v ∈ x.outputs) (hw : w ∈ x.outputs) :
    Lockstep ((performAll steps {}).view v) ((performAll steps {}).view w) :=
  .ofEq ((performAll_regular steps regular_empty).shares hx hv hw)

/-- Mean, deviations and count of the rows of a matrix.  One of the three is split, another one is
factored, and a result of the first stage is inlined into a result of the second.  The split that
names a missing axis fails. -/
def inlinedMoments : List Step :=
  [.call (.tensor [4, 6] [true, true] .float), .call (.input ⟨0⟩), .call (.welford ⟨0⟩ [1]),
   .call (.output ⟨7⟩), .call (.split ⟨8⟩ 1 (.const 2) true), .call (.rfactor ⟨9⟩ [2]),
   .call (.split ⟨7⟩ 7 (.const 2) true), .call (.setMemory ⟨8⟩ .shared),
   .call (.computeAt ⟨15⟩ ⟨7⟩ 1)]

theorem inlinedMoments_lockstep :
    ∃ f, performAll inlinedMoments {} = f ∧
      (f.expr? ⟨1⟩).map (·.outputs) = some [⟨13⟩, ⟨14⟩, ⟨15⟩] ∧
      (f.expr? ⟨2⟩).map (·.outputs) = some [⟨7⟩, ⟨8⟩, ⟨9⟩] ∧
      (f.view ⟨15⟩).computeAt = 1 ∧ (f.view ⟨7⟩).maxProducer = 1 ∧
      Lockstep (f.view ⟨15⟩) (f.view ⟨13⟩) ∧ Lockstep (f.view ⟨7⟩) (f.view ⟨9⟩) := by
  have hrun : (fun f : Fusion => ((f.expr? ⟨1⟩).map (·.outputs), (f.expr? ⟨2⟩).map (·.outputs),
      (f.view ⟨15⟩).computeAt, (f.view ⟨7⟩).maxProducer)) (performAll inlinedMoments {}) =
      (some [⟨13⟩, ⟨14⟩, ⟨15⟩], some [⟨7⟩, ⟨8⟩, ⟨9⟩], 1, 1) := by
    cbv
  obtain ⟨hfirst, hsecond, hat, hmax⟩ : _ ∧ _ ∧ _ ∧ _ := by simpa only [Prod.mk.injEq] using hrun
  obtain ⟨x, hx, hxout⟩ := Option.map_eq_some_iff.1 hfirst
  obtain ⟨y, hy, hyout⟩ := Option.map_eq_some_iff.1 hsecond
  refine ⟨_, rfl, hfirst, hsecond, hat, hmax, ?_, ?_⟩
  · exact performAll_lockstep inlinedMoments hx (by simp [hxout]) (by simp [hxout])
  · exact performAll_lockstep inlinedMoments hy (by simp [hyout]) (by simp [hyout])

end Fusion
end FusionCompiler
