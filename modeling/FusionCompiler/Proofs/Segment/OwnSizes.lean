import FusionCompiler.Proofs.Fusion.Scalars
import FusionCompiler.Proofs.Schedule.ConsistentGraphs
import FusionCompiler.Proofs.Segment.Execution
import FusionCompiler.Proofs.Segment.Renaming

/-!
# Sizes that a segment knows

A segment is run on its own arguments, so the sizes from which its extents and its
scalar operands are computed have to be sizes of its inputs.  For the extents this
is so: a size in the root of a tensor has come from the tensors it was computed
from, and an input that the segment was cut off from carries it.  Scalar operands
are not renamed, and a segment that has one over a size of a tensor outside cannot
be run.

Main results:

- Theorem `Segment.Shaped.named_root`: every foreign size in the roots of a segment
  is carried by one of its inputs.
- Theorem `Segment.extract_closed_iff`: the inputs of a segment give its extents, and
  everything it reads if they give its scalar operands.
-/

namespace FusionCompiler

open Fusion Segment

namespace Fusion

variable {f : Fusion} {x y tensor : ValueId} {inputs : List ValueId}

/-- The sizes from which a scalar is computed are sizes of the given tensors. -/
def SizedBy (f : Fusion) (inputs : List ValueId) (x : ValueId) : Prop :=
  ∀ y tensor, Relation.ReflTransGen f.ComputedFrom y x → f.IsSizeOf y tensor → tensor ∈ inputs

/-- The inputs have all the sizes from which extents in roots and scalar operands are computed. -/
structure Closed (f : Fusion) : Prop where
  extents : ∀ v ∈ f.allTensors, ∀ a ∈ (f.view v).domain.root, f.SizedBy f.inputs (f.extent a)
  operands : ∀ e ∈ f.tensorExprs, ∀ x ∈ (f.expr e).inputs, f.isTensor x = false →
    f.SizedBy f.inputs x

theorem isSizeOf_iff : f.IsSizeOf x tensor ↔ f.sizedTensor? x = some tensor := by
  unfold IsSizeOf sizedTensor?
  split
  case h_1 t d heq => simp [heq]
  case h_2 hne => simpa using fun d => hne tensor d

theorem sizedBy_of_undefined (hdef : f.definition x = none)
    (h : ∀ tensor, f.IsSizeOf x tensor → tensor ∈ inputs) : f.SizedBy inputs x := by
  intro y tensor hreach hsize
  rcases Relation.ReflTransGen.cases_tail hreach with rfl | ⟨z, -, e, he, -⟩
  · exact h tensor hsize
  · rw [definingExpr?, hdef] at he
    cases he

/-- Nothing computes the scalar, and it is a size of one of the tensors if it is one at all. -/
def sizedAtOnce (f : Fusion) (inputs : List ValueId) (x : ValueId) : Bool :=
  f.definition x == none && (f.sizedTensor? x).all inputs.contains

theorem sizedBy_of_atOnce (h : f.sizedAtOnce inputs x = true) : f.SizedBy inputs x := by
  obtain ⟨hdef, hsize⟩ := Bool.and_eq_true_iff.1 h
  refine sizedBy_of_undefined (eq_of_beq hdef) fun tensor htensor => ?_
  rw [isSizeOf_iff.1 htensor] at hsize
  simpa using hsize

end Fusion

namespace Segment

variable {f g s : Fusion} {exprs : List ExprId} {names : Renaming} {v x y : ValueId} {a : AxisId}

/-! ## Extents -/

theorem mem_root_of_mem_shape (hp : Plain f) (ha : a ∈ f.shape v) :
    a ∈ (f.view v).domain.root := by
  have hmem := (List.mem_filter.1 ha).1
  rwa [TensorDomain.logical, hp.rfactor v] at hmem

/-- A size in the root of a tensor that a segment reads or computes is a size of an input of the
segment, or an input carries it and it has a new name. -/
theorem Shaped.named_root (hf : Sound f) (hw : Wired f) (hp : Plain f) (hi : Inherits f)
    (h : Shaped f (boundary f f.tensorExprs exprs) (boundary f f.tensorExprs exprs).inputs names g)
    (hv : v ∈ (boundary f f.tensorExprs exprs).inputs ∧ f.isInput v = true ∨
      ∃ e ∈ exprs, f.definition v = some e) :
    ∀ a ∈ (f.view v).domain.root, Named f (boundary f f.tensorExprs exprs) names (f.extent a) := by
  obtain ⟨rank, hrank⟩ := hw.ranked
  induction hn : rank v using Nat.strong_induction_on generalizing v with
  | _ n ih =>
      intro a ha tensor hsize
      rcases hi.inherited v a ha tensor hsize with ⟨hnone, rfl⟩ | ⟨x, hx, u, hu, ht, b, hb, hextent⟩
      · rcases hv with ⟨hmem, -⟩ | ⟨e, -, hdef⟩
        · exact .inl hmem
        · rw [hnone] at hdef
          cases hdef
      · obtain ⟨e, hdef, hexpr, hout⟩ := hf.live_of_definingExpr? hx
        rcases hv with ⟨-, hinput⟩ | ⟨e', he', hdef'⟩
        · rw [(hw.inputs v (by simpa [Fusion.isInput] using hinput)).2] at hdef
          cases hdef
        · rw [hdef] at hdef'
          cases hdef'
          -- the operand had the size before
          have hearlier := ih (rank u) (hn ▸ hrank e x hexpr u hu v hout) (v := u)
          rw [← hextent] at hsize ⊢
          by_cases hinside : ∃ d ∈ exprs, f.definition u = some d
          · exact hearlier (.inr hinside) rfl b (mem_root_of_mem_shape hp hb) tensor hsize
          · have hread : u ∈ (f.expr e).inputs := by rwa [Fusion.expr, hexpr]
            have hmem : u ∈ (boundary f f.tensorExprs exprs).inputs := mem_boundary_inputs.2
              (.inl ⟨ht, ⟨e, he', hread⟩, fun d hd hdefu => hinside ⟨d, hd, hdefu⟩⟩)
            cases hinput : f.isInput u with
            | false => exact h.named u hmem ht hinput b hb tensor hsize
            | true =>
                exact hearlier (.inl ⟨hmem, hinput⟩) rfl b (mem_root_of_mem_shape hp hb) tensor hsize

/-- The extents of root axes are computed from nothing. -/
theorem definition_extent (hf : Sound f) (hi : Inherits f) (ha : f.PlainAxis a)
    (hhas : f.HasAxis a) : f.definition (f.extent a) = none := by
  refine Option.eq_none_iff_forall_ne_some.2 fun e hdef => ?_
  have hscalar := (hf.extents a hhas).scalar
  rcases hi.symbolic _ e hdef with ht | hkind
  · rw [hscalar] at ht
    cases ht
  · cases ha with
    | literal n hn hone =>
        rw [Fusion.const?, Value.const?, hkind] at hn
        cases hn
    | size tensor dim hsize hnone hnot =>
        rw [hkind] at hsize
        cases hsize

/-! ## Scalar operands -/

theorem reflTransGen_of_closed {α : Type} {r r' : α → α → Prop} {P : α → Prop} {x y : α} (hx : P x)
    (hstep : ∀ a b, P b → r a b → r' a b ∧ P a) (h : Relation.ReflTransGen r y x) :
    Relation.ReflTransGen r' y x ∧ P y := by
  induction h using Relation.ReflTransGen.head_induction_on with
  | refl => exact ⟨.refl, hx⟩
  | head hfirst _ ih =>
      obtain ⟨hreach, hP⟩ := ih
      obtain ⟨hfirst, hP⟩ := hstep _ _ hP hfirst
      exact ⟨.head hfirst hreach, hP⟩

/-- Scalars are computed in a segment as they are in the complete fusion. -/
theorem Extracted.sizedBy_iff {io : Boundary} (hf : Sound f) (hs : Extracted f exprs io s)
    (hx : f.HasValue x) (hscalar : f.isTensor x = false) (inputs : List ValueId) :
    s.SizedBy inputs x ↔ f.SizedBy inputs x := by
  have hdefining : ∀ y, f.isTensor y = false → s.definingExpr? y = f.definingExpr? y := by
    intro y hy
    unfold definingExpr?
    cases hdef : f.definition y with
    | none =>
        have hnone : s.definition y = none := Option.eq_none_iff_forall_ne_some.2 fun d hd => by
          rw [((hs.definition y d).1 hd).1] at hdef
          cases hdef
        rw [hnone]
        rfl
    | some d =>
        -- no tensor expression computes a scalar
        have hstays : Stays f exprs d := fun hd => by
          obtain ⟨-, w, hw, ht⟩ := mem_tensorExprs.1 hd
          obtain ⟨e, he, hmem⟩ := hf.defined y d hdef
          rw [Fusion.expr, he] at hw
          rw [(hf.exprs d e he).isTensor_outputs (.inr hw) ht y hmem] at hy
          cases hy
        rw [(hs.definition y d).2 ⟨hdef, hstays⟩, Option.map_some, Option.map_some,
          hs.expr d hstays]
  have hstep : ∀ y z, f.HasValue y ∧ f.isTensor y = false →
      (s.ComputedFrom z y ↔ f.ComputedFrom z y) ∧
        (f.ComputedFrom z y → f.HasValue z ∧ f.isTensor z = false) := by
    rintro y z ⟨-, hy⟩
    refine ⟨by rw [ComputedFrom, ComputedFrom, hdefining y hy], fun hfrom => ?_⟩
    obtain ⟨e, he, hz⟩ := hfrom
    obtain ⟨hhas, hzs, -⟩ := (hf.operands_of_scalar hy he).2 z hz
    exact ⟨hhas, hzs⟩
  have hsize : ∀ y tensor, f.HasValue y ∧ f.isTensor y = false →
      (s.IsSizeOf y tensor ↔ f.IsSizeOf y tensor) :=
    fun y _ hP => isSizeOf_congr (hs.kind y hP.1 hP.2)
  constructor
  · intro h y tensor hreach hy
    obtain ⟨hreach, hP⟩ := reflTransGen_of_closed ⟨hx, hscalar⟩
      (fun a b hP hab => ⟨(hstep b a hP).1.2 hab, (hstep b a hP).2 hab⟩) hreach
    exact h y tensor hreach ((hsize y tensor hP).2 hy)
  · intro h y tensor hreach hy
    obtain ⟨hreach, hP⟩ := reflTransGen_of_closed ⟨hx, hscalar⟩
      (fun a b hP hab => ⟨(hstep b a hP).1.1 hab, (hstep b a hP).2 ((hstep b a hP).1.1 hab)⟩) hreach
    exact h y tensor hreach ((hsize y tensor hP).1 hy)

/-! ## Extents -/

theorem isTensor_segment {io : Boundary} {vs : List ValueId} (h : Shaped f io vs names g)
    (hvalues : s.values = g.values) (v : ValueId) : s.isTensor v = f.isTensor v := by
  rw [← h.isTensor v, Fusion.isTensor, Fusion.value, hvalues, Fusion.isTensor, Fusion.value]

section Extraction

variable (hs : Extracted f exprs (boundary f f.tensorExprs exprs) s)
  (h : Shaped f (boundary f f.tensorExprs exprs) (boundary f f.tensorExprs exprs).inputs names g)
  (hvalues : s.values = g.values)

include hs h hvalues

/-- A scalar that has a name, if it needs one, is a size of an input under that name. -/
theorem sizedBy_renamed (hx : f.IntegerScalar x) (hdef : f.definition x = none)
    (hnamed : Named f (boundary f f.tensorExprs exprs) names x) :
    s.SizedBy s.inputs (renamed names x) := by
  have hundefined : ∀ y, f.definition y = none → s.definition y = none := fun y hy =>
    Option.eq_none_iff_forall_ne_some.2 fun e he => by
      rw [((hs.definition y e).1 he).1] at hy
      cases hy
  have hsize : ∀ y tensor, s.IsSizeOf y tensor ↔ g.IsSizeOf y tensor := fun y tensor =>
    isSizeOf_congr (by rw [Fusion.value, hvalues, Fusion.value])
  rw [hs.inputs]
  by_cases hkey : ∃ p ∈ names, p.1 = x
  · obtain ⟨hnew, -, v, hv, dim, hdim⟩ := h.image _ (exists_renamed hkey)
    refine sizedBy_of_undefined (hundefined _ ?_) fun tensor htensor => ?_
    · rw [Fusion.definition, value_of_not_hasValue hnew]
      rfl
    · obtain ⟨d, hd⟩ := (hsize _ tensor).1 htensor
      rw [hdim] at hd
      cases hd
      exact hv
  · rw [renamed_of_not_mem fun p hp heq => hkey ⟨p, hp, heq⟩]
    refine sizedBy_of_undefined (hundefined x hdef) fun tensor htensor => ?_
    exact (hnamed tensor ((h.isSizeOf hx).1 ((hsize x tensor).1 htensor))).resolve_right hkey

/-- The tensor expressions of a segment are the given ones. -/
theorem mem_tensorExprs_segment (hf : Sound f) (hw : Wired f)
    (hsub : ∀ e ∈ exprs, e ∈ f.tensorExprs) {e : ExprId} : e ∈ s.tensorExprs ↔ e ∈ exprs := by
  have hout : ∀ e, Stays f exprs e → ((∃ v ∈ (s.expr e).outputs, s.isTensor v = true) ↔
      ∃ v ∈ (f.expr e).outputs, f.isTensor v = true) := fun e he => by
    rw [hs.expr e he]
    simp only [isTensor_segment h hvalues]
  constructor
  · intro he
    obtain ⟨hlive, htensor⟩ := mem_tensorExprs.1 he
    obtain ⟨hlive', hstays⟩ := hs.live hf hw hsub hlive
    exact hstays (mem_tensorExprs.2 ⟨hlive', (hout e hstays).1 htensor⟩)
  · intro he
    exact mem_tensorExprs.2 ⟨hs.mem_liveExprs hf hw hsub he,
      (hout e fun _ => he).2 (mem_tensorExprs.1 (hsub e he)).2⟩

/-- The tensors of a segment are its inputs and what its expressions compute. -/
theorem mem_inputs_or_computed (hf : Sound f) (hw : Wired f)
    (hsub : ∀ e ∈ exprs, e ∈ f.tensorExprs) (hv : v ∈ s.allTensors) :
    f.isTensor v = true ∧ (v ∈ (boundary f f.tensorExprs exprs).inputs ∨
      ∃ e ∈ exprs, f.definition v = some e) := by
  obtain ⟨hmem, ht⟩ := mem_allTensors.1 hv
  rw [isTensor_segment h hvalues] at ht
  refine ⟨ht, ?_⟩
  rcases hmem with hmem | ⟨e, he, hmem⟩
  · exact .inl (hs.inputs ▸ hmem)
  · obtain ⟨hlive, hstays⟩ := hs.live hf hw hsub he
    rw [hs.expr e hstays] at hmem
    obtain ⟨w, hw'⟩ := exists_definition_of_mem_liveExprs hlive
    obtain ⟨x, hx, hout⟩ := hf.defined w e hw'
    have hexpr : f.expr e = x := by
      rw [Fusion.expr, hx]
      rfl
    rw [hexpr] at hmem
    have horder : e ∈ f.tensorExprs := mem_tensorExprs.2 ⟨hlive, w, hexpr ▸ hout,
      (hf.exprs e x hx).isTensor_outputs hmem ht w hout⟩
    rw [← hexpr] at hmem
    rcases hmem with hread | hmem
    · by_cases hinside : ∃ d ∈ exprs, f.definition v = some d
      · exact .inr hinside
      · exact .inl (mem_boundary_inputs.2 (.inl ⟨ht, ⟨e, hstays horder, hread⟩,
          fun d hd hdef => hinside ⟨d, hd, hdef⟩⟩))
    · exact .inr ⟨e, hstays horder, hw.definition_eq hmem⟩

/-- The extents of a segment are sizes of its inputs. -/
theorem extents_sizedBy (hf : Sound f) (hw : Wired f) (hp : Plain f) (hi : Inherits f)
    (hsub : ∀ e ∈ exprs, e ∈ f.tensorExprs)
    (hextent : ∀ v ∈ s.allTensors, ∀ a ∈ (s.view v).domain.root, g.HasAxis a →
      s.extent a = renamed names (g.extent a))
    (hv : v ∈ s.allTensors) (ha : a ∈ (s.view v).domain.root) :
    s.SizedBy s.inputs (s.extent a) := by
  obtain ⟨ht, hcases⟩ := mem_inputs_or_computed hs h hvalues hf hw hsub hv
  have hproper := boundary_proper hf hw hsub
  have hview : s.view v = g.view v := by
    rw [Fusion.view, Fusion.value, hvalues, Fusion.view, Fusion.value]
  -- every extent was that of some axis in the complete fusion, and has a name
  have hold : g.HasAxis a ∧ ∃ w, ∃ b ∈ (f.view w).domain.root, g.extent a = f.extent b ∧
      Named f (boundary f f.tensorExprs exprs) names (f.extent b) := by
    have hroot := ha
    rw [hview] at hroot
    by_cases hcarried : v ∈ (boundary f f.tensorExprs exprs).inputs ∧ f.isInput v = false
    · obtain ⟨hhas, b, hb, heq⟩ := h.carried v hcarried.1 ht hcarried.2 a hroot
      exact ⟨hhas, v, b, mem_root_of_mem_shape hp hb, heq,
        h.named v hcarried.1 ht hcarried.2 b hb⟩
    · have hkept : v ∉ (boundary f f.tensorExprs exprs).inputs ∨ f.isInput v = true := by
        by_cases hmem : v ∈ (boundary f f.tensorExprs exprs).inputs
        · exact .inr (by simpa [hmem] using hcarried)
        · exact .inl hmem
      rw [h.kept v hkept] at hroot
      have hhas : f.HasAxis a := hf.domains v a (by simp [TensorDomain.listed, hroot])
      refine ⟨Nat.lt_of_lt_of_le hhas h.axes, v, a, hroot, h.extent hhas, ?_⟩
      refine h.named_root hf hw hp hi ?_ a hroot
      rcases hcases with hmem | hinside
      · exact .inl ⟨hmem, hkept.resolve_left fun hnot => hnot hmem⟩
      · exact .inr hinside
  obtain ⟨hhas, w, b, hb, heq, hnamed⟩ := hold
  have hhasb : f.HasAxis b := hf.domains w b (by simp [TensorDomain.listed, hb])
  rw [hextent v hv a ha hhas, heq]
  exact sizedBy_renamed hs h hvalues (hf.extents b hhasb)
    (definition_extent hf hi (hp.root w b hb) hhasb) hnamed

end Extraction

/-! ## Closed segments -/

/-- The inputs of a segment give the extents of its root axes.  They give all that the segment
reads if and only if no scalar operand of its expressions is computed from the size of another
tensor. -/
theorem extract_closed_iff {calls : List Call} (hbuild : ∀ c ∈ calls, c.scope = .building)
    (hcalls : applyAll Schedule.replay calls {} = some f)
    (hsub : ∀ e ∈ exprs, e ∈ f.tensorExprs) :
    ∃ s, extract f exprs (boundary f f.tensorExprs exprs) = .ok s ∧
      s.inputs = (boundary f f.tensorExprs exprs).inputs ∧
      (∀ v ∈ s.allTensors, ∀ a ∈ (s.view v).domain.root, s.SizedBy s.inputs (s.extent a)) ∧
      (s.Closed ↔ ∀ e ∈ exprs, ∀ x ∈ (f.expr e).inputs, f.isTensor x = false →
        f.SizedBy (boundary f f.tensorExprs exprs).inputs x) := by
  have hf := applyAll_sound hcalls
  have hw := applyAll_wired hcalls
  have hi := applyAll_inherits hbuild hcalls
  have hp : Plain f := (applyAll_leafwise (fun c hc => by simp [Call.isLeafwise, hbuild c hc])
    hcalls).2.2
  have hproper := boundary_proper hf hw hsub
  obtain ⟨s, hextract, hs⟩ := extract_extracted hf hw hproper
  obtain ⟨names, g, h, hvalues, hall, hextent⟩ := extract_shapes hf hw hproper hextract
  have hextents : ∀ v ∈ s.allTensors, ∀ a ∈ (s.view v).domain.root,
      s.SizedBy s.inputs (s.extent a) :=
    fun v hv a ha => extents_sizedBy hs h hvalues hf hw hp hi hsub hextent hv ha
  refine ⟨s, hextract, hs.inputs, hextents, fun hclosed e he x hx hscalar => ?_, fun hoperands =>
    ⟨hextents, fun e he x hx hscalar => ?_⟩⟩
  · have hmem := (mem_tensorExprs_segment hs h hvalues hf hw hsub).2 he
    have hclosed := hclosed.operands e hmem x (by rwa [hs.expr e fun _ => he])
      ((isTensor_segment h hvalues x).trans hscalar)
    rw [hs.inputs] at hclosed
    exact (hs.sizedBy_iff hf (hf.hasValue_of_mem_inputs hx) hscalar _).1 hclosed
  · have hmem := (mem_tensorExprs_segment hs h hvalues hf hw hsub).1 he
    rw [hs.expr e fun _ => hmem] at hx
    rw [isTensor_segment h hvalues] at hscalar
    rw [hs.inputs]
    exact (hs.sizedBy_iff hf (hf.hasValue_of_mem_inputs hx) hscalar _).2
      (hoperands e hmem x hx hscalar)

/-- The means of the row sums of the slices of a cube: the sums over its rows are added up along
the second axis and divided by the size of that axis. -/
def meanOfRowSums : List Call :=
  [.tensor [-1, -1, -1] [true, true, true] .float, .input ⟨0⟩, .reduce .add ⟨0⟩ [2],
    .reduce .add ⟨10⟩ [1], .binary .div (.value ⟨13⟩) (.value ⟨3⟩), .output ⟨15⟩]

/-- The second sum alone reads an intermediate tensor, and is closed all the same. -/
theorem sumOfRowSums_closed :
    ∃ f s, applyAll Schedule.replay meanOfRowSums {} = some f ∧
      extract f [⟨1⟩] (boundary f f.tensorExprs [⟨1⟩]) = .ok s ∧ s.inputs = [⟨10⟩] ∧ s.Closed := by
  have hrun : (applyAll Schedule.replay meanOfRowSums {}).any (fun f =>
      f.tensorExprs.contains ⟨1⟩ &&
        (boundary f f.tensorExprs [⟨1⟩]).inputs == [⟨10⟩] &&
          (f.expr ⟨1⟩).inputs.all fun x => f.isTensor x || f.sizedAtOnce [⟨10⟩] x) = true := by
    decide +kernel
  obtain ⟨f, hf, hrun⟩ := (Option.any_eq_true _ _).1 hrun
  simp only [Bool.and_eq_true, List.contains_iff_mem, beq_iff_eq, List.all_eq_true,
    Bool.or_eq_true] at hrun
  obtain ⟨⟨hmem, hinputs⟩, hoperands⟩ := hrun
  have hsub : ∀ e ∈ [(⟨1⟩ : ExprId)], e ∈ f.tensorExprs := by simpa using hmem
  obtain ⟨s, hextract, hin, -, hclosed⟩ := extract_closed_iff (by decide) hf hsub
  refine ⟨f, s, hf, hextract, hin.trans hinputs, hclosed.2 fun e he x hx hscalar => ?_⟩
  rw [List.mem_singleton.1 he] at hx
  rw [hinputs]
  exact sizedBy_of_atOnce ((hoperands x hx).resolve_left (by simp [hscalar]))

/-- The second sum and the division read the row sums only, but the division needs a size of the
cube. -/
theorem meanOfRowSums_not_closed :
    ∃ f s exprs, applyAll Schedule.replay meanOfRowSums {} = some f ∧ f.Closed ∧
      (∀ e ∈ exprs, e ∈ f.tensorExprs) ∧
        extract f exprs (boundary f f.tensorExprs exprs) = .ok s ∧ ¬ s.Closed := by
  have hrun : (applyAll Schedule.replay meanOfRowSums {}).any (fun f =>
      f.allTensors.all (fun v => (f.view v).domain.root.all fun a =>
          f.sizedAtOnce f.inputs (f.extent a)) &&
        f.tensorExprs.all (fun e => (f.expr e).inputs.all fun x =>
          f.isTensor x || f.sizedAtOnce f.inputs x) &&
        [⟨1⟩, ⟨2⟩].all (f.tensorExprs.contains ·) &&
        (extract f [⟨1⟩, ⟨2⟩] (boundary f f.tensorExprs [⟨1⟩, ⟨2⟩])).toOption.any fun s =>
          s.tensorExprs.any fun e => (s.expr e).inputs.any fun x => !s.isTensor x &&
            (s.sizedTensor? x).any (!s.isInput ·)) = true := by
    decide +kernel
  obtain ⟨f, hf, hrun⟩ := (Option.any_eq_true _ _).1 hrun
  obtain ⟨hchecks, hrun⟩ := Bool.and_eq_true_iff.1 hrun
  obtain ⟨s, hs, hrun⟩ := (Option.any_eq_true _ _).1 hrun
  simp only [Bool.and_eq_true, List.all_eq_true, Bool.or_eq_true, List.contains_iff_mem] at hchecks
  obtain ⟨⟨hextents, hoperands⟩, hsub⟩ := hchecks
  simp only [List.any_eq_true, Bool.and_eq_true, Bool.not_eq_true', Option.any_eq_true] at hrun
  obtain ⟨e, he, x, hx, ht, tensor, hsize, hout⟩ := hrun
  refine ⟨f, s, [⟨1⟩, ⟨2⟩], hf, ⟨fun v hv a ha =>
    sizedBy_of_atOnce (hextents v hv a ha), fun e he x hx hscalar =>
    sizedBy_of_atOnce ((hoperands e he x hx).resolve_left (by simp [hscalar]))⟩, hsub,
    Results.ok_of_toOption hs, fun hclosed => ?_⟩
  have hmem := hclosed.operands e he x hx ht x tensor .refl (isSizeOf_iff.2 hsize)
  simp [isInput, hmem] at hout

end Segment
end FusionCompiler
