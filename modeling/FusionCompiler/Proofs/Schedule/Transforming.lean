import FusionCompiler.Schedule.Leaf
import FusionCompiler.Proofs.Fusion.Operations
import FusionCompiler.Proofs.Schedule.Cut

/-!
# Splitting and merging axes

A split or a merge of axes records one transform over new axes, whose extents
are those the transform stands for.  `Fusion.Records` says what that means for
the fusion: it is extended, and no tensor changes.

Main results:

- Theorems `Schedule.splitAxis_records` and `Schedule.mergeAxes_records`: a split
  and a merge of axes record a transform.
- Theorem `Fusion.Records.balanced`: leaves in which the outputs of the transform
  replace its inputs are balanced again.
-/

namespace FusionCompiler

namespace Schedule

theorem mergedKind_self (k : AxisKind) : mergedKind k k = some k := by
  cases k <;> rfl

/-- A merge with an axis that is no broadcast is no broadcast. -/
theorem mergedKind_ne_broadcast {k l kind : AxisKind} (h : mergedKind k l = some kind)
    (hk : k ≠ .broadcast) : kind ≠ .broadcast := by
  cases k <;> cases l <;> simp [mergedKind] at h hk <;> subst h <;> simp

end Schedule

namespace Fusion

variable {f f' f₁ : Fusion}

/-- The kinds of the axes that a transform makes are those it makes of its inputs. -/
def KindsFollow (f : Fusion) : Transform → Prop
  | .split a o i _ _ => (f.axis o).kind = (f.axis a).kind ∧ (f.axis i).kind = (f.axis a).kind
  | .merge o i out => Schedule.mergedKind (f.axis o).kind (f.axis i).kind = some (f.axis out).kind

/-- The extent that a transform computes is what its operator makes of the extents of its inputs. -/
def Measured (f : Fusion) : Transform → Prop
  | .split a o i k innerSplit =>
      f.Evaluates .ceilDiv (if innerSplit then f.extent o else f.extent i) (f.extent a) k
  | .merge o i out => f.Evaluates .mul (f.extent out) (f.extent o) (f.extent i)

/-- What recording one transform does: it extends the fusion by the transform and its outputs and
leaves the tensors alone. -/
structure Records (f f' : Fusion) (x : Transform) : Prop where
  sound : Sound f'
  ext : Extends f f'
  transforms : f'.transforms = f.transforms.push x
  fresh : ∀ b ∈ x.outputs, ¬ f.HasAxis b
  nodup : x.outputs.Nodup
  view : ∀ v, f'.view v = f.view v
  axis : ∀ a, f.HasAxis a → f'.axis a = f.axis a
  isTensor : ∀ v, f'.isTensor v = f.isTensor v
  definition : ∀ v, f.HasValue v → f'.definition v = f.definition v
  definingExpr : ∀ v, f.HasValue v → f'.definingExpr? v = f.definingExpr? v
  has : ∀ a ∈ x.inputs, f.HasAxis a
  kinds : f'.KindsFollow x
  measured : f'.Measured x
  unmarked : ∀ b ∈ x.outputs, (f'.axis b).isRFactor = false
  origin : ∀ b ∈ x.outputs, (f'.axis b).origin = some ⟨f.transforms.size⟩
  inputs : f'.inputs = f.inputs
  outputs : f'.outputs = f.outputs
  wired : Wired f → Wired f'

theorem Recorded.hasAxis_output {x : Transform} (hx : f.Recorded x) {b : AxisId}
    (hb : b ∈ x.outputs) : f.HasAxis b := by
  cases x with
  | split a o i k innerSplit =>
      obtain ⟨hi, -, hoi, -⟩ := hx
      simp only [Transform.outputs, List.mem_cons, List.not_mem_nil, or_false] at hb
      rcases hb with rfl | rfl
      · exact Nat.lt_trans hoi hi
      · exact hi
  | merge o i out =>
      obtain ⟨hout, -⟩ := hx
      rw [List.mem_singleton.1 hb]
      exact hout

theorem Recorded.hasAxis_input {x : Transform} (hx : f.Recorded x) {a : AxisId}
    (ha : a ∈ x.inputs) : f.HasAxis a := by
  obtain ⟨b, hb⟩ := List.exists_mem_of_ne_nil _ x.outputs_ne_nil
  exact Nat.lt_trans (hx.input_lt_output ha hb) (hx.hasAxis_output hb)

/-- The axes met from a root on exist. -/
theorem Balanced.hasAxis (hf : Sound f) {root leaf : List AxisId} {ts : List TransformId}
    (h : f.Balanced root ts leaf) (hroot : ∀ a ∈ root, f.HasAxis a) {a : AxisId}
    (ha : a ∈ root ++ f.outputsOf ts) : f.HasAxis a := by
  rcases List.mem_append.1 ha with ha | ha
  · exact hroot a ha
  · obtain ⟨t, ht, hout⟩ := mem_outputsOf.1 ha
    exact (hf.recorded t (h.has t ht)).hasAxis_output hout

/-- The extents that a transform computes stay computed. -/
theorem Measured.mono {x : Transform} (hm : f.Measured x)
    (hf : ∀ a, f.HasAxis a → f.IntegerScalar (f.extent a)) (hx : f.Recorded x)
    (hext : Extends f f') : f'.Measured x := by
  have hout : ∀ b ∈ x.outputs, f.HasAxis b := fun b hb => hx.hasAxis_output hb
  have hin : ∀ a ∈ x.inputs, f.HasAxis a := fun a ha => hx.hasAxis_input ha
  cases x with
  | split a o i k innerSplit =>
      have ha := hin a (by simp [Transform.inputs])
      have ho := hout o (by simp [Transform.outputs])
      have hi := hout i (by simp [Transform.outputs])
      simp only [Measured, hext.extent a ha, hext.extent o ho, hext.extent i hi]
      refine Evaluates.mono hm ?_ (hf a ha) hx.2.2.2.1 hext
      split
      · exact hf o ho
      · exact hf i hi
  | merge o i out =>
      have ho := hin o (by simp [Transform.inputs])
      have hi := hin i (by simp [Transform.inputs])
      have hr := hout out (by simp [Transform.outputs])
      simp only [Measured, hext.extent o ho, hext.extent i hi, hext.extent out hr]
      exact Evaluates.mono hm (hf out hr) (hf o ho) (hf i hi) hext

/-- Recording a transform after the building steps that made its outputs. -/
theorem Records.ofBuilds {x : Transform} (hf : Sound f) (hb : Builds f f₁)
    (hview : ∀ v, f₁.view v = f.view v) (htensor : ∀ v, f₁.isTensor v = f.isTensor v)
    (hdefinition : ∀ v, f.HasValue v → f₁.definition v = f.definition v)
    (hdefining : ∀ v, f.HasValue v → f₁.definingExpr? v = f.definingExpr? v)
    (hinputs : f₁.inputs = f.inputs) (houtputs : f₁.outputs = f.outputs)
    (hx : f₁.Recorded x) (hnodup : x.outputs.Nodup) (hfresh : ∀ b ∈ x.outputs, ¬ f.HasAxis b)
    (hhas : ∀ a ∈ x.inputs, f.HasAxis a) (hkinds : f₁.KindsFollow x) (hmeasured : f₁.Measured x)
    (hunmarked : ∀ b ∈ x.outputs, (f₁.axis b).isRFactor = false) :
    Records f (f₁.pushTransform x) x := by
  have hsame := sameExtents_setOrigins f₁ x.outputs ⟨f₁.transforms.size⟩
  refine ⟨hb.sound.pushTransform hx ?_, hb.ext.trans (extends_pushTransform f₁ x), ?_, hfresh,
    hnodup, ?_, ?_, ?_, ?_, ?_, hhas, ?_, ?_, ?_, ?_, hsame.inputs.trans hinputs,
    hsame.outputs.trans houtputs,
    fun hw => (hb.wired hw).sameFlow (.pushTransform f₁ x) (extends_pushTransform f₁ x)⟩
  · intro s hs a ha b hbx
    have hs' : f.HasTransform s := by
      unfold HasTransform at hs ⊢
      rwa [hb.transforms] at hs
    rw [hb.ext.transform s hs'] at ha
    have hold : a.index < f.axes.size := (hf.recorded s hs').hasAxis_output ha
    have hnew : ¬ b.index < f.axes.size := hfresh b hbx
    omega
  · rw [transforms_pushTransform, hb.transforms]
  · intro v
    have hpush : (f₁.pushTransform x).view v = f₁.view v := hsame.view v
    rw [hpush, hview]
  · intro a ha
    have hnot : a ∉ x.outputs := fun hmem => hfresh a hmem ha
    have hpush : (f₁.pushTransform x).axis a = f₁.axis a := axis_setOrigins_of_not_mem hnot
    rw [hpush, hb.axis a ha]
  · intro v
    have hpush : (f₁.pushTransform x).isTensor v = f₁.isTensor v :=
      congrArg Value.isTensor (hsame.value v)
    rw [hpush, htensor]
  · intro v hv
    have hpush : (f₁.pushTransform x).definition v = f₁.definition v :=
      congrArg Value.definition (hsame.value v)
    rw [hpush, hdefinition v hv]
  · intro v hv
    have hpush : (f₁.pushTransform x).definingExpr? v = f₁.definingExpr? v := hsame.definingExpr? v
    rw [hpush, hdefining v hv]
  · have hpush : ∀ b, ((f₁.pushTransform x).axis b).kind = (f₁.axis b).kind :=
      kind_setOrigins f₁ x.outputs _
    cases x with
    | split a o i k innerSplit =>
        simp only [KindsFollow, hpush]
        exact hkinds
    | merge o i out =>
        simp only [KindsFollow, hpush]
        exact hkinds
  · exact hmeasured.mono hb.sound.extents hx (extends_pushTransform f₁ x)
  · intro b hbx
    have hpush : ((f₁.pushTransform x).axis b).isRFactor = (f₁.axis b).isRFactor :=
      isRFactor_setOrigins f₁ x.outputs _ b
    rw [hpush]
    exact hunmarked b hbx
  · intro b hbx
    rw [← hb.transforms]
    exact origin_setOrigins hbx (hx.hasAxis_output hbx)

theorem Records.transform_last {x : Transform} (h : Records f f' x) :
    f'.transform ⟨f.transforms.size⟩ = x := by
  unfold transform
  rw [h.transforms]
  simp

/-- The transform is among those recorded afterwards. -/
theorem Records.recorded {x : Transform} (h : Records f f' x) : f'.Recorded x := by
  have hhas : f'.HasTransform ⟨f.transforms.size⟩ := by
    unfold HasTransform
    rw [h.transforms, Array.size_push]
    exact Nat.lt_succ_self _
  rw [← h.transform_last]
  exact h.sound.recorded _ hhas

/-- Axes of one kind make axes of that kind. -/
theorem Records.kind {x : Transform} (h : Records f f' x) (k : AxisKind)
    (hin : ∀ a ∈ x.inputs, (f.axis a).kind = k) : ∀ b ∈ x.outputs, (f'.axis b).kind = k := by
  have hk : ∀ a ∈ x.inputs, (f'.axis a).kind = k := fun a ha => by rw [h.axis a (h.has a ha), hin a ha]
  have hkinds := h.kinds
  cases x with
  | split a o i factor innerSplit =>
      have ha := hk a (by simp [Transform.inputs])
      intro b hb
      rcases List.mem_pair.1 hb with rfl | rfl
      · exact hkinds.1.trans ha
      · exact hkinds.2.trans ha
  | merge o i out =>
      intro b hb
      rw [KindsFollow, hk o (by simp [Transform.inputs]), hk i (by simp [Transform.inputs]),
        Schedule.mergedKind_self] at hkinds
      rw [List.mem_singleton.1 hb]
      exact (Option.some.inj hkinds).symm

/-- Axes that are no broadcasts make axes that are none. -/
theorem Records.concrete {x : Transform} (h : Records f f' x)
    (hin : ∀ a ∈ x.inputs, (f.axis a).isBroadcast = false) :
    ∀ b ∈ x.outputs, (f'.axis b).isBroadcast = false := by
  have hne : ∀ a ∈ x.inputs, (f'.axis a).kind ≠ .broadcast := fun a ha => by
    have hb := hin a ha
    rw [← h.axis a (h.has a ha)] at hb
    simpa [Axis.isBroadcast] using hb
  have hkinds := h.kinds
  cases x with
  | split a o i factor innerSplit =>
      have ha := hne a (by simp [Transform.inputs])
      intro b hb
      rcases List.mem_pair.1 hb with rfl | rfl
      · simpa [Axis.isBroadcast, hkinds.1] using ha
      · simpa [Axis.isBroadcast, hkinds.2] using ha
  | merge o i out =>
      have ho := hne o (by simp [Transform.inputs])
      intro b hb
      rw [List.mem_singleton.1 hb]
      simpa [Axis.isBroadcast] using Schedule.mergedKind_ne_broadcast hkinds ho

/-- Replacing the inputs of a recorded transform by its outputs keeps the balance. -/
theorem Records.balanced {x : Transform} {root leaf leaf' : List AxisId} {ts : List TransformId}
    (h : Records f f' x) (hf : Sound f) (hb : f.Balanced root ts leaf)
    (hroot : ∀ a ∈ root, f.HasAxis a) (hleaf : (leaf' ++ x.inputs).Perm (leaf ++ x.outputs)) :
    f'.Balanced root (ts ++ [⟨f.transforms.size⟩]) leaf' := by
  refine hb.record h.transforms h.nodup (fun b hmem => ⟨fun hr => ?_, fun hout => ?_⟩) hleaf
  · exact h.fresh b hmem (hroot b hr)
  · obtain ⟨t, ht, hbt⟩ := mem_outputsOf.1 hout
    exact h.fresh b hmem ((hf.recorded t (hb.has t ht)).hasAxis_output hbt)

end Fusion

open Fusion

namespace Schedule

variable {f f' : Fusion}

/-- A split records a transform over two new axes. -/
theorem splitAxis_records {a : AxisId} {k : ValueId} {innerSplit : Bool} {p : AxisId × AxisId}
    (hf : Sound f) (ha : f.HasAxis a) (hk : f.IntegerScalar k)
    (h : (splitAxis a k innerSplit).Returns f p f') :
    Records f f' (.split a p.1 p.2 k innerSplit) := by
  unfold splitAxis build at h
  simp only [EditE.returns_bind, EditE.returns_get, EditE.returns_mapError, EditE.returns_lift,
    EditE.returns_discard, EditE.returns_pure, Edit.gives_addAxis, Edit.gives_addTransform] at h
  obtain ⟨f₀, f₁, ⟨rfl, rfl⟩, q, f₁, hq, o, f₂, ⟨rfl, rfl⟩, i, f₃, ⟨rfl, rfl⟩, -, f₄,
    ⟨t, -, rfl⟩, rfl, rfl⟩ := h
  have hx := hf.extents a ha
  have hb₁ := Build.binaryOp_builds (x := .value (f.extent a)) (y := .value k) hf hx.has hk.has hq
  obtain ⟨hint, hres, hevaluates, haxes, hview, htensor, hdefinition, hdefining, hinputs, houtputs⟩ :=
    Build.binaryOp_isResult hf hx hk rfl hq
  have hk₁ := hk.mono hb₁.ext
  have ho : f₁.IntegerScalar (if innerSplit = true then q else k) := by
    split
    · exact hint
    · exact hk₁
  have hi : f₁.IntegerScalar (if innerSplit = true then k else q) := by
    split
    · exact hk₁
    · exact hint
  have hb₂ := Builds.pushAxis (x := ⟨(f.axis a).start, if innerSplit = true then q else k,
    (f.axis a).kind, .serial, false, none⟩) hb₁.sound ho
  have hb₃ := Builds.pushAxis (x := ⟨(f.axis a).start, if innerSplit = true then k else q,
    (f.axis a).kind, .serial, false, none⟩) hb₂.sound (hi.mono hb₂.ext)
  have hb := hb₁.trans (hb₂.trans hb₃)
  have hsize : f₁.axes.size = f.axes.size := by rw [haxes]
  have ha₁ : a.index < f₁.axes.size := by
    rw [hsize]
    exact ha
  refine Records.ofBuilds hf hb hview htensor hdefinition hdefining hinputs houtputs
    ?_ ?_ ?_ ?_ ?_ ?_ ?_
  · have hres₃ := hres.mono hint (hx.mono hb₁.ext) hk₁ (hb₂.trans hb₃).ext
    refine ⟨?_, ha₁, ?_, hk.mono hb.ext, ?_⟩
    · simp [HasAxis]
    · simp
    · rw [hb.ext.extent a ha]
      cases innerSplit
      · simpa [Fusion.extent, axis_pushAxis] using hres₃
      · simpa [Fusion.extent, axis_pushAxis] using hres₃
  · simp [Transform.outputs]
  · intro b hmem
    simp only [Transform.outputs, List.mem_cons, List.not_mem_nil, or_false] at hmem
    rcases hmem with rfl | rfl <;> simp [HasAxis, hsize]
  · intro b hb
    rw [List.mem_singleton.1 hb]
    exact ha
  · rw [KindsFollow, hb.axis a ha]
    simp [axis_pushAxis]
  · have hevaluates₃ := hevaluates.mono hint (hx.mono hb₁.ext) hk₁ (hb₂.trans hb₃).ext
    rw [Measured, hb.ext.extent a ha]
    cases innerSplit
    · simpa [Fusion.extent, axis_pushAxis] using hevaluates₃
    · simpa [Fusion.extent, axis_pushAxis] using hevaluates₃
  · intro b hmem
    simp only [Transform.outputs, List.mem_cons, List.not_mem_nil, or_false] at hmem
    rcases hmem with rfl | rfl
    · simp [axis_pushAxis]
    · simp [axis_pushAxis]

/-- A merge records a transform over one new axis. -/
theorem mergeAxes_records {o i out : AxisId} (hf : Sound f) (ho : f.HasAxis o) (hi : f.HasAxis i)
    (h : (mergeAxes o i).Returns f out f') : Records f f' (.merge o i out) := by
  unfold mergeAxes at h
  obtain ⟨f₀, f₁, hget, h⟩ := EditE.returns_bind.1 h
  obtain ⟨rfl, rfl⟩ := EditE.returns_get.1 hget
  dsimp only at h
  split at h
  · simp at h
  case h_2 kind hkind =>
      simp only [EditE.returns_bind, EditE.returns_mapError, EditE.returns_lift,
        EditE.returns_discard, EditE.returns_pure, Edit.gives_addAxis,
        Edit.gives_addTransform] at h
      obtain ⟨q, f₁, hq, b, f₂, ⟨rfl, rfl⟩, -, f₃, ⟨t, -, rfl⟩, rfl, rfl⟩ := h
      have hxo := hf.extents o ho
      have hxi := hf.extents i hi
      have hb₁ := Build.binaryOp_builds (x := .value (f.extent o)) (y := .value (f.extent i))
        hf hxo.has hxi.has hq
      obtain ⟨hint, hres, hevaluates, haxes, hview, htensor, hdefinition, hdefining, hinputs,
        houtputs⟩ := Build.binaryOp_isResult hf hxo hxi rfl hq
      have hb₂ := Builds.pushAxis (x := ⟨(f.axis o).start, q, kind, .serial, false, none⟩)
        hb₁.sound hint
      have hb := hb₁.trans hb₂
      have hsize : f₁.axes.size = f.axes.size := by rw [haxes]
      refine Records.ofBuilds hf hb hview htensor hdefinition hdefining hinputs houtputs
        ⟨?_, ?_, ?_, ?_⟩ ?_ ?_ ?_ ?_ ?_ ?_
      · simp [HasAxis]
      · change o.index < f₁.axes.size
        rw [hsize]
        exact ho
      · change i.index < f₁.axes.size
        rw [hsize]
        exact hi
      · have hres₂ := hres.mono hint (hxo.mono hb₁.ext) (hxi.mono hb₁.ext) hb₂.ext
        rw [hb.ext.extent o ho, hb.ext.extent i hi]
        simpa [Fusion.extent, axis_pushAxis] using hres₂
      · simp [Transform.outputs]
      · intro b hmem
        rw [List.mem_singleton.1 hmem]
        simp [HasAxis, hsize]
      · intro b hb
        rcases List.mem_pair.1 hb with rfl | rfl
        · exact ho
        · exact hi
      · rw [KindsFollow, hb.axis o ho, hb.axis i hi]
        simpa [axis_pushAxis] using hkind
      · have hevaluates₂ := hevaluates.mono hint (hxo.mono hb₁.ext) (hxi.mono hb₁.ext) hb₂.ext
        rw [Measured, hb.ext.extent o ho, hb.ext.extent i hi]
        simpa [Fusion.extent, axis_pushAxis] using hevaluates₂
      · intro b hmem
        rw [List.mem_singleton.1 hmem]
        simp [axis_pushAxis]

end Schedule
end FusionCompiler
