import FusionCompiler.Proofs.Fusion.Adding
import FusionCompiler.Proofs.Schedule.Inlining
import FusionCompiler.Proofs.Schedule.Staging

/-!
# Frozen leaves

The leaves left of a tensor's positions are frozen.  A fusion is regular when
every tensor has as many leaves as its positions ask for and tensors computed by
one expression have one view.  Steps of building and scheduling keep a fusion
regular, never lower a position, and leave frozen leaves where they are.

Main results:

- Theorem `Continues.trans`: leaves frozen once stay in front.
- Theorem `Fusion.Freezes.ofAdds`: steps that only add freeze what is frozen.
- Theorem `Fusion.Freezes.modify_sync`: so does a change of a view and its
  siblings, if it does at that view.
-/

namespace FusionCompiler

/-- The leading leaves that may no longer be transformed. -/
def TensorView.frozen (x : TensorView) : List AxisId :=
  x.leaf.take x.fixedPosition

/-- What later steps do to a view: positions do not fall, and frozen leaves stay in front. -/
structure Continues (x y : TensorView) : Prop where
  computeAt : x.computeAt ≤ y.computeAt
  maxProducer : x.maxProducer ≤ y.maxProducer
  frozen : x.frozen <+: y.leaf

namespace Continues

variable {x y z : TensorView}

theorem fixedPosition_le (h : Continues x y) : x.fixedPosition ≤ y.fixedPosition :=
  Nat.max_le.2 ⟨Nat.le_trans h.computeAt (Nat.le_max_left _ _),
    Nat.le_trans h.maxProducer (Nat.le_max_right _ _)⟩

protected theorem refl (x : TensorView) : Continues x x :=
  ⟨Nat.le_refl _, Nat.le_refl _, List.take_prefix _ _⟩

/-- Leaves frozen once stay in front. -/
protected theorem trans (h : Continues x y) (h' : Continues y z) : Continues x z := by
  refine ⟨Nat.le_trans h.computeAt h'.computeAt, Nat.le_trans h.maxProducer h'.maxProducer, ?_⟩
  have hlength : x.frozen.length ≤ y.fixedPosition :=
    Nat.le_trans (List.length_take_le _ _) h.fixedPosition_le
  have hfrozen : x.frozen <+: y.frozen := List.prefix_take_iff.2 ⟨h.frozen, hlength⟩
  exact hfrozen.trans h'.frozen

/-- Nothing is frozen in a view without positions. -/
theorem ofUnfixed (h : x.fixedPosition = 0) (y : TensorView) : Continues x y := by
  have hpos : x.computeAt = 0 ∧ x.maxProducer = 0 := by
    unfold TensorView.fixedPosition at h
    omega
  refine ⟨hpos.1 ▸ Nat.zero_le _, hpos.2 ▸ Nat.zero_le _, ?_⟩
  rw [TensorView.frozen, h, List.take_zero]
  exact List.nil_prefix

/-- Other leaves behind the frozen ones. -/
theorem withLeaf {leaf : List AxisId} (h : x.frozen <+: leaf) : Continues x (x.withLeaf leaf) :=
  ⟨Nat.le_refl _, Nat.le_refl _, h⟩

/-- Raised positions over the same leaves. -/
theorem ofLeaf (hat : x.computeAt ≤ y.computeAt) (hmax : x.maxProducer ≤ y.maxProducer)
    (hleaf : y.leaf = x.leaf) : Continues x y := by
  refine ⟨hat, hmax, ?_⟩
  rw [hleaf]
  exact List.take_prefix _ _

end Continues

namespace Fusion

variable {f f' f₁ f₂ f₃ : Fusion}

/-- A sound and wired fusion in which positions lie within the leaves and tensors computed by one
expression have one view. -/
structure Regular (f : Fusion) : Prop where
  sound : Sound f
  wired : Wired f
  within : ∀ v, (f.view v).fixedPosition ≤ (f.view v).ndims
  together : ∀ v, f.isTensor v = true → ∀ w ∈ f.siblings v, f.view w = f.view v

/-- What every step does: the fusion stays regular, and every view goes on as it is. -/
structure Freezes (f f' : Fusion) : Prop where
  regular : Regular f'
  ext : Extends f f'
  continues : ∀ v, Continues (f.view v) (f'.view v)

namespace Freezes

protected theorem refl (hf : Regular f) : Freezes f f :=
  ⟨hf, Extends.refl f, fun _ => .refl _⟩

protected theorem trans (h : Freezes f₁ f₂) (h' : Freezes f₂ f₃) : Freezes f₁ f₃ :=
  ⟨h'.regular, h.ext.trans h'.ext, fun v => (h.continues v).trans (h'.continues v)⟩

/-- Steps that change no view and no definition of a tensor. -/
theorem ofViews (hf : Regular f) (hk : Keeps False f f') (hview : ∀ v, f'.view v = f.view v)
    (htensor : ∀ v, f'.isTensor v = f.isTensor v)
    (hdef : ∀ v, f.HasValue v → f'.definingExpr? v = f.definingExpr? v) : Freezes f f' := by
  refine ⟨⟨hk.sound, hk.wired hf.wired, fun v => ?_, fun v hv w hw => ?_⟩, hk.ext, fun v => ?_⟩
  · rw [hview v]
    exact hf.within v
  · rw [htensor v] at hv
    obtain ⟨x, hx, hmem, hne, hw⟩ := mem_siblings.1 hw
    rw [hdef v (hasValue_of_isTensor hv)] at hx
    rw [hview w, hview v]
    exact hf.together v hv w (mem_siblings.2 ⟨x, hx, hmem, hne, htensor w ▸ hw⟩)
  · rw [hview v]
    exact .refl _

/-- Steps that only add. -/
theorem ofAdds (hf : Regular f) (hk : Keeps False f f') (ha : Adds f f') : Freezes f f' := by
  refine ⟨⟨hk.sound, hk.wired hf.wired, fun v => ?_, fun v hv w hw => ?_⟩, hk.ext, fun v => ?_⟩
  · by_cases hold : f.HasValue v
    · rw [ha.view v hold]
      exact hf.within v
    · rw [ha.fresh v hold]
      exact Nat.zero_le _
  · by_cases hold : f.HasValue v
    · rw [ha.siblings hf.sound hk.ext hold] at hw
      obtain ⟨x, hx, hmem, -, hwt⟩ := mem_siblings.1 hw
      rw [ha.view w (hasValue_of_isTensor hwt), ha.view v hold]
      rw [hk.ext.isTensor v hold] at hv
      exact hf.together v hv w hw
    · -- a new tensor is the result of a new expression
      obtain ⟨x, hx, hmem, -, -⟩ := mem_siblings.1 hw
      obtain ⟨e, he, rfl⟩ := Option.map_eq_some_iff.1 hx
      obtain ⟨y, hy, hout⟩ := hk.sound.defined v e he
      have hexpr : f'.expr e = y := by
        rw [Fusion.expr, hy]
        rfl
      rw [hexpr] at hmem
      refine ha.shares e y (Nat.not_lt.1 fun hlt => hold ?_) hy v hout w hmem
      rw [ha.expr? e hlt] at hy
      exact (hf.sound.exprs e y hy).outputs v hout
  · by_cases hold : f.HasValue v
    · rw [ha.view v hold]
      exact .refl _
    · refine .ofUnfixed ?_ _
      rw [view_of_not_hasValue hold]
      rfl

end Freezes

namespace Regular

variable {v w u : ValueId} {x : Expr}

theorem mem_outputs (hf : Regular f) (hx : f.definingExpr? v = some x) : v ∈ x.outputs := by
  obtain ⟨e, he, rfl⟩ := Option.map_eq_some_iff.1 hx
  obtain ⟨y, hy, hout⟩ := hf.sound.defined v e he
  rwa [Fusion.expr, hy]

theorem definingExpr?_of_mem (hf : Regular f) (hx : f.definingExpr? v = some x)
    (hw : w ∈ x.outputs) : f.definingExpr? w = some x := by
  obtain ⟨e, he, rfl⟩ := Option.map_eq_some_iff.1 hx
  rw [Fusion.definingExpr?, hf.wired.definition_eq hw, Option.map_some]

/-- A tensor is another one or its sibling if both have one definition. -/
theorem together_iff (hf : Regular f) (hw : f.isTensor w = true)
    (hx : f.definingExpr? w = some x) :
    (w = v ∨ w ∈ f.siblings v) ↔ f.definingExpr? v = some x := by
  constructor
  · rintro (rfl | hmem)
    · exact hx
    · obtain ⟨y, hy, hmem, -, -⟩ := mem_siblings.1 hmem
      rw [← hx, hy, hf.definingExpr?_of_mem hy hmem]
  · intro hv
    by_cases hne : w = v
    · exact .inl hne
    · exact .inr (mem_siblings.2 ⟨x, hv, hf.mem_outputs hx, hne, hw⟩)

end Regular

/-- Values computed by one expression have one view. -/
theorem Regular.shares (hf : Regular f) {e : ExprId} {x : Expr} (hx : f.expr? e = some x)
    {v w : ValueId} (hv : v ∈ x.outputs) (hw : w ∈ x.outputs) : f.view w = f.view v := by
  by_cases hne : w = v
  · rw [hne]
  · have hdef : f.definingExpr? v = some x := by
      rw [Fusion.definingExpr?, hf.wired.defines e x hx v hv, Option.map_some, Fusion.expr, hx]
      rfl
    rcases (hf.sound.exprs e x hx).kinds with hall | ⟨u, hout, -⟩
    · exact hf.together v (hall v hv) w (mem_siblings.2 ⟨x, hdef, hw, hne, hall w hw⟩)
    · rw [hout, List.mem_singleton] at hv hw
      exact absurd (hw.trans hv.symm) hne

/-- Where values computed by one expression have one view, siblings have one view. -/
theorem together_of_shares (hf : Sound f) (h : ∀ e x, f.expr? e = some x →
    ∀ v ∈ x.outputs, ∀ w ∈ x.outputs, f.view w = f.view v) {v w : ValueId}
    (hw : w ∈ f.siblings v) : f.view w = f.view v := by
  obtain ⟨x, hx, hmem, -, -⟩ := mem_siblings.1 hw
  obtain ⟨e, he, rfl⟩ := Option.map_eq_some_iff.1 hx
  obtain ⟨y, hy, hout⟩ := hf.defined v e he
  rw [Fusion.expr, hy] at hmem
  exact h e y hy v hout w hmem

/-- A change of the view of a tensor and its siblings, after other steps. -/
theorem Freezes.modify_sync {v : ValueId} {g : TensorView → TensorView} (h : Freezes f f₁)
    (hv : f₁.isTensor v = true) (haxes : ∀ a ∈ (g (f₁.view v)).domain.listed, f₁.HasAxis a)
    (hg : Continues (f₁.view v) (g (f₁.view v)))
    (hwithin : (g (f₁.view v)).fixedPosition ≤ (g (f₁.view v)).ndims) :
    Freezes f ((f₁.modifyView v g).syncSiblings v) := by
  have hf := h.regular
  have hk : Keeps False f₁ _ := (Keeps.refl hf.sound).modify_sync haxes False.elim
  have hsame := sameGraph_modify_sync f₁ v g
  have hview : ∀ w, ((f₁.modifyView v g).syncSiblings v).view w =
      if w = v ∨ w ∈ f₁.siblings v then g (f₁.view v) else f₁.view w := fun w => by
    rw [view_modify_sync, if_pos hv]
  refine h.trans ⟨⟨hk.sound, hk.wired hf.wired, fun w => ?_, fun u hu w hw => ?_⟩, hk.ext,
    fun w => ?_⟩
  · rw [hview]
    split
    · exact hwithin
    · exact hf.within w
  · rw [hsame.isTensor] at hu
    rw [hsame.siblings] at hw
    obtain ⟨x, hx, hmem, -, hwt⟩ := mem_siblings.1 hw
    have hwx := hf.definingExpr?_of_mem hx hmem
    -- the change reaches both or neither
    have hboth : (u = v ∨ u ∈ f₁.siblings v) ↔ (w = v ∨ w ∈ f₁.siblings v) := by
      rw [hf.together_iff hu hx, hf.together_iff hwt hwx]
    simp only [hview, hboth]
    split
    · rfl
    · exact hf.together u hu w hw
  · rw [hview]
    split
    case isTrue hw =>
        have hold : f₁.view w = f₁.view v := by
          rcases hw with rfl | hw
          · rfl
          · exact hf.together v hv w hw
        rw [hold]
        exact hg
    case isFalse => exact .refl _

/-- As many leaves are frozen as the positions ask for. -/
theorem Regular.length_frozen (hf : Regular f) (v : ValueId) :
    (f.view v).frozen.length = (f.view v).fixedPosition := by
  rw [TensorView.frozen, List.length_take]
  exact Nat.min_eq_left (hf.within v)

/-- Leaves of a tensor and its siblings that start with the frozen ones. -/
theorem Freezes.setLeaf {v : ValueId} {leaf : List AxisId} {u : Unit} (h : Freezes f f₁)
    (hv : f₁.isTensor v = true) (haxes : ∀ a ∈ leaf, f₁.HasAxis a)
    (hfrozen : (f₁.view v).frozen <+: leaf) (hset : Edit.Gives (Schedule.setLeaf v leaf) f₁ u f') :
    Freezes f f' := by
  obtain rfl := Edit.gives_modify.1 hset
  refine h.modify_sync hv (fun a ha => ?_) (.withLeaf hfrozen) ?_
  · rcases List.mem_append.1 ha with ha | ha
    · exact h.regular.sound.domains v a (List.mem_append_left _ ha)
    · exact haxes a ha
  · have hlength := hfrozen.length_le
    rwa [h.regular.length_frozen] at hlength

theorem Freezes.ofRecords {x : Transform} (hf : Regular f) (h : Records f f' x) : Freezes f f' :=
  .ofViews hf (Schedule.Records.keeps h) h.view h.isTensor h.definingExpr

theorem Freezes.ofExtents (hf : Regular f) (h : SameExtents f f') : Freezes f f' :=
  .ofViews hf (h.keeps hf.sound) h.view (fun v => congrArg Value.isTensor (h.value v))
    fun v _ => h.definingExpr? v

end Fusion
end FusionCompiler
