import FusionCompiler.Proofs.Fusion.Expressions

/-!
# Wired fusions

`Fusion.Wired` is the converse of what a sound fusion says about its graph:
every live expression is the definition of all its results and noted as a use
by all its operands, by each of them once.  It also says that the graph has no
cycle, that inputs are computed by nothing, and that outputs are tensors.

The absence of cycles is witnessed by a rank of the values that grows from the
operands of an expression to its results.  When an expression is rewritten, the
rank is refined so that there is room between two values for a new one.

Main results:

- Theorem `Fusion.Wired.sameFlow`: updates that touch no expression keep a
  fusion wired.
- Theorem `Fusion.Wired.pushExpr`: so does a new expression whose results had no
  definition, if some rank grows along it.
- Theorem `Fusion.Wired.removeExpr`: so does removing an expression.
-/

namespace FusionCompiler
namespace Fusion

variable {f f' f₁ f₂ f₃ : Fusion}

/-- A rank of the values that grows along every live expression. -/
def Ranked (f : Fusion) (rank : ValueId → Nat) : Prop :=
  ∀ e x, f.expr? e = some x → ∀ u ∈ x.inputs, ∀ v ∈ x.outputs, rank u < rank v

/-- The values know all live expressions that compute and read them, and nothing is computed from
itself. -/
structure Wired (f : Fusion) : Prop where
  defines : ∀ e x, f.expr? e = some x → ∀ v ∈ x.outputs, f.definition v = some e
  reads : ∀ e x, f.expr? e = some x → ∀ v ∈ x.inputs, e ∈ f.uses v
  ranked : ∃ rank, f.Ranked rank
  inputs : ∀ v ∈ f.inputs, f.HasValue v ∧ f.definition v = none
  outputs : ∀ v ∈ f.outputs, f.isTensor v = true
  distinct : f.inputs.Nodup
  once : ∀ v, (f.uses v).Nodup

/-- The empty fusion is wired. -/
theorem wired_empty : Wired {} :=
  ⟨by simp [expr?], by simp [expr?], ⟨fun _ => 0, by simp [Ranked, expr?]⟩, by simp, by simp,
    List.nodup_nil, fun _ => List.nodup_nil⟩

/-! ## Updates that touch no expression -/

/-- The later fusion has the expressions, inputs and outputs of the earlier one. -/
structure SameFlow (f f' : Fusion) : Prop where
  exprs : f'.exprs = f.exprs
  definition : ∀ v, f'.definition v = f.definition v
  uses : ∀ v, f'.uses v = f.uses v
  inputs : f'.inputs = f.inputs
  outputs : f'.outputs = f.outputs

namespace SameFlow

/-- Nothing is rewired. -/
protected theorem refl (f : Fusion) : SameFlow f f :=
  ⟨rfl, fun _ => rfl, fun _ => rfl, rfl, rfl⟩

/-- Steps one after another rewire nothing. -/
protected theorem trans (h : SameFlow f₁ f₂) (h' : SameFlow f₂ f₃) : SameFlow f₁ f₃ :=
  ⟨h'.exprs.trans h.exprs, fun v => (h'.definition v).trans (h.definition v),
    fun v => (h'.uses v).trans (h.uses v), h'.inputs.trans h.inputs, h'.outputs.trans h.outputs⟩

/-- Expressions are the same. -/
theorem expr? (h : SameFlow f f') (e : ExprId) : f'.expr? e = f.expr? e := by
  unfold Fusion.expr?
  rw [h.exprs]

/-- A new value is computed and read by nothing, as any handle that is not there yet. -/
theorem pushValue (f : Fusion) (t : DataType) (kind : ValueKind) :
    SameFlow f (f.pushValue t kind) := by
  have hnew : ∀ v : ValueId, v.index = f.values.size → f.value v = default := fun v hv =>
    value_of_not_hasValue (by simp [HasValue, hv])
  refine ⟨rfl, fun v => ?_, fun v => ?_, rfl, rfl⟩
  · unfold Fusion.definition
    rw [value_pushValue]
    split
    case isTrue hv =>
        rw [hnew v hv]
        rfl
    case isFalse => rfl
  · unfold Fusion.uses
    rw [value_pushValue]
    split
    case isTrue hv =>
        rw [hnew v hv]
        rfl
    case isFalse => rfl

/-- An axis is no part of the graph of values. -/
theorem pushAxis (f : Fusion) (x : Axis) : SameFlow f (f.pushAxis x) :=
  ⟨rfl, fun _ => rfl, fun _ => rfl, rfl, rfl⟩

/-- How axes are executed is no part of the graph of values. -/
theorem ofExtents (h : SameExtents f f') : SameFlow f f' := by
  refine ⟨h.exprs, fun v => ?_, fun v => ?_, h.inputs, h.outputs⟩
  · unfold Fusion.definition
    rw [h.value]
  · unfold Fusion.uses
    rw [h.value]

/-- A view is no part of the graph of values. -/
theorem modifyView (f : Fusion) (v : ValueId) (g : TensorView → TensorView) :
    SameFlow f (f.modifyView v g) :=
  ⟨rfl, fun w => definition_modifyView f v w g, fun w => uses_modifyView f v w g, rfl, rfl⟩

/-- Giving siblings the view of a tensor rewires nothing. -/
theorem syncSiblings (f : Fusion) (v : ValueId) : SameFlow f (f.syncSiblings v) := by
  have hfold : ∀ (vs : List ValueId) (x : TensorView) (g : Fusion),
      SameFlow g (vs.foldl (fun f s => f.modifyView s fun _ => x) g) := by
    intro vs x
    induction vs with
    | nil => exact SameFlow.refl
    | cons s vs ih => exact fun g => (modifyView g s _).trans (ih _)
  exact hfold (f.siblings v) (f.view v) f

/-- Changing a view and passing the change on to the siblings. -/
theorem modify_sync (f : Fusion) (v : ValueId) (g : TensorView → TensorView) :
    SameFlow f ((f.modifyView v g).syncSiblings v) :=
  (modifyView f v g).trans (syncSiblings _ v)

/-- A transform is no part of the graph of values. -/
theorem pushTransform (f : Fusion) (x : Transform) : SameFlow f (f.pushTransform x) := by
  have h := ofExtents (sameExtents_setOrigins f x.outputs ⟨f.transforms.size⟩)
  exact ⟨h.exprs, h.definition, h.uses, h.inputs, h.outputs⟩

end SameFlow

/-- A rank depends on the flow of values only. -/
theorem Ranked.sameFlow {rank : ValueId → Nat} (h : f.Ranked rank) (hflow : SameFlow f f') :
    f'.Ranked rank := by
  intro e x hx
  rw [hflow.expr?] at hx
  exact h e x hx

/-- Wiring depends on the flow of values only. -/
theorem Wired.sameFlow (h : Wired f) (hflow : SameFlow f f') (hext : Extends f f') : Wired f' := by
  obtain ⟨rank, hrank⟩ := h.ranked
  refine ⟨?_, ?_, ⟨rank, hrank.sameFlow hflow⟩, ?_, ?_, hflow.inputs ▸ h.distinct,
    fun v => hflow.uses v ▸ h.once v⟩
  · intro e x hx v hv
    rw [hflow.expr?] at hx
    rw [hflow.definition]
    exact h.defines e x hx v hv
  · intro e x hx v hv
    rw [hflow.expr?] at hx
    rw [hflow.uses]
    exact h.reads e x hx v hv
  · intro v hv
    rw [hflow.inputs] at hv
    rw [hflow.definition]
    exact ⟨hext.hasValue (h.inputs v hv).1, (h.inputs v hv).2⟩
  · intro v hv
    rw [hflow.outputs] at hv
    have ht := h.outputs v hv
    exact (hext.isTensor v (hasValue_of_isTensor ht)).trans ht

/-! ## Ranks -/

/-- A value that no live expression mentions, and that is no input. -/
structure Unlinked (f : Fusion) (v : ValueId) : Prop where
  definition : f.definition v = none
  uses : f.uses v = []
  input : v ∉ f.inputs

/-- Whether a value is unlinked depends on the flow of values only. -/
theorem Unlinked.sameFlow {v : ValueId} (h : f.Unlinked v) (hflow : SameFlow f f') :
    f'.Unlinked v :=
  ⟨(hflow.definition v).trans h.definition, (hflow.uses v).trans h.uses, hflow.inputs ▸ h.input⟩

/-- A handle that is not there yet is unlinked. -/
theorem Wired.unlinked (h : Wired f) {v : ValueId} (hv : ¬ f.HasValue v) : f.Unlinked v := by
  refine ⟨?_, ?_, fun hmem => hv (h.inputs v hmem).1⟩
  · rw [definition, value_of_not_hasValue hv]
    rfl
  · rw [uses, value_of_not_hasValue hv]
    rfl

/-- A new value is unlinked. -/
theorem Wired.unlinked_pushValue (h : Wired f) (t : DataType) (kind : ValueKind) :
    (f.pushValue t kind).Unlinked ⟨f.values.size⟩ :=
  (h.unlinked (Nat.lt_irrefl _)).sameFlow (SameFlow.pushValue f t kind)

/-- A rank with room for new values just below a threshold. -/
def rankBelow (rank : ValueId → Nat) (threshold : Nat) (vs : List ValueId) (v : ValueId) : Nat :=
  if v ∈ vs then 2 * threshold else 2 * rank v + 1

section RankBelow

variable {rank : ValueId → Nat} {threshold : Nat} {vs : List ValueId} {u v : ValueId}

/-- What lies below the threshold stays below the values moved there. -/
theorem rankBelow_lt (hu : u ∉ vs) (hv : v ∈ vs) (h : rank u < threshold) :
    rankBelow rank threshold vs u < rankBelow rank threshold vs v := by
  simp only [rankBelow, if_neg hu, if_pos hv]
  omega

/-- Values moved below the threshold lie below all that is above it. -/
theorem lt_rankBelow (hu : u ∈ vs) (hv : v ∉ vs) (h : threshold ≤ rank v) :
    rankBelow rank threshold vs u < rankBelow rank threshold vs v := by
  simp only [rankBelow, if_pos hu, if_neg hv]
  omega

/-- The refined rank grows along all expressions if nothing reads the new values and what computes
them reads values below the threshold. -/
theorem Ranked.below (h : f.Ranked rank)
    (hread : ∀ e x, f.expr? e = some x → ∀ u ∈ x.inputs, u ∉ vs)
    (hwrite : ∀ e x, f.expr? e = some x → ∀ v ∈ x.outputs, v ∈ vs →
      ∀ u ∈ x.inputs, rank u < threshold) : f.Ranked (rankBelow rank threshold vs) := by
  intro e x hx u hu v hv
  have hu' := hread e x hx u hu
  by_cases hv' : v ∈ vs
  · exact rankBelow_lt hu' hv' (hwrite e x hx v hv hv' u hu)
  · have hlt := h e x hx u hu v hv
    simp only [rankBelow, if_neg hu', if_neg hv']
    omega

/-- Unlinked values may be placed anywhere. -/
theorem Wired.ranked_below (hw : Wired f) (h : f.Ranked rank) (hvs : ∀ v ∈ vs, f.Unlinked v)
    (threshold : Nat) : f.Ranked (rankBelow rank threshold vs) := by
  refine h.below (fun e x hx u hu hmem => ?_) fun e x hx v hv hmem => ?_
  · have hread := hw.reads e x hx u hu
    rw [(hvs u hmem).uses] at hread
    cases hread
  · have hdef := hw.defines e x hx v hv
    rw [(hvs v hmem).definition] at hdef
    cases hdef

end RankBelow

/-- Every list of values lies below some threshold. -/
theorem exists_threshold (rank : ValueId → Nat) (us : List ValueId) :
    ∃ threshold, (∀ u ∈ us, rank u < threshold) ∧
      ∀ n, (∀ u ∈ us, rank u < n) → threshold ≤ n := by
  induction us with
  | nil => exact ⟨0, by simp, by simp⟩
  | cons u us ih =>
      obtain ⟨m, hlt, hle⟩ := ih
      refine ⟨max m (rank u + 1), fun w hw => ?_, fun n hn => ?_⟩
      · rcases List.mem_cons.1 hw with rfl | hw
        · omega
        · have := hlt w hw
          omega
      · have hm := hle n fun w hw => hn w (List.mem_cons_of_mem u hw)
        have hu := hn u List.mem_cons_self
        omega

/-- Unlinked values fit between the operands and the results of a live expression. -/
theorem Wired.exists_rank_between (hw : Wired f) {e : ExprId} {x : Expr}
    (hx : f.expr? e = some x) {vs : List ValueId} (hvs : ∀ v ∈ vs, f.Unlinked v) :
    ∃ rank, f.Ranked rank ∧ (∀ u ∈ x.inputs, ∀ v ∈ vs, rank u < rank v) ∧
      ∀ u ∈ vs, ∀ v ∈ x.outputs, rank u < rank v := by
  obtain ⟨rank, hrank⟩ := hw.ranked
  obtain ⟨threshold, hlt, hle⟩ := exists_threshold rank x.inputs
  refine ⟨_, hw.ranked_below hrank hvs threshold, fun u hu v hv => ?_, fun u hu v hv => ?_⟩
  · refine rankBelow_lt (fun hmem => ?_) hv (hlt u hu)
    have hread := hw.reads e x hx u hu
    rw [(hvs u hmem).uses] at hread
    cases hread
  · refine lt_rankBelow hu (fun hmem => ?_) (hle _ fun w hw' => hrank e x hx w hw' v hv)
    have hdef := hw.defines e x hx v hv
    rw [(hvs v hmem).definition] at hdef
    cases hdef

/-- Unlinked values fit above any other values. -/
theorem Wired.exists_rank_above (hw : Wired f) {us vs : List ValueId}
    (hvs : ∀ v ∈ vs, f.Unlinked v ∧ v ∉ us) :
    ∃ rank, f.Ranked rank ∧ ∀ u ∈ us, ∀ v ∈ vs, rank u < rank v := by
  obtain ⟨rank, hrank⟩ := hw.ranked
  obtain ⟨threshold, hlt, -⟩ := exists_threshold rank us
  refine ⟨_, hw.ranked_below hrank (fun v hv => (hvs v hv).1) threshold, fun u hu v hv => ?_⟩
  exact rankBelow_lt (fun hmem => (hvs u hmem).2 hu) hv (hlt u hu)

/-- A value that only a copy computes, and that nothing reads, fits between the original and
everything above it. -/
theorem Wired.exists_rank_copy (hw : Wired f) {k : ExprId} {x : Expr} {t c : ValueId}
    (hk : f.expr? k = some x) (hin : x.inputs = [t]) (hout : x.outputs = [c])
    (huses : f.uses c = []) :
    ∃ rank, f.Ranked rank ∧ ∀ v, v ≠ c → rank t < rank v → rank c < rank v := by
  obtain ⟨rank, hrank⟩ := hw.ranked
  have hread : ∀ e y, f.expr? e = some y → ∀ u ∈ y.inputs, u ∉ [c] := by
    intro e y hy u hu hmem
    have hread := hw.reads e y hy u hu
    rw [List.mem_singleton.1 hmem, huses] at hread
    cases hread
  have htc : t ∉ [c] := hread k x hk t (by simp [hin])
  refine ⟨rankBelow rank (rank t + 1) [c], hrank.below hread ?_, ?_⟩
  · intro e y hy v hv hmem u hu
    have hdef := hw.defines k x hk c (by simp [hout])
    rw [← List.mem_singleton.1 hmem, hw.defines e y hy v hv] at hdef
    cases hdef
    rw [hk] at hy
    cases hy
    rw [hin, List.mem_singleton] at hu
    rw [hu]
    exact Nat.lt_succ_self _
  · intro v hv hlt
    have hv' : v ∉ [c] := by simpa using hv
    refine lt_rankBelow (by simp) hv' ?_
    simp only [rankBelow, if_neg htc, if_neg hv'] at hlt
    omega

/-! ## Adding and removing expressions -/

/-- Changes of values leave the inputs alone. -/
theorem modifyValues_inputs (f : Fusion) (vs : List ValueId) (g : Value → Value) :
    (vs.foldl (fun f v => f.modifyValue v g) f).inputs = f.inputs := by
  induction vs generalizing f with
  | nil => rfl
  | cons v vs ih => exact ih _

/-- Changes of values leave the outputs alone. -/
theorem modifyValues_outputs (f : Fusion) (vs : List ValueId) (g : Value → Value) :
    (vs.foldl (fun f v => f.modifyValue v g) f).outputs = f.outputs := by
  induction vs generalizing f with
  | nil => rfl
  | cons v vs ih => exact ih _

/-- A new expression makes no inputs. -/
theorem inputs_pushExpr (f : Fusion) (x : Expr) : (f.pushExpr x).inputs = f.inputs := by
  unfold pushExpr
  simp only [modifyValues_inputs]

/-- A new expression makes no outputs. -/
theorem outputs_pushExpr (f : Fusion) (x : Expr) : (f.pushExpr x).outputs = f.outputs := by
  unfold pushExpr
  simp only [modifyValues_outputs]

/-- Removing an expression removes no inputs. -/
theorem inputs_removeExpr (f : Fusion) (e : ExprId) : (f.removeExpr e).inputs = f.inputs := by
  cases hx : f.expr? e with
  | none => simp [removeExpr, hx]
  | some x => simp only [removeExpr_eq hx, modifyValues_inputs]

/-- Removing an expression removes no outputs. -/
theorem outputs_removeExpr (f : Fusion) (e : ExprId) : (f.removeExpr e).outputs = f.outputs := by
  cases hx : f.expr? e with
  | none => simp [removeExpr, hx]
  | some x => simp only [removeExpr_eq hx, modifyValues_outputs]

/-- Adding an expression keeps a fusion wired if its results had no definition and are no inputs,
and some rank grows along it. -/
theorem Wired.pushExpr {x : Expr} (hw : Wired f)
    (hin : ∀ v ∈ x.inputs, f.HasValue v) (hout : ∀ v ∈ x.outputs, f.HasValue v)
    (hnew : ∀ v ∈ x.outputs, f.definition v = none ∧ v ∉ f.inputs)
    (hrank : ∃ rank, f.Ranked rank ∧ ∀ u ∈ x.inputs, ∀ v ∈ x.outputs, rank u < rank v) :
    Wired (f.pushExpr x) := by
  obtain ⟨rank, hrank, hgrows⟩ := hrank
  refine ⟨?_, ?_, ⟨rank, ?_⟩, ?_, ?_, inputs_pushExpr f x ▸ hw.distinct,
    fun v => nodup_uses_pushExpr (hw.once v)⟩
  · intro e y hy v hv
    rw [expr?_pushExpr] at hy
    rw [definition_pushExpr]
    split at hy
    case isTrue he =>
        cases hy
        rw [if_pos ⟨hv, hout v hv⟩, ← he]
    case isFalse =>
        have hdef := hw.defines e y hy v hv
        rw [if_neg, hdef]
        rintro ⟨hmem, -⟩
        rw [(hnew v hmem).1] at hdef
        cases hdef
  · intro e y hy v hv
    rw [expr?_pushExpr] at hy
    rw [mem_uses_pushExpr]
    split at hy
    case isTrue he =>
        cases hy
        exact .inr ⟨by rw [← he], hv, hin v hv⟩
    case isFalse => exact .inl (hw.reads e y hy v hv)
  · intro e y hy
    rw [expr?_pushExpr] at hy
    split at hy
    · cases hy
      exact hgrows
    · exact hrank e y hy
  · intro v hv
    rw [inputs_pushExpr] at hv
    obtain ⟨hhas, hdef⟩ := hw.inputs v hv
    rw [definition_pushExpr, if_neg, HasValue, size_pushExpr]
    · exact ⟨hhas, hdef⟩
    · rintro ⟨hmem, -⟩
      exact (hnew v hmem).2 hv
  · intro v hv
    rw [outputs_pushExpr] at hv
    rw [isTensor_pushExpr]
    exact hw.outputs v hv

/-- A new expression over values that nothing else mentions. -/
theorem Wired.pushExpr_unlinked {x : Expr} (hw : Wired f)
    (hin : ∀ v ∈ x.inputs, f.HasValue v) (hout : ∀ v ∈ x.outputs, f.HasValue v)
    (hnew : ∀ v ∈ x.outputs, f.Unlinked v ∧ v ∉ x.inputs) : Wired (f.pushExpr x) :=
  hw.pushExpr hin hout (fun v hv => ⟨(hnew v hv).1.definition, (hnew v hv).1.input⟩)
    (hw.exists_rank_above hnew)

/-- Other uses of a value stay. -/
theorem mem_uses_removeExpr_of_ne {e d : ExprId} {w : ValueId} (h : d ∈ f.uses w) (hne : d ≠ e) :
    d ∈ (f.removeExpr e).uses w := by
  cases hx : f.expr? e with
  | none => simpa [removeExpr, hx] using h
  | some x =>
      rw [uses, value_removeExpr hx]
      dsimp only
      by_cases hin : w ∈ x.inputs ∧ f.HasValue w
      · have hforget : d ∈ (forgetUse e (f.value w)).uses :=
          List.mem_filter.2 ⟨h, by simpa using hne⟩
        simp only [if_pos hin]
        split <;> simpa using hforget
      · have hkeep : d ∈ (f.value w).uses := h
        simp only [if_neg hin]
        split <;> simpa using hkeep

/-- With an expression less there is less to rank. -/
theorem Ranked.removeExpr {rank : ValueId → Nat} (h : f.Ranked rank) (e : ExprId) :
    (f.removeExpr e).Ranked rank := by
  intro d x hx
  rw [expr?_removeExpr] at hx
  split at hx
  · cases hx
  · exact h d x hx

/-- Removing an expression keeps a fusion wired. -/
theorem Wired.removeExpr (hw : Wired f) (hf : Sound f) (e : ExprId) : Wired (f.removeExpr e) := by
  obtain ⟨rank, hrank⟩ := hw.ranked
  refine ⟨?_, ?_, ⟨rank, hrank.removeExpr e⟩, ?_, ?_, inputs_removeExpr f e ▸ hw.distinct,
    fun v => nodup_uses_removeExpr (hw.once v)⟩
  · intro d x hx v hv
    rw [expr?_removeExpr] at hx
    split at hx
    · cases hx
    case isFalse hne =>
        have hdef := hw.defines d x hx v hv
        rw [definition_removeExpr hf, hdef, if_neg]
        simpa using hne
  · intro d x hx v hv
    rw [expr?_removeExpr] at hx
    split at hx
    · cases hx
    case isFalse hne => exact mem_uses_removeExpr_of_ne (hw.reads d x hx v hv) hne
  · intro v hv
    rw [inputs_removeExpr] at hv
    obtain ⟨hhas, hdef⟩ := hw.inputs v hv
    rw [definition_removeExpr hf, hdef, HasValue, size_removeExpr]
    exact ⟨hhas, by simp⟩
  · intro v hv
    rw [outputs_removeExpr] at hv
    rw [isTensor_removeExpr]
    exact hw.outputs v hv

/-- Every expression that a tensor takes part in computes tensors. -/
theorem ExprSound.isTensor_outputs {x : Expr} (hx : f.ExprSound x) {v : ValueId}
    (hv : v ∈ x.inputs ∨ v ∈ x.outputs) (ht : f.isTensor v = true) :
    ∀ w ∈ x.outputs, f.isTensor w = true := by
  rcases hx.kinds with hall | ⟨u, hout, hu, -, hin⟩
  · exact hall
  · exfalso
    rcases hv with hv | hv
    · rw [(hin v hv).1] at ht
      cases ht
    · rw [hout, List.mem_singleton] at hv
      rw [hv, hu] at ht
      cases ht

/-- The operands of an expression that may be gone exist. -/
theorem Sound.hasValue_of_mem_inputs (hf : Sound f) {e : ExprId} {v : ValueId}
    (hv : v ∈ (f.expr e).inputs) : f.HasValue v := by
  unfold expr at hv
  cases hx : f.expr? e with
  | none =>
      rw [hx] at hv
      cases hv
  | some x =>
      rw [hx, Option.getD_some] at hv
      exact (hf.exprs e x hx).inputs v hv

/-- An expression is the definition of its results. -/
theorem Wired.definition_eq (hw : Wired f) {e : ExprId} {v : ValueId}
    (hv : v ∈ (f.expr e).outputs) : f.definition v = some e := by
  unfold expr at hv
  cases hx : f.expr? e with
  | none =>
      rw [hx] at hv
      cases hv
  | some x =>
      rw [hx, Option.getD_some] at hv
      exact hw.defines e x hx v hv

/-- The results of a removed expression are computed by nothing. -/
theorem Wired.removed_outputs (hw : Wired f) (hf : Sound f) {e : ExprId} {v : ValueId}
    (hv : v ∈ (f.expr e).outputs) : (f.removeExpr e).definition v = none ∧ v ∉ f.inputs := by
  have hdef := hw.definition_eq hv
  refine ⟨by rw [definition_removeExpr hf, if_pos hdef], fun hin => ?_⟩
  rw [(hw.inputs v hin).2] at hdef
  cases hdef

/-- An expression that writes into new values: its old results are free then, and there is room
for the new values below them. -/
theorem Wired.divert (hw : Wired f) (hf : Sound f) {e : ExprId} (kind : ExprKind)
    {vs : List ValueId} (hvs : ∀ v ∈ vs, f.Unlinked v ∧ f.HasValue v) {f' : Fusion}
    (h : (f.removeExpr e).pushExpr ⟨kind, (f.expr e).inputs, vs⟩ = f') :
    Wired f' ∧ (∀ v ∈ (f.expr e).outputs, f'.definition v = none ∧ v ∉ f'.inputs) ∧
      ∃ rank, f'.Ranked rank ∧ ∀ u ∈ vs, ∀ v ∈ (f.expr e).outputs, rank u < rank v := by
  subst h
  obtain ⟨rank, hrank, hbelow, habove⟩ : ∃ rank, f.Ranked rank ∧
      (∀ u ∈ (f.expr e).inputs, ∀ v ∈ vs, rank u < rank v) ∧
        ∀ u ∈ vs, ∀ v ∈ (f.expr e).outputs, rank u < rank v := by
    unfold expr
    cases hx : f.expr? e with
    | none =>
        obtain ⟨rank, hrank⟩ := hw.ranked
        refine ⟨rank, hrank, fun u hu => ?_, fun u _ v hv => ?_⟩
        · cases hu
        · cases hv
    | some x => exact hw.exists_rank_between hx fun v hv => (hvs v hv).1
  have hnew : ∀ v ∈ vs, (f.removeExpr e).definition v = none := by
    intro v hv
    rw [definition_removeExpr hf, (hvs v hv).1.definition]
    simp
  have hhas : ∀ v, f.HasValue v → (f.removeExpr e).HasValue v := by
    intro v hv
    rwa [HasValue, size_removeExpr]
  have hremoved := hrank.removeExpr e
  refine ⟨?_, fun v hv => ?_, rank, ?_, habove⟩
  · refine (hw.removeExpr hf e).pushExpr (fun v hv => hhas v (hf.hasValue_of_mem_inputs hv))
      (fun v hv => hhas v (hvs v hv).2) (fun v hv => ⟨hnew v hv, ?_⟩) ⟨rank, hremoved, hbelow⟩
    rw [inputs_removeExpr]
    exact (hvs v hv).1.input
  · obtain ⟨hnone, hin⟩ := hw.removed_outputs hf hv
    rw [definition_pushExpr, if_neg, inputs_pushExpr, inputs_removeExpr]
    · exact ⟨hnone, hin⟩
    · rintro ⟨hmem, -⟩
      have hdef := hw.definition_eq hv
      rw [(hvs v hmem).1.definition] at hdef
      cases hdef
  · intro d x hx
    rw [expr?_pushExpr] at hx
    split at hx
    · cases hx
      exact hbelow
    · exact hremoved d x hx

end Fusion
end FusionCompiler
