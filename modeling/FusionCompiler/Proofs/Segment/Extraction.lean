import FusionCompiler.Proofs.Outcome
import FusionCompiler.Proofs.Segment.Planning

/-!
# Segments as fusions

A segment becomes a fusion of its own by surgery on the complete one: the tensor
expressions of the other segments are removed, and the boundary of the segment
takes the place of the inputs and outputs.  Intermediate inputs get new axes, and
the sizes that their extents stood for are renamed.  None of this touches an
expression that is left, so the segment computes what it computed before.

Main results:

- Theorem `Segment.Removes.removeExprs`: removing tensor expressions leaves all
  other expressions as they were.
- Theorem `Segment.extract_extracted`: a segment with a proper boundary can be
  extracted, and the result has exactly its expressions and the scalar ones.
- Theorem `Segment.Extracted.mem_liveExprs`: a segment runs all its expressions.
-/

namespace FusionCompiler
namespace Segment

open Fusion

variable {f f' f₁ f₂ : Fusion} {exprs : List ExprId} {io : Boundary}

/-! ## Removing expressions -/

/-- The later fusion is the earlier one without some expressions. -/
structure Removes (removed : List ExprId) (f f' : Fusion) : Prop where
  sound : Sound f'
  wired : Wired f'
  expr? : ∀ e, f'.expr? e = if e ∈ removed then none else f.expr? e
  definition : ∀ v d, f'.definition v = some d ↔ f.definition v = some d ∧ d ∉ removed
  kind : ∀ v, (f'.value v).kind = (f.value v).kind
  size : f'.values.size = f.values.size
  inputs : f'.inputs = f.inputs
  outputs : f'.outputs = f.outputs

/-- Removing tensor expressions leaves all other expressions as they were. -/
theorem Removes.removeExprs (hf : Sound f) (hw : Wired f) {removed : List ExprId}
    (ht : ∀ e ∈ removed, ∀ v ∈ (f.expr e).outputs, f.isTensor v = true) :
    Removes removed f (removed.foldl Fusion.removeExpr f) := by
  induction removed generalizing f with
  | nil => exact ⟨hf, hw, by simp, by simp, fun _ => rfl, rfl, rfl, rfl⟩
  | cons e removed ih =>
      have hone : ∀ x, f.expr? e = some x → ∀ v ∈ x.outputs, f.isTensor v = true := by
        intro x hx v hv
        refine ht e List.mem_cons_self v ?_
        rwa [Fusion.expr, hx]
      obtain ⟨hsound, -⟩ := hf.removeExpr hone
      have hrest : ∀ d ∈ removed, ∀ v ∈ ((f.removeExpr e).expr d).outputs,
          (f.removeExpr e).isTensor v = true := by
        intro d hd v hv
        rw [isTensor_removeExpr]
        unfold Fusion.expr at hv
        rw [expr?_removeExpr] at hv
        split at hv
        · cases hv
        · exact ht d (List.mem_cons_of_mem e hd) v hv
      have h := ih hsound (hw.removeExpr hf e) hrest
      rw [List.foldl_cons]
      refine ⟨h.sound, h.wired, fun d => ?_, fun v d => ?_, fun v => ?_, ?_, ?_, ?_⟩
      · rw [h.expr?, expr?_removeExpr]
        by_cases hd : d = e
        · simp [hd]
        · simp [hd]
      · rw [h.definition, definition_removeExpr hf, List.mem_cons, not_or]
        by_cases hdef : f.definition v = some e
        · rw [if_pos hdef, hdef]
          simp only [reduceCtorEq, false_and, Option.some.injEq, false_iff, not_and]
          exact fun heq hne => absurd heq.symm hne
        · rw [if_neg hdef]
          constructor
          · rintro ⟨hd, hnot⟩
            exact ⟨hd, fun heq => hdef (heq ▸ hd), hnot⟩
          · rintro ⟨hd, -, hnot⟩
            exact ⟨hd, hnot⟩
      · rw [h.kind, kind_removeExpr]
      · rw [h.size, size_removeExpr]
      · rw [h.inputs, inputs_removeExpr]
      · rw [h.outputs, outputs_removeExpr]

/-- Removing expressions removes no axes. -/
theorem axes_removeExprs (removed : List ExprId) (f : Fusion) :
    (removed.foldl Fusion.removeExpr f).axes = f.axes := by
  induction removed generalizing f with
  | nil => rfl
  | cons e removed ih => rw [List.foldl_cons, ih, axes_removeExpr]

/-! ## Filling in a boundary -/

/-- The later fusion has the expressions of the earlier one over the same scalars, and more inputs
and outputs.  Its shapes may be others. -/
structure Fills (f : Fusion) (inputs outputs : List ValueId) (f' : Fusion) : Prop where
  exprs : f'.exprs = f.exprs
  definition : ∀ v, f'.definition v = f.definition v
  size : f.values.size ≤ f'.values.size
  isTensor : ∀ v, f.HasValue v → f'.isTensor v = f.isTensor v
  kind : ∀ v, f.HasValue v → f.isTensor v = false → (f'.value v).kind = (f.value v).kind
  inputs : f'.inputs = f.inputs ++ inputs
  outputs : f'.outputs = f.outputs ++ outputs

namespace Fills

variable {vs vs' ws ws' : List ValueId}

/-- What there was is still there. -/
theorem hasValue (h : Fills f vs ws f') {v : ValueId} (hv : f.HasValue v) : f'.HasValue v :=
  Nat.lt_of_lt_of_le hv h.size

/-- Nothing is filled in. -/
protected theorem refl (f : Fusion) : Fills f [] [] f :=
  ⟨rfl, fun _ => rfl, Nat.le_refl _, fun _ _ => rfl, fun _ _ _ => rfl, (List.append_nil _).symm,
    (List.append_nil _).symm⟩

/-- Filling in one after another. -/
protected theorem trans (h : Fills f vs ws f₁) (h' : Fills f₁ vs' ws' f₂) :
    Fills f (vs ++ vs') (ws ++ ws') f₂ := by
  refine ⟨h'.exprs.trans h.exprs, fun v => (h'.definition v).trans (h.definition v),
    Nat.le_trans h.size h'.size, fun v hv => (h'.isTensor v (h.hasValue hv)).trans (h.isTensor v hv),
    fun v hv ht => ?_, ?_, ?_⟩
  · exact (h'.kind v (h.hasValue hv) ((h.isTensor v hv).trans ht)).trans (h.kind v hv ht)
  · rw [h'.inputs, h.inputs, List.append_assoc]
  · rw [h'.outputs, h.outputs, List.append_assoc]

/-- Updates of shapes change neither inputs nor outputs. -/
theorem after (h : Fills f [] [] f₁) (h' : Fills f₁ vs ws f₂) : Fills f vs ws f₂ :=
  h.trans h'

/-- Filling in, and then a step that declares nothing. -/
theorem before (h : Fills f vs ws f₁) (h' : Fills f₁ [] [] f₂) : Fills f vs ws f₂ := by
  have hboth := h.trans h'
  rwa [List.append_nil, List.append_nil] at hboth

/-- A new value is no input. -/
theorem pushValue (f : Fusion) (t : DataType) (kind : ValueKind) :
    Fills f [] [] (f.pushValue t kind) := by
  have hext := extends_pushValue f t kind
  have hflow := SameFlow.pushValue f t kind
  exact ⟨rfl, hflow.definition, hext.values, hext.isTensor, hext.kind, (List.append_nil _).symm,
    (List.append_nil _).symm⟩

/-- A new axis is no input. -/
theorem pushAxis (f : Fusion) (x : Axis) : Fills f [] [] (f.pushAxis x) :=
  ⟨rfl, fun _ => rfl, Nat.le_refl _, fun _ _ => rfl, fun _ _ _ => rfl, (List.append_nil _).symm,
    (List.append_nil _).symm⟩

/-- A change of an axis declares nothing. -/
theorem modifyAxis (f : Fusion) (a : AxisId) (g : Axis → Axis) : Fills f [] [] (f.modifyAxis a g) :=
  ⟨rfl, fun _ => rfl, Nat.le_refl _, fun _ _ => rfl, fun _ _ _ => rfl, (List.append_nil _).symm,
    (List.append_nil _).symm⟩

/-- A change of a view declares nothing. -/
theorem modifyView (f : Fusion) (v : ValueId) (g : TensorView → TensorView) :
    Fills f [] [] (f.modifyView v g) := by
  refine ⟨rfl, fun w => definition_modifyView f v w g, Nat.le_of_eq (size_modifyView f v g).symm,
    fun w _ => isTensor_modifyView f v w g, fun w _ ht => ?_, (List.append_nil _).symm,
    (List.append_nil _).symm⟩
  rw [value_modifyView_of_scalar f v w g ht]

/-- Renaming an extent adds a scalar at most. -/
theorem renameExtent {v extent : ValueId} {dim : Nat} {names names' : Renaming}
    (h : Edit.Gives (renameExtent io v dim extent names) f names' f') : Fills f [] [] f' := by
  unfold Segment.renameExtent at h
  obtain ⟨g, f₁, hget, h⟩ := Edit.gives_bind.1 h
  obtain ⟨rfl, rfl⟩ := Edit.gives_get.1 hget
  split at h
  · split at h
    · obtain ⟨-, rfl⟩ := Edit.gives_pure.1 h
      exact .refl f
    · obtain ⟨size, f₂, hsize, h⟩ := Edit.gives_bind.1 h
      obtain ⟨rfl, rfl⟩ := Edit.gives_newValue.1 hsize
      obtain ⟨-, rfl⟩ := Edit.gives_pure.1 h
      exact pushValue f _ _
  · obtain ⟨-, rfl⟩ := Edit.gives_pure.1 h
    exact .refl f

/-- Materializing axes adds axes and scalars. -/
theorem materializeAxes {v : ValueId} {axes : List AxisId} {dim : Nat} {names : Renaming}
    {r : List AxisId × Renaming}
    (h : Edit.Gives (materializeAxes io v dim axes names) f r f') : Fills f [] [] f' := by
  induction axes generalizing f dim names r with
  | nil =>
      obtain ⟨-, rfl⟩ := Edit.gives_pure.1 h
      exact .refl f
  | cons a axes ih =>
      unfold Segment.materializeAxes at h
      obtain ⟨g, f₁, hget, h⟩ := Edit.gives_bind.1 h
      obtain ⟨rfl, rfl⟩ := Edit.gives_get.1 hget
      obtain ⟨names', f₁, hnames, h⟩ := Edit.gives_bind.1 h
      obtain ⟨copy, f₂, hcopy, h⟩ := Edit.gives_bind.1 h
      obtain ⟨rest, f₃, hrest, h⟩ := Edit.gives_bind.1 h
      obtain ⟨-, rfl⟩ := Edit.gives_pure.1 h
      unfold Edit.copyAxis at hcopy
      obtain ⟨g, f₀, hget, hcopy⟩ := Edit.gives_bind.1 hcopy
      obtain ⟨rfl, rfl⟩ := Edit.gives_get.1 hget
      obtain ⟨rfl, rfl⟩ := Edit.gives_addAxis.1 hcopy
      exact ((renameExtent hnames).after (pushAxis f₁ _)).after (ih hrest)

/-- Materializing a tensor gives it a plain root. -/
theorem materialize {complete : Fusion} {v : ValueId} {names names' : Renaming}
    (h : Edit.Gives (materialize complete io v names) f names' f') : Fills f [] [] f' := by
  unfold Segment.materialize at h
  obtain ⟨g, f₁, hget, h⟩ := Edit.gives_bind.1 h
  obtain ⟨rfl, rfl⟩ := Edit.gives_get.1 hget
  split at h
  · obtain ⟨r, f₁, haxes, h⟩ := Edit.gives_bind.1 h
    obtain ⟨u, f₂, hview, h⟩ := Edit.gives_bind.1 h
    obtain rfl := Edit.gives_modify.1 hview
    obtain ⟨-, rfl⟩ := Edit.gives_pure.1 h
    exact (materializeAxes haxes).after (modifyView f₁ v _)
  · obtain ⟨-, rfl⟩ := Edit.gives_pure.1 h
    exact .refl f

/-- Renaming operands declares nothing. -/
theorem applyRenaming (names : Renaming) (f : Fusion) : Fills f [] [] (applyRenaming names f) := by
  unfold Segment.applyRenaming
  split
  · exact .refl f
  · dsimp only
    generalize (f.allTensors.flatMap fun v => (f.view v).domain.root) = roots
    induction roots generalizing f with
    | nil => exact .refl f
    | cons a roots ih =>
        rw [List.foldl_cons]
        split
        · exact (modifyAxis f a _).after (ih _)
        · exact ih f

/-- A value that is not computed can be declared as an input. -/
theorem addInput {v : ValueId} (hdef : f.definition v = none) (hnew : v ∉ f.inputs) :
    ∃ f', (Build.addInput v).Returns f () f' ∧ Fills f [v] [] f' :=
  ⟨{ f with inputs := f.inputs ++ [v] }, Build.returns_addInput.2 ⟨hdef, hnew, rfl⟩, rfl,
    fun _ => rfl, Nat.le_refl _, fun _ _ => rfl, fun _ _ _ => rfl, rfl, (List.append_nil _).symm⟩

/-- A tensor can be declared as an output. -/
theorem addOutput {v : ValueId} (ht : f.isTensor v = true) (hnew : v ∉ f.outputs) :
    ∃ f', (Build.addOutput v).Returns f () f' ∧ Fills f [] [v] f' :=
  ⟨{ f with outputs := f.outputs ++ [v] }, Build.returns_addOutput.2 ⟨ht, hnew, rfl⟩, rfl,
    fun _ => rfl, Nat.le_refl _, fun _ _ => rfl, fun _ _ _ => rfl, (List.append_nil _).symm, rfl⟩

/-- Values that nothing computes, each listed once, can be made inputs. -/
theorem addInputs {complete : Fusion} {vs : List ValueId} (hdef : ∀ v ∈ vs, f.definition v = none)
    (hnew : ∀ v ∈ vs, v ∉ f.inputs) (hnodup : vs.Nodup) (names : Renaming) :
    ∃ names' f', (addInputs complete io vs names).Returns f names' f' ∧ Fills f vs [] f' := by
  induction vs generalizing f names with
  | nil => exact ⟨names, f, EditE.returns_pure.2 ⟨rfl, rfl⟩, .refl f⟩
  | cons v vs ih =>
      obtain ⟨hv, hvs⟩ := List.nodup_cons.1 hnodup
      obtain ⟨names₁, f₁, hshape⟩ : ∃ names₁ f₁,
          Edit.Gives (Segment.materialize complete io v names) f names₁ f₁ := ⟨_, _, rfl⟩
      have hfills := materialize hshape
      have hinputs : f₁.inputs = f.inputs := hfills.inputs.trans (List.append_nil _)
      obtain ⟨f₂, hinput, hfills₂⟩ := addInput (f := f₁) (v := v)
        ((hfills.definition v).trans (hdef v List.mem_cons_self))
        (hinputs ▸ hnew v List.mem_cons_self)
      have hfirst := hfills.after hfills₂
      obtain ⟨names', f₃, hrest, hfills₃⟩ := ih (f := f₂)
        (fun u hu => (hfirst.definition u).trans (hdef u (List.mem_cons_of_mem v hu)))
        (fun u hu hmem => by
          rw [hfirst.inputs, List.mem_append, List.mem_singleton] at hmem
          rcases hmem with hmem | rfl
          · exact hnew u (List.mem_cons_of_mem v hu) hmem
          · exact hv hu) hvs names₁
      refine ⟨names', f₃, ?_, hfirst.trans hfills₃⟩
      refine EditE.returns_bind.2 ⟨names₁, f₁, EditE.returns_lift.2 hshape, ?_⟩
      exact EditE.returns_bind.2 ⟨(), f₂, hinput, hrest⟩

/-- Tensors, each listed once, can be made outputs. -/
theorem addOutputs {vs : List ValueId} (ht : ∀ v ∈ vs, f.isTensor v = true)
    (hnew : ∀ v ∈ vs, v ∉ f.outputs) (hnodup : vs.Nodup) :
    ∃ f', (vs.forM Build.addOutput : Build Unit).Returns f () f' ∧ Fills f [] vs f' := by
  induction vs generalizing f with
  | nil => exact ⟨f, EditE.returns_pure.2 ⟨rfl, rfl⟩, .refl f⟩
  | cons v vs ih =>
      obtain ⟨hv, hvs⟩ := List.nodup_cons.1 hnodup
      obtain ⟨f₁, houtput, hfills⟩ := addOutput (ht v List.mem_cons_self)
        (hnew v List.mem_cons_self)
      obtain ⟨f₂, hrest, hfills₂⟩ := ih (f := f₁)
        (fun u hu => by
          have hut := ht u (List.mem_cons_of_mem v hu)
          exact (hfills.isTensor u (hasValue_of_isTensor hut)).trans hut)
        (fun u hu hmem => by
          rw [hfills.outputs, List.mem_append, List.mem_singleton] at hmem
          rcases hmem with hmem | rfl
          · exact hnew u (List.mem_cons_of_mem v hu) hmem
          · exact hv hu) hvs
      refine ⟨f₂, ?_, hfills.trans hfills₂⟩
      exact EditE.returns_bind.2 ⟨(), f₁, houtput, hrest⟩

end Fills

/-! ## Extracting a segment -/

/-- Whether an expression is left when a segment is extracted: it is in the segment, or it
computes a scalar. -/
def Stays (f : Fusion) (exprs : List ExprId) (e : ExprId) : Prop :=
  e ∈ f.tensorExprs → e ∈ exprs

/-- A fusion that computes what a segment of another one computes. -/
structure Extracted (f : Fusion) (exprs : List ExprId) (io : Boundary) (s : Fusion) : Prop where
  inputs : s.inputs = io.inputs
  outputs : s.outputs = io.outputs
  expr : ∀ e, Stays f exprs e → s.expr e = f.expr e
  definition : ∀ v d, s.definition v = some d ↔ f.definition v = some d ∧ Stays f exprs d
  kind : ∀ v, f.HasValue v → f.isTensor v = false → (s.value v).kind = (f.value v).kind
  founded : Founded s

/-- A boundary that a segment can have: its inputs are computed outside, its outputs are tensors,
and nothing is listed twice. -/
structure Boundary.Proper (f : Fusion) (exprs : List ExprId) (io : Boundary) : Prop where
  inputs : ∀ v ∈ io.inputs, ∀ d, f.definition v = some d → ¬ Stays f exprs d
  outputs : ∀ v ∈ io.outputs, f.isTensor v = true
  distinctInputs : io.inputs.Nodup
  distinctOutputs : io.outputs.Nodup

/-- Dropping one value and then others. -/
theorem filter_notMem_cons (v : ValueId) (vs l : List ValueId) :
    (l.filter (· != v)).filter (· ∉ vs) = l.filter (· ∉ v :: vs) := by
  rw [List.filter_filter]
  refine List.filter_congr fun u _ => ?_
  simp only [bne, List.mem_cons, not_or, Bool.decide_and, decide_not, Bool.and_comm]
  rfl

/-- Removing inputs drops them, and aliases to them. -/
theorem removeInputs_eq (vs : List ValueId) (f : Fusion) :
    ∃ aliases, vs.foldl Fusion.removeInput f =
      { f with inputs := f.inputs.filter (· ∉ vs), aliases } := by
  induction vs generalizing f with
  | nil => exact ⟨f.aliases, by simp⟩
  | cons v vs ih =>
      obtain ⟨aliases, heq⟩ := ih (f.removeInput v)
      refine ⟨aliases, ?_⟩
      rw [List.foldl_cons, heq, ← filter_notMem_cons]
      rfl

/-- Removing outputs drops them, and aliases of them. -/
theorem removeOutputs_eq (vs : List ValueId) (f : Fusion) :
    ∃ aliases, vs.foldl Fusion.removeOutput f =
      { f with outputs := f.outputs.filter (· ∉ vs), aliases } := by
  induction vs generalizing f with
  | nil => exact ⟨f.aliases, by simp⟩
  | cons v vs ih =>
      obtain ⟨aliases, heq⟩ := ih (f.removeOutput v)
      refine ⟨aliases, ?_⟩
      rw [List.foldl_cons, heq, ← filter_notMem_cons]
      rfl

/-- Removing all inputs and outputs leaves none. -/
theorem removeBoundary_eq {vs ws : List ValueId} (hin : f.inputs = vs) (hout : f.outputs = ws) :
    ∃ aliases, ws.foldl Fusion.removeOutput (vs.foldl Fusion.removeInput f) =
      { f with inputs := [], outputs := [], aliases } := by
  obtain ⟨aliases, heq⟩ := removeInputs_eq vs f
  obtain ⟨aliases', heq'⟩ := removeOutputs_eq ws
    { f with inputs := f.inputs.filter (· ∉ vs), aliases }
  have hnil : ∀ l : List ValueId, l.filter (· ∉ l) = [] := by simp
  refine ⟨aliases', ?_⟩
  rw [heq, heq']
  dsimp only
  rw [hin, hout, hnil, hnil]

/-- What fills in the boundary of a segment. -/
def fill (complete : Fusion) (io : Boundary) : Build Unit := do
  let names ← addInputs complete io io.inputs []
  io.outputs.forM Build.addOutput
  modify (applyRenaming names)

/-- A fusion without boundary in which only the expressions of a segment and the scalar ones are
left. -/
structure Stripped (f : Fusion) (exprs : List ExprId) (g : Fusion) : Prop where
  expr? : ∀ e, Stays f exprs e → g.expr? e = f.expr? e
  definition : ∀ v d, g.definition v = some d ↔ f.definition v = some d ∧ Stays f exprs d
  kind : ∀ v, (g.value v).kind = (f.value v).kind
  size : g.values.size = f.values.size
  axes : g.axes = f.axes
  inputs : g.inputs = []
  outputs : g.outputs = []
  founded : Founded g

/-- A stripped fusion has the same tensors. -/
theorem Stripped.isTensor {g : Fusion} (h : Stripped f exprs g) (v : ValueId) :
    g.isTensor v = f.isTensor v := by
  unfold Fusion.isTensor Value.isTensor Value.view?
  rw [h.kind]

/-- Segments are extracted by filling in the boundary of a stripped fusion. -/
theorem extract_eq (hf : Sound f) (hw : Wired f) (exprs : List ExprId) (io : Boundary) :
    ∃ g, Stripped f exprs g ∧ extract f exprs io = EditE.applyTo (fill f io) g := by
  have hremoved : ∀ e, e ∈ f.tensorExprs.filter (fun e => !exprs.contains e) ↔
      ¬ Stays f exprs e := by
    intro e
    simp [Stays]
  have htensors : ∀ e ∈ f.tensorExprs.filter (fun e => !exprs.contains e),
      ∀ v ∈ (f.expr e).outputs, f.isTensor v = true := by
    intro e he v hv
    obtain ⟨-, u, hu, ht⟩ := mem_tensorExprs.1 (List.mem_filter.1 he).1
    obtain ⟨x, hx, hmem⟩ := hf.defined u e (hw.definition_eq hu)
    rw [Fusion.expr, hx] at hv
    exact (hf.exprs e x hx).isTensor_outputs (.inr hmem) ht v hv
  have hone := Removes.removeExprs hf hw htensors
  have haxes := axes_removeExprs (f.tensorExprs.filter fun e => !exprs.contains e) f
  obtain ⟨aliases, hbare⟩ := removeBoundary_eq hone.inputs hone.outputs
  generalize hg : (f.tensorExprs.filter fun e => !exprs.contains e).foldl Fusion.removeExpr f = g
    at hone hbare haxes
  refine ⟨{ g with inputs := [], outputs := [], aliases }, ⟨fun e he => ?_, fun v d => ?_, hone.kind,
    hone.size, haxes, rfl, rfl, hone.sound.defined, hone.wired.ranked⟩, ?_⟩
  · have hexpr := hone.expr? e
    rw [if_neg (by rw [hremoved, not_not]; exact he)] at hexpr
    exact hexpr
  · have hdef := hone.definition v d
    rw [hremoved, not_not] at hdef
    exact hdef
  · unfold extract
    dsimp only
    rw [hg, hbare]
    rfl

/-- A segment with a proper boundary can be extracted. -/
theorem extract_extracted (hf : Sound f) (hw : Wired f) (hio : io.Proper f exprs) :
    ∃ s, extract f exprs io = .ok s ∧ Extracted f exprs io s := by
  obtain ⟨g, hg, hextract⟩ := extract_eq hf hw exprs io
  have hnone : ∀ v ∈ io.inputs, g.definition v = none := by
    intro v hv
    refine Option.eq_none_iff_forall_ne_some.2 fun d hdef => ?_
    obtain ⟨hdef, hstay⟩ := (hg.definition v d).1 hdef
    exact hio.inputs v hv d hdef hstay
  obtain ⟨names, g₁, hin, hfills₁⟩ : ∃ names g₁,
      (addInputs f io io.inputs []).Returns g names g₁ ∧ Fills g io.inputs [] g₁ :=
    Fills.addInputs hnone (by simp [hg.inputs]) hio.distinctInputs []
  have htensor : ∀ v ∈ io.outputs, g₁.isTensor v = true := by
    intro v hv
    have ht : g.isTensor v = true := (hg.isTensor v).trans (hio.outputs v hv)
    exact (hfills₁.isTensor v (hasValue_of_isTensor ht)).trans ht
  obtain ⟨g₂, hout, hfills₂⟩ := Fills.addOutputs htensor (by simp [hfills₁.outputs, hg.outputs])
    hio.distinctOutputs
  have hfills := (hfills₁.trans hfills₂).before (Fills.applyRenaming names g₂)
  rw [List.append_nil, List.nil_append] at hfills
  have hdef : ∀ v, (applyRenaming names g₂).definition v = g.definition v := hfills.definition
  have hexpr : ∀ e, (applyRenaming names g₂).expr? e = g.expr? e := by
    intro e
    unfold Fusion.expr?
    rw [hfills.exprs]
  refine ⟨applyRenaming names g₂, ?_, ?_, ?_, fun e he => ?_, fun v d => ?_, fun v hv ht => ?_, ?_,
    ?_⟩
  · rw [hextract]
    exact EditE.applyTo_eq_ok () (EditE.returns_bind.2 ⟨names, g₁, hin,
      EditE.returns_bind.2 ⟨(), g₂, hout, EditE.returns_modify.2 rfl⟩⟩)
  · rw [hfills.inputs, hg.inputs, List.nil_append]
  · rw [hfills.outputs, hg.outputs, List.nil_append]
  · unfold Fusion.expr
    rw [hexpr, hg.expr? e he]
  · rw [hdef, hg.definition]
  · have hv' : g.HasValue v := by rwa [HasValue, hg.size]
    exact (hfills.kind v hv' ((hg.isTensor v).trans ht)).trans (hg.kind v)
  · intro v e hv
    rw [hdef] at hv
    obtain ⟨x, hx, hmem⟩ := hg.founded.defined v e hv
    exact ⟨x, (hexpr e).trans hx, hmem⟩
  · obtain ⟨rank, hrank⟩ := hg.founded.ranked
    refine ⟨rank, fun e x hx => ?_⟩
    rw [hexpr] at hx
    exact hrank e x hx

/-! ## Boundaries of tensor expressions -/

/-- What computes a tensor that a tensor expression reads is a tensor expression. -/
theorem mem_tensorExprs_of_read (hf : Founded f) {d e : ExprId} {v : ValueId}
    (he : e ∈ f.tensorExprs) (hv : v ∈ (f.expr e).inputs) (ht : f.isTensor v = true)
    (hdef : f.definition v = some d) : d ∈ f.tensorExprs := by
  obtain ⟨pre, post, heq⟩ := List.append_of_mem he
  have hmem := hf.tensorExprs_inOrder heq hv ht hdef
  rw [heq]
  exact List.mem_append_left _ hmem

/-- The boundary of tensor expressions is proper. -/
theorem boundary_proper (hf : Sound f) (hw : Wired f) (hsub : ∀ e ∈ exprs, e ∈ f.tensorExprs) :
    (boundary f f.tensorExprs exprs).Proper f exprs := by
  refine ⟨fun v hv d hdef hstays => ?_, fun v hv => (mem_boundary_outputs.1 hv).1, ?_,
    nodup_foldl_addNew List.nodup_nil⟩
  · rcases mem_boundary_inputs.1 hv with ⟨ht, ⟨e, he, hread⟩, houtside⟩ | ⟨hin, -⟩
    · have hd := mem_tensorExprs_of_read (hw.founded hf) (hsub e he) hread ht hdef
      exact houtside d (hstays hd) hdef
    · rw [(hw.inputs v hin).2] at hdef
      cases hdef
  · refine List.nodup_append.2 ⟨nodup_foldl_addNew List.nodup_nil, hw.distinct.filter _,
      fun v hv u hu heq => ?_⟩
    have ht : f.isTensor v = true := by
      rw [mem_foldl_addNew, List.mem_filter] at hv
      rcases hv with hv | ⟨-, hv⟩
      · cases hv
      · exact (Bool.and_eq_true_iff.1 hv).1
    have hscalar := (List.mem_filter.1 hu).2
    rw [← heq, ht] at hscalar
    cases hscalar

namespace Extracted

variable {s : Fusion} {e : ExprId}

/-- What a segment runs is run by the complete fusion. -/
theorem live (hf : Sound f) (hw : Wired f) (hsub : ∀ e ∈ exprs, e ∈ f.tensorExprs)
    (hs : Extracted f exprs (boundary f f.tensorExprs exprs) s) (he : e ∈ s.liveExprs) :
    e ∈ f.liveExprs ∧ Stays f exprs e := by
  refine of_mem_liveExprs (P := fun e => e ∈ f.liveExprs ∧ Stays f exprs e)
    (fun v hv d hdef => ?_) (fun d e he hfeeds => ?_) he
  · rw [hs.outputs] at hv
    obtain ⟨-, ⟨d', hd', hout⟩, -⟩ := mem_boundary_outputs.1 hv
    obtain ⟨hdef, hstays⟩ := (hs.definition v d).1 hdef
    rw [hw.definition_eq hout] at hdef
    cases hdef
    exact ⟨(mem_tensorExprs.1 (hsub _ hd')).1, hstays⟩
  · obtain ⟨v, hv, hdef⟩ := hfeeds
    rw [hs.expr e he.2] at hv
    obtain ⟨hdef, hstays⟩ := (hs.definition v d).1 hdef
    obtain ⟨pre, post, heq⟩ := List.append_of_mem he.1
    have hmem := (hw.founded hf).liveExprs_inOrder.1 pre e post heq d ⟨v, hv, hdef⟩
    exact ⟨by simp [heq, hmem], hstays⟩

/-- A segment runs all its expressions: what needs one of them in the complete fusion is an output
or an expression outside, which the boundary knows, or an expression of the segment. -/
theorem mem_liveExprs (hf : Sound f) (hw : Wired f) (hsub : ∀ e ∈ exprs, e ∈ f.tensorExprs)
    (hs : Extracted f exprs (boundary f f.tensorExprs exprs) s) (he : e ∈ exprs) :
    e ∈ s.liveExprs := by
  have htensor : ∀ d ∈ exprs, ∀ v, f.definition v = some d →
      v ∈ (f.expr d).outputs ∧ f.isTensor v = true := by
    intro d hd v hdef
    obtain ⟨-, w, hw', ht⟩ := mem_tensorExprs.1 (hsub d hd)
    obtain ⟨x, hx, hmem⟩ := hf.defined v d hdef
    rw [Fusion.expr, hx] at hw' ⊢
    exact ⟨hmem, (hf.exprs d x hx).isTensor_outputs (.inr hw') ht v hmem⟩
  have hlive := (mem_tensorExprs.1 (hsub e he)).1
  have hall : ∀ {e}, e ∈ f.liveExprs → e ∈ f.liveExprs ∧ (e ∈ exprs → e ∈ s.liveExprs) := by
    intro e
    refine of_mem_liveExprs (P := fun e => e ∈ f.liveExprs ∧ (e ∈ exprs → e ∈ s.liveExprs))
      (fun v hv d hdef => ⟨(hw.founded hf).definition_mem_liveExprs hv hdef, fun hd => ?_⟩)
      fun d e hlive hfeeds => ?_
    · obtain ⟨hout, ht⟩ := htensor d hd v hdef
      refine hs.founded.definition_mem_liveExprs (v := v) ?_
        ((hs.definition v d).2 ⟨hdef, fun _ => hd⟩)
      rw [hs.outputs]
      exact mem_boundary_outputs.2 ⟨ht, ⟨d, hd, hout⟩, .inl hv⟩
    · obtain ⟨hlive, hin⟩ := hlive
      obtain ⟨v, hv, hdef⟩ := hfeeds
      obtain ⟨pre, post, heq⟩ := List.append_of_mem hlive
      have hmem := (hw.founded hf).liveExprs_inOrder.1 pre e post heq d ⟨v, hv, hdef⟩
      refine ⟨by simp [heq, hmem], fun hd => ?_⟩
      obtain ⟨hout, ht⟩ := htensor d hd v hdef
      have hkept := (hs.definition v d).2 ⟨hdef, fun _ => hd⟩
      by_cases he : e ∈ exprs
      · -- the reader is in the segment
        obtain ⟨pre, post, heq⟩ := List.append_of_mem (hin he)
        have hmem := hs.founded.liveExprs_inOrder.1 pre e post heq d
          ⟨v, by rwa [hs.expr e fun _ => he], hkept⟩
        simp [heq, hmem]
      · -- the reader is outside, so the segment hands out what it reads
        refine hs.founded.definition_mem_liveExprs (v := v) ?_ hkept
        rw [hs.outputs]
        obtain ⟨w, hw'⟩ := exists_definition_of_mem_liveExprs hlive
        obtain ⟨x, hx, hmem'⟩ := hf.defined w e hw'
        have hv' := hv
        rw [Fusion.expr, hx] at hv'
        have horder : e ∈ f.tensorExprs := mem_tensorExprs.2 ⟨hlive, w, by rwa [Fusion.expr, hx],
          (hf.exprs e x hx).isTensor_outputs (.inl hv') ht w hmem'⟩
        exact mem_boundary_outputs.2 ⟨ht, ⟨d, hd, hout⟩,
          .inr ⟨e, hw.reads e x hx v hv', horder, he⟩⟩
  exact (hall hlive).2 he

end Extracted

/-- The boundary of a group is proper. -/
theorem Context.Divides.io_proper {c : Context} {groups : List Group} {g : Group}
    (h : c.Divides groups) (hc : c.Proper) (hg : g ∈ groups) : g.io.Proper c.fusion g.exprs := by
  have hsub : ∀ e ∈ g.exprs, e ∈ c.fusion.tensorExprs := fun e he => hc.order ▸ h.mem_order hg he
  rw [h.io g hg, Context.io, hc.order]
  exact boundary_proper hc.sound hc.wired hsub

end Segment
end FusionCompiler
