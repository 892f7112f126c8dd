import FusionCompiler.Proofs.Fusion.Soundness

/-!
# Adding and removing expressions

An expression is the definition of its results and is noted as a use in its
operands.  Adding or removing one touches values on both sides, and this file
shows that the notes stay consistent.  No scalar loses its definition: only
expressions over tensors are ever removed.

Main results:

- Theorem `Fusion.Sound.pushExpr`: adding an expression keeps a fusion sound.
- Theorem `Fusion.Sound.removeExpr`: removing an expression over tensors keeps a
  fusion sound and extends it.
-/

namespace FusionCompiler
namespace Fusion

variable {f f' : Fusion}

/-! ## Adding -/

/-- A value that notes a use. -/
def noteUse (e : ExprId) (x : Value) : Value :=
  if x.uses.contains e then x else { x with uses := x.uses ++ [e] }

/-- A value that notes its definition. -/
def noteDefinition (e : ExprId) (x : Value) : Value :=
  { x with definition := some e }

/-- The fusion with one more expression. -/
def pushExpr (f : Fusion) (x : Expr) : Fusion :=
  let name : ExprId := ⟨f.exprs.size⟩
  let f' := x.outputs.foldl (fun f v => f.modifyValue v (noteDefinition name))
    (x.inputs.foldl (fun f v => f.modifyValue v (noteUse name)) f)
  { f' with exprs := f'.exprs.push (some x) }

/-- A use changes no type. -/
@[simp]
theorem noteUse_dtype (e : ExprId) (x : Value) : (noteUse e x).dtype = x.dtype := by
  unfold noteUse
  split <;> rfl

/-- A use changes no kind. -/
@[simp]
theorem noteUse_kind (e : ExprId) (x : Value) : (noteUse e x).kind = x.kind := by
  unfold noteUse
  split <;> rfl

/-- A use changes no definition. -/
@[simp]
theorem noteUse_definition (e : ExprId) (x : Value) :
    (noteUse e x).definition = x.definition := by
  unfold noteUse
  split <;> rfl

/-- A value notes a new use behind the ones it has. -/
theorem mem_uses_noteUse {e d : ExprId} {x : Value} :
    d ∈ (noteUse e x).uses ↔ d ∈ x.uses ∨ d = e := by
  unfold noteUse
  split
  case isTrue h =>
      have he : e ∈ x.uses := by simpa using h
      constructor
      · exact .inl
      · rintro (hd | rfl)
        · exact hd
        · exact he
  case isFalse => simp

/-- A use is noted once. -/
theorem noteUse_noteUse (e : ExprId) (x : Value) : noteUse e (noteUse e x) = noteUse e x := by
  by_cases h : x.uses.contains e = true
  · have hx : noteUse e x = x := if_pos h
    rw [hx, hx]
  · have hx : noteUse e x = { x with uses := x.uses ++ [e] } := if_neg h
    rw [hx]
    exact if_pos (by simp)

/-- A use is noted once. -/
theorem nodup_uses_noteUse {e : ExprId} {x : Value} (h : x.uses.Nodup) :
    (noteUse e x).uses.Nodup := by
  unfold noteUse
  split
  case isTrue => exact h
  case isFalse hnew =>
      refine List.nodup_append.2 ⟨h, List.pairwise_singleton _ e, fun d hd d' hd' => ?_⟩
      rw [List.mem_singleton.1 hd']
      rintro rfl
      exact hnew (by simpa using hd)

section PushExpr

variable {x : Expr}

/-- A new expression is noted by the values it reads and by those it computes. -/
theorem value_pushExpr (f : Fusion) (x : Expr) (w : ValueId) :
    (f.pushExpr x).value w =
      let y := if w ∈ x.inputs ∧ f.HasValue w then noteUse ⟨f.exprs.size⟩ (f.value w)
        else f.value w
      if w ∈ x.outputs ∧ f.HasValue w then noteDefinition ⟨f.exprs.size⟩ y else y := by
  have hin := value_modifyValues f x.inputs w (noteUse ⟨f.exprs.size⟩) (noteUse_noteUse _)
  have hout := value_modifyValues
    (x.inputs.foldl (fun f' v => f'.modifyValue v (noteUse ⟨f.exprs.size⟩)) f) x.outputs w
    (noteDefinition ⟨f.exprs.size⟩) fun _ => rfl
  rw [hin] at hout
  simp only [HasValue, size_modifyValues] at hout
  exact hout

/-- A new expression adds no value. -/
theorem size_pushExpr (f : Fusion) (x : Expr) :
    (f.pushExpr x).values.size = f.values.size := by
  unfold pushExpr
  simp only [size_modifyValues]

/-- A new expression adds no axis. -/
theorem axes_pushExpr (f : Fusion) (x : Expr) : (f.pushExpr x).axes = f.axes := by
  unfold pushExpr
  simp only [modifyValues_axes]

/-- A new expression adds no transform. -/
theorem transforms_pushExpr (f : Fusion) (x : Expr) :
    (f.pushExpr x).transforms = f.transforms := by
  unfold pushExpr
  simp only [modifyValues_transforms]

/-- A new expression comes behind all others. -/
theorem expr?_pushExpr (f : Fusion) (x : Expr) (e : ExprId) :
    (f.pushExpr x).expr? e = if e.index = f.exprs.size then some x else f.expr? e := by
  rw [← expr?_push]
  unfold expr? pushExpr
  simp only [modifyValues_exprs]

/-- A new expression is counted. -/
theorem exprs_size_pushExpr (f : Fusion) (x : Expr) :
    (f.pushExpr x).exprs.size = f.exprs.size + 1 := by
  unfold pushExpr
  simp only [modifyValues_exprs, Array.size_push]

/-- A new expression changes no type. -/
theorem dtype_pushExpr (f : Fusion) (x : Expr) (w : ValueId) :
    (f.pushExpr x).dtype w = f.dtype w := by
  unfold dtype
  rw [value_pushExpr]
  dsimp only
  split <;> split <;> simp [noteDefinition]

/-- A new expression changes no kind. -/
theorem kind_pushExpr (f : Fusion) (x : Expr) (w : ValueId) :
    ((f.pushExpr x).value w).kind = (f.value w).kind := by
  rw [value_pushExpr]
  dsimp only
  split <;> split <;> simp [noteDefinition]

/-- A tensor stays one. -/
theorem isTensor_pushExpr (f : Fusion) (x : Expr) (w : ValueId) :
    (f.pushExpr x).isTensor w = f.isTensor w := by
  unfold isTensor Value.isTensor Value.view?
  rw [kind_pushExpr]

/-- A new expression changes no view. -/
theorem view_pushExpr (f : Fusion) (x : Expr) (w : ValueId) :
    (f.pushExpr x).view w = f.view w := by
  unfold view Value.view?
  rw [kind_pushExpr]

/-- What a new expression computes has it as definition. -/
theorem definition_pushExpr (f : Fusion) (x : Expr) (w : ValueId) :
    (f.pushExpr x).definition w =
      if w ∈ x.outputs ∧ f.HasValue w then some ⟨f.exprs.size⟩ else f.definition w := by
  unfold definition
  rw [value_pushExpr]
  dsimp only
  split <;> split <;> simp [noteDefinition]

/-- An expression computes its results. -/
theorem definingExpr?_pushExpr (f : Fusion) {x : Expr} {v : ValueId} (hv : v ∈ x.outputs)
    (hhas : f.HasValue v) : (f.pushExpr x).definingExpr? v = some x := by
  rw [definingExpr?, definition_pushExpr, if_pos ⟨hv, hhas⟩, Option.map_some, expr,
    expr?_pushExpr, if_pos rfl]
  rfl

/-- The uses of a value after an expression is added. -/
theorem mem_uses_pushExpr {w : ValueId} {e : ExprId} :
    e ∈ (f.pushExpr x).uses w ↔
      e ∈ f.uses w ∨ (e = ⟨f.exprs.size⟩ ∧ w ∈ x.inputs ∧ f.HasValue w) := by
  unfold uses
  rw [value_pushExpr]
  dsimp only
  by_cases hw : w ∈ x.inputs ∧ f.HasValue w
  · have huses : ∀ y : Value, (noteDefinition ⟨f.exprs.size⟩ y).uses = y.uses := fun _ => rfl
    simp only [if_pos hw]
    split <;> simp [huses, mem_uses_noteUse, hw.1, hw.2]
  · simp only [if_neg hw]
    split <;> simp [noteDefinition, hw]

/-- The uses of a value stay apart. -/
theorem nodup_uses_pushExpr {w : ValueId} (h : (f.uses w).Nodup) :
    ((f.pushExpr x).uses w).Nodup := by
  have hnoted : (if w ∈ x.inputs ∧ f.HasValue w then noteUse ⟨f.exprs.size⟩ (f.value w)
      else f.value w).uses.Nodup := by
    split
    · exact nodup_uses_noteUse h
    · exact h
  rw [uses, value_pushExpr]
  dsimp only
  split
  · exact hnoted
  · exact hnoted

/-- A live expression is older than the next one. -/
theorem index_lt_of_expr? {e : ExprId} (h : f.expr? e = some x) : e.index < f.exprs.size := by
  by_contra hle
  rw [expr?, Array.getElem?_eq_none (Nat.le_of_not_lt hle)] at h
  cases h

/-- What computes other values is as before. -/
theorem definingExpr?_pushExpr_of_not (hf : Sound f) {v : ValueId}
    (hv : ¬ (v ∈ x.outputs ∧ f.HasValue v)) :
    (f.pushExpr x).definingExpr? v = f.definingExpr? v := by
  unfold definingExpr?
  rw [definition_pushExpr, if_neg hv]
  cases hd : f.definition v with
  | none => rfl
  | some e =>
      obtain ⟨y, hy, -⟩ := hf.defined v e hd
      have hne : e.index ≠ f.exprs.size := Nat.ne_of_lt (index_lt_of_expr? hy)
      simp [expr, expr?_pushExpr, hne]

/-- Adding an expression extends any fusion that does not know its scalar results yet. -/
theorem extends_pushExpr {f₀ : Fusion} (hf : Sound f) (h₀ : Extends f₀ f)
    (hout : ∀ v ∈ x.outputs, f₀.HasValue v → f.isTensor v = true) :
    Extends f₀ (f.pushExpr x) where
  values := by
    rw [size_pushExpr]
    exact h₀.values
  axes := by
    rw [axes_pushExpr]
    exact h₀.axes
  transforms := by
    rw [transforms_pushExpr]
    exact h₀.transforms
  dtype v hv := by
    rw [dtype_pushExpr]
    exact h₀.dtype v hv
  isTensor v hv := by
    rw [isTensor_pushExpr]
    exact h₀.isTensor v hv
  kind v hv hs := by
    rw [kind_pushExpr]
    exact h₀.kind v hv hs
  definingExpr v hv hs := by
    rw [← h₀.definingExpr v hv hs]
    have hnot : ¬ (v ∈ x.outputs ∧ f.HasValue v) := by
      rintro ⟨hmem, -⟩
      have ht := hout v hmem hv
      rw [h₀.isTensor v hv, hs] at ht
      cases ht
    exact definingExpr?_pushExpr_of_not hf hnot
  extent a ha := by
    unfold extent axis
    rw [axes_pushExpr]
    exact h₀.extent a ha
  transform t ht := by
    unfold transform
    rw [transforms_pushExpr]
    exact h₀.transform t ht
  exprs := by
    rw [exprs_size_pushExpr]
    exact Nat.le_succ_of_le h₀.exprs
  expr e y he hy := by
    have hlt : e.index < f.exprs.size := Nat.lt_of_lt_of_le he h₀.exprs
    rw [expr?_pushExpr, if_neg (Nat.ne_of_lt hlt)] at hy
    exact h₀.expr e y he hy

/-- Adding an expression to a sound fusion.  `f₀` is the fusion before the results were made; it
holds every axis and transform, so no extent depends on a result. -/
theorem Sound.pushExpr {f₀ : Fusion} (hf₀ : Sound f₀) (h₀ : Extends f₀ f) (hf : Sound f)
    (haxes : f.axes = f₀.axes) (htransforms : f.transforms = f₀.transforms)
    (hx : f.ExprSound x) (hout : ∀ v ∈ x.outputs, f₀.HasValue v → f.isTensor v = true) :
    Sound (f.pushExpr x) := by
  have hext := extends_pushExpr hf h₀ hout
  have hexpr : ∀ y : Expr, f.ExprSound y → (f.pushExpr x).ExprSound y := by
    intro y hy
    refine ⟨?_, ?_, ?_⟩
    · intro v hv
      unfold HasValue
      rw [size_pushExpr]
      exact hy.inputs v hv
    · intro v hv
      unfold HasValue
      rw [size_pushExpr]
      exact hy.outputs v hv
    · simp only [isTensor_pushExpr]
      exact hy.kinds
  have hold : ∀ e y, f.expr? e = some y → (f.pushExpr x).expr? e = some y := by
    intro e y hy
    rw [expr?_pushExpr, if_neg (Nat.ne_of_lt (index_lt_of_expr? hy))]
    exact hy
  have htransform : (f.pushExpr x).transform = f₀.transform := by
    unfold transform
    rw [transforms_pushExpr, htransforms]
  have hhas : ∀ t, (f.pushExpr x).HasTransform t → f₀.HasTransform t := by
    intro t ht
    unfold HasTransform at ht ⊢
    rw [transforms_pushExpr, htransforms] at ht
    exact ht
  refine ⟨?_, ?_, ?_, ?_, ?_, ?_, ?_, ?_⟩
  · intro v e hv
    rw [definition_pushExpr] at hv
    split at hv
    case isTrue hmem =>
        cases hv
        exact ⟨x, by rw [expr?_pushExpr, if_pos rfl], hmem.1⟩
    case isFalse =>
        obtain ⟨y, hy, hmem⟩ := hf.defined v e hv
        exact ⟨y, hold e y hy, hmem⟩
  · intro v e he
    rcases mem_uses_pushExpr.1 he with he | ⟨rfl, hmem, -⟩
    · obtain ⟨y, hy, hmem⟩ := hf.used v e he
      exact ⟨y, hold e y hy, hmem⟩
    · exact ⟨x, by rw [expr?_pushExpr, if_pos rfl], hmem⟩
  · intro e y hy
    rw [expr?_pushExpr] at hy
    split at hy
    · cases hy
      exact hexpr x hx
    · exact hexpr y (hf.exprs e y hy)
  · intro v c hv hint
    rw [const?, Value.const?, kind_pushExpr] at hv
    rw [dtype_pushExpr] at hint
    exact hf.literals v c hv hint
  · intro a ha
    have ha₀ : f₀.HasAxis a := by
      unfold HasAxis at ha ⊢
      rw [axes_pushExpr, haxes] at ha
      exact ha
    rw [hext.extent a ha₀]
    exact (hf₀.extents a ha₀).mono hext
  · intro t ht
    rw [htransform]
    exact (hf₀.recorded t (hhas t ht)).mono hf₀.extents hext
  · intro s t hst ht
    rw [htransform]
    exact hf₀.ordered s t hst (hhas t ht)
  · intro v a ha
    rw [view_pushExpr] at ha
    have h := hf.domains v a ha
    unfold HasAxis
    rw [axes_pushExpr]
    exact h

end PushExpr

/-! ## Removing -/

/-- A value that forgets a use. -/
def forgetUse (e : ExprId) (x : Value) : Value :=
  { x with uses := x.uses.filter (· != e) }

/-- A value that forgets its definition, if it is the given one. -/
def forgetDefinition (e : ExprId) (x : Value) : Value :=
  if x.definition == some e then { x with definition := none } else x

/-- A forgotten definition changes no type. -/
@[simp]
theorem forgetDefinition_dtype (e : ExprId) (x : Value) :
    (forgetDefinition e x).dtype = x.dtype := by
  unfold forgetDefinition
  split <;> rfl

/-- A forgotten definition changes no kind. -/
@[simp]
theorem forgetDefinition_kind (e : ExprId) (x : Value) :
    (forgetDefinition e x).kind = x.kind := by
  unfold forgetDefinition
  split <;> rfl

/-- A forgotten definition changes no uses. -/
@[simp]
theorem forgetDefinition_uses (e : ExprId) (x : Value) :
    (forgetDefinition e x).uses = x.uses := by
  unfold forgetDefinition
  split <;> rfl

/-- Only the given definition is forgotten. -/
theorem forgetDefinition_definition (e : ExprId) (x : Value) :
    (forgetDefinition e x).definition =
      if x.definition = some e then none else x.definition := by
  unfold forgetDefinition
  by_cases h : x.definition = some e <;> simp [h]

section RemoveExpr

variable {e : ExprId} {x : Expr}

/-- An expression is removed from the values that note it, and then from the table. -/
theorem removeExpr_eq (hx : f.expr? e = some x) :
    f.removeExpr e = x.outputs.foldl (fun f v => f.modifyValue v (forgetDefinition e))
      (x.inputs.foldl (fun f v => f.modifyValue v (forgetUse e))
        { f with exprs := f.exprs.modify e.index fun _ => none }) := by
  unfold removeExpr
  rw [hx]
  rfl

/-- A removed expression is forgotten by what it reads and what it computes. -/
theorem value_removeExpr (hx : f.expr? e = some x) (w : ValueId) :
    (f.removeExpr e).value w =
      let y := if w ∈ x.inputs ∧ f.HasValue w then forgetUse e (f.value w) else f.value w
      if w ∈ x.outputs ∧ f.HasValue w then forgetDefinition e y else y := by
  have hin := value_modifyValues { f with exprs := f.exprs.modify e.index fun _ => none }
    x.inputs w (forgetUse e) fun y => by simp [forgetUse]
  have hout := value_modifyValues (x.inputs.foldl (fun f v => f.modifyValue v (forgetUse e))
    { f with exprs := f.exprs.modify e.index fun _ => none }) x.outputs w (forgetDefinition e)
    fun y => by
      by_cases h : y.definition = some e <;> simp [forgetDefinition, h]
  rw [hin] at hout
  simp only [HasValue, size_modifyValues] at hout
  rw [removeExpr_eq hx]
  exact hout

/-- A removed expression takes no value with it. -/
theorem size_removeExpr (f : Fusion) (e : ExprId) :
    (f.removeExpr e).values.size = f.values.size := by
  cases hx : f.expr? e with
  | none => simp [removeExpr, hx]
  | some x => simp only [removeExpr_eq hx, size_modifyValues]

/-- A removed expression takes no axis with it. -/
theorem axes_removeExpr (f : Fusion) (e : ExprId) : (f.removeExpr e).axes = f.axes := by
  cases hx : f.expr? e with
  | none => simp [removeExpr, hx]
  | some x => simp only [removeExpr_eq hx, modifyValues_axes]

/-- A removed expression takes no transform with it. -/
theorem transforms_removeExpr (f : Fusion) (e : ExprId) :
    (f.removeExpr e).transforms = f.transforms := by
  cases hx : f.expr? e with
  | none => simp [removeExpr, hx]
  | some x => simp only [removeExpr_eq hx, modifyValues_transforms]

/-- A removed expression leaves a gap. -/
theorem expr?_removeExpr (f : Fusion) (e d : ExprId) :
    (f.removeExpr e).expr? d = if d = e then none else f.expr? d := by
  cases hx : f.expr? e with
  | none =>
      have hsame : f.removeExpr e = f := by simp [removeExpr, hx]
      rw [hsame]
      by_cases hd : d = e
      · simp [hd, hx]
      · simp [hd]
  | some x =>
      have hexprs : (f.removeExpr e).exprs = f.exprs.modify e.index fun _ => none := by
        simp only [removeExpr_eq hx, modifyValues_exprs]
      unfold expr?
      rw [hexprs, Array.getElem?_modify]
      by_cases hd : d = e
      · subst hd
        cases f.exprs[d.index]? <;> simp
      · have hindex : e.index ≠ d.index := fun h => hd (by cases d; cases e; simp_all)
        simp [hd, hindex]

/-- Names of later expressions do not change. -/
theorem exprs_size_removeExpr (f : Fusion) (e : ExprId) :
    (f.removeExpr e).exprs.size = f.exprs.size := by
  cases hx : f.expr? e with
  | none => simp [removeExpr, hx]
  | some x => simp only [removeExpr_eq hx, modifyValues_exprs, Array.size_modify]

/-- A removed expression changes no type. -/
theorem dtype_removeExpr (f : Fusion) (e : ExprId) (w : ValueId) :
    (f.removeExpr e).dtype w = f.dtype w := by
  cases hx : f.expr? e with
  | none => simp [removeExpr, hx]
  | some x =>
      unfold dtype
      rw [value_removeExpr hx]
      dsimp only
      split <;> split <;> simp [forgetUse]

/-- A removed expression changes no kind. -/
theorem kind_removeExpr (f : Fusion) (e : ExprId) (w : ValueId) :
    ((f.removeExpr e).value w).kind = (f.value w).kind := by
  cases hx : f.expr? e with
  | none => simp [removeExpr, hx]
  | some x =>
      rw [value_removeExpr hx]
      dsimp only
      split <;> split <;> simp [forgetUse]

/-- A tensor stays one, also without its definition. -/
theorem isTensor_removeExpr (f : Fusion) (e : ExprId) (w : ValueId) :
    (f.removeExpr e).isTensor w = f.isTensor w := by
  unfold isTensor Value.isTensor Value.view?
  rw [kind_removeExpr]

/-- A removed expression changes no view. -/
theorem view_removeExpr (f : Fusion) (e : ExprId) (w : ValueId) :
    (f.removeExpr e).view w = f.view w := by
  unfold view Value.view?
  rw [kind_removeExpr]

/-- A removed expression defines nothing, if it computed all that it defined. -/
theorem definition_removeExpr_of_defined
    (hdefined : ∀ w, f.definition w = some e → ∃ x, f.expr? e = some x ∧ w ∈ x.outputs)
    (w : ValueId) :
    (f.removeExpr e).definition w =
      if f.definition w = some e then none else f.definition w := by
  cases hx : f.expr? e with
  | none =>
      have hsame : f.removeExpr e = f := by simp [removeExpr, hx]
      rw [hsame, if_neg]
      intro hd
      obtain ⟨y, hy, -⟩ := hdefined w hd
      rw [hx] at hy
      cases hy
  | some x =>
      unfold definition
      rw [value_removeExpr hx]
      dsimp only
      by_cases hd : f.definition w = some e
      · obtain ⟨y, hy, hmem⟩ := hdefined w hd
        rw [hx] at hy
        cases hy
        have hd' : (f.value w).definition = some e := hd
        rw [if_pos ⟨hmem, hasValue_of_definition hd⟩, forgetDefinition_definition, if_pos hd']
        split <;> simp [forgetUse, hd']
      · have hd' : ¬ (f.value w).definition = some e := hd
        split <;> split <;> simp [forgetUse, forgetDefinition_definition, hd']

/-- In a sound fusion a removed expression is the definition of nothing any more. -/
theorem definition_removeExpr (hf : Sound f) (w : ValueId) :
    (f.removeExpr e).definition w =
      if f.definition w = some e then none else f.definition w :=
  definition_removeExpr_of_defined (fun w => hf.defined w e) w

/-- The uses of a value stay apart. -/
theorem nodup_uses_removeExpr {w : ValueId} (h : (f.uses w).Nodup) :
    ((f.removeExpr e).uses w).Nodup := by
  cases hx : f.expr? e with
  | none =>
      have hsame : f.removeExpr e = f := by simp [removeExpr, hx]
      rwa [hsame]
  | some x =>
      have hforgotten : (if w ∈ x.inputs ∧ f.HasValue w then forgetUse e (f.value w)
          else f.value w).uses.Nodup := by
        split
        · exact h.filter _
        · exact h
      rw [uses, value_removeExpr hx]
      dsimp only
      split
      · rwa [forgetDefinition_uses]
      · exact hforgotten

/-- A removed expression is used by nothing. -/
theorem mem_uses_removeExpr (hf : Sound f) {w : ValueId} {d : ExprId}
    (h : d ∈ (f.removeExpr e).uses w) : d ∈ f.uses w ∧ d ≠ e := by
  cases hx : f.expr? e with
  | none =>
      have hsame : f.removeExpr e = f := by simp [removeExpr, hx]
      rw [hsame] at h
      refine ⟨h, ?_⟩
      rintro rfl
      obtain ⟨y, hy, -⟩ := hf.used w d h
      rw [hx] at hy
      cases hy
  | some x =>
      have hy : d ∈ (if w ∈ x.inputs ∧ f.HasValue w then forgetUse e (f.value w)
          else f.value w).uses := by
        rw [uses, value_removeExpr hx] at h
        dsimp only at h
        split at h
        · rwa [forgetDefinition_uses] at h
        · exact h
      split at hy
      case isTrue =>
          have hd := List.mem_filter.1 hy
          exact ⟨hd.1, by simpa using hd.2⟩
      case isFalse hw =>
          refine ⟨hy, ?_⟩
          rintro rfl
          obtain ⟨y, hy', hmem⟩ := hf.used w d hy
          rw [hx] at hy'
          cases hy'
          refine hw ⟨hmem, ?_⟩
          exact (hf.exprs d x hx).inputs w hmem

/-- Removing an expression leaves alone what is computed by others. -/
theorem definingExpr?_removeExpr (hf : Sound f) {v : ValueId} (hv : f.definition v ≠ some e) :
    (f.removeExpr e).definingExpr? v = f.definingExpr? v := by
  unfold definingExpr?
  rw [definition_removeExpr hf, if_neg hv]
  cases hd : f.definition v with
  | none => rfl
  | some d =>
      have hne : d ≠ e := fun h => hv (h ▸ hd)
      simp [expr, expr?_removeExpr, hne]

/-- Removing an expression over tensors extends a fusion: no scalar is computed by it. -/
theorem Sound.removeExpr (hf : Sound f)
    (ht : ∀ x, f.expr? e = some x → ∀ v ∈ x.outputs, f.isTensor v = true) :
    Sound (f.removeExpr e) ∧ Extends f (f.removeExpr e) := by
  have hold : ∀ d y, (f.removeExpr e).expr? d = some y → f.expr? d = some y := by
    intro d y hy
    rw [expr?_removeExpr] at hy
    split at hy
    · cases hy
    · exact hy
  have hext : Extends f (f.removeExpr e) := by
    refine ⟨Nat.le_of_eq (size_removeExpr f e).symm, Nat.le_of_eq (by rw [axes_removeExpr]),
      Nat.le_of_eq (by rw [transforms_removeExpr]), fun v _ => dtype_removeExpr f e v,
      fun v _ => isTensor_removeExpr f e v, fun v _ _ => kind_removeExpr f e v, ?_, ?_, ?_,
      Nat.le_of_eq (exprs_size_removeExpr f e).symm, fun d y _ hy => hold d y hy⟩
    · intro v _ hs
      have hne : ¬ f.definition v = some e := by
        intro hd
        obtain ⟨x, hx, hmem⟩ := hf.defined v e hd
        rw [ht x hx v hmem] at hs
        cases hs
      exact definingExpr?_removeExpr hf hne
    · intro a _
      unfold extent axis
      rw [axes_removeExpr]
    · intro t _
      unfold transform
      rw [transforms_removeExpr]
  have htransform : (f.removeExpr e).transform = f.transform := by
    unfold transform
    rw [transforms_removeExpr]
  have hhas : ∀ t, (f.removeExpr e).HasTransform t → f.HasTransform t := by
    intro t h
    unfold HasTransform at h ⊢
    rwa [transforms_removeExpr] at h
  refine ⟨⟨?_, ?_, ?_, ?_, ?_, ?_, ?_, ?_⟩, hext⟩
  · intro v d hv
    rw [definition_removeExpr hf] at hv
    split at hv
    · cases hv
    case isFalse hne =>
        obtain ⟨y, hy, hmem⟩ := hf.defined v d hv
        refine ⟨y, ?_, hmem⟩
        rw [expr?_removeExpr, if_neg]
        · exact hy
        · rintro rfl
          exact hne hv
  · intro v d hd
    obtain ⟨hd, hne⟩ := mem_uses_removeExpr hf hd
    obtain ⟨y, hy, hmem⟩ := hf.used v d hd
    refine ⟨y, ?_, hmem⟩
    rw [expr?_removeExpr, if_neg hne]
    exact hy
  · intro d y hy
    exact (hf.exprs d y (hold d y hy)).mono hext
  · intro v c hv hint
    rw [const?, Value.const?, kind_removeExpr] at hv
    rw [dtype_removeExpr] at hint
    exact hf.literals v c hv hint
  · intro a ha
    have ha' : f.HasAxis a := by
      unfold HasAxis at ha ⊢
      rwa [axes_removeExpr] at ha
    rw [hext.extent a ha']
    exact (hf.extents a ha').mono hext
  · intro t h
    rw [htransform]
    exact (hf.recorded t (hhas t h)).mono hf.extents hext
  · intro s t hst h
    rw [htransform]
    exact hf.ordered s t hst (hhas t h)
  · intro v a ha
    rw [view_removeExpr] at ha
    exact hext.hasAxis (hf.domains v a ha)

end RemoveExpr

end Fusion
end FusionCompiler
