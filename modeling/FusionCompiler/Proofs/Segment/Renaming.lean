import FusionCompiler.Proofs.Fusion.Appending
import FusionCompiler.Proofs.Schedule.InheritedSizes
import FusionCompiler.Proofs.Segment.Extraction

/-!
# Renamed sizes

An input of a segment that the complete fusion computes gets axes of its own, with
the extents that consumers saw.  Those extents that are sizes of tensors outside
get new names, sizes of the input that carries them.  In the end every root axis
that has such an extent takes the new one.

Main results:

- Theorem `Segment.materializeAxes_names`: one input gets copies of its axes, and
  every foreign size among their extents has a name.
- Theorem `Segment.addInputs_shaped`: so it is for all inputs.
- Theorem `Segment.extent_renameAxes`: what becomes of the extents of root axes.
- Theorem `Segment.extract_shapes`: the roots of an extracted segment.
-/

namespace FusionCompiler

open Fusion

theorem EditE.returns_of_applyTo {ε α : Type} {x : EditE ε α} {f f' : Fusion}
    (h : x.applyTo f = .ok f') : ∃ a, x.Returns f a f' := by
  unfold applyTo at h
  split at h
  case h_1 a f₁ hrun =>
      cases h
      exact ⟨a, hrun⟩
  case h_2 => cases h

namespace Segment

variable {f g g' : Fusion} {io : Boundary} {names names' : Renaming} {exprs : List ExprId}
  {v x : ValueId} {a : AxisId} {vs ws : List ValueId}

/-! ## Names for sizes -/

/-- The scalar is no size of a tensor outside, or it has a new name. -/
def Named (f : Fusion) (io : Boundary) (names : Renaming) (x : ValueId) : Prop :=
  ∀ tensor, f.IsSizeOf x tensor → tensor ∈ io.inputs ∨ ∃ p ∈ names, p.1 = x

theorem Named.mono (h : Named f io names x) (hsub : names ⊆ names') : Named f io names' x :=
  fun tensor hsize => (h tensor hsize).imp_right fun ⟨p, hp, heq⟩ => ⟨p, hsub hp, heq⟩

/-- A fusion with the scalars and the axes of the complete one.  New names stand for sizes of
tensors outside, and they are new sizes of inputs. -/
structure Names (f : Fusion) (io : Boundary) (names : Renaming) (g : Fusion) : Prop where
  values : f.values.size ≤ g.values.size
  isTensor : ∀ v, g.isTensor v = f.isTensor v
  kind : ∀ v, f.HasValue v → f.isTensor v = false → (g.value v).kind = (f.value v).kind
  axes : f.axes.size ≤ g.axes.size
  axis : ∀ a, f.HasAxis a → g.axis a = f.axis a
  key : ∀ p ∈ names, f.HasValue p.1 ∧ ∃ tensor, f.IsSizeOf p.1 tensor ∧ tensor ∉ io.inputs
  image : ∀ p ∈ names, ¬ f.HasValue p.2 ∧ g.HasValue p.2 ∧ ∃ v ∈ io.inputs, g.IsSizeOf p.2 v

namespace Names

theorem extent (h : Names f io names g) (ha : f.HasAxis a) : g.extent a = f.extent a := by
  rw [Fusion.extent, h.axis a ha, Fusion.extent]

theorem isSizeOf (h : Names f io names g) (hx : f.IntegerScalar x) {tensor : ValueId} :
    g.IsSizeOf x tensor ↔ f.IsSizeOf x tensor :=
  isSizeOf_congr (h.kind x hx.has hx.scalar)

/-- Steps that leave the kinds of scalars alone. -/
theorem step (h : Names f io names g) (hvalues : g.values.size ≤ g'.values.size)
    (htensor : ∀ v, g'.isTensor v = g.isTensor v)
    (hkind : ∀ v, g.HasValue v → g.isTensor v = false → (g'.value v).kind = (g.value v).kind)
    (haxes : g.axes.size ≤ g'.axes.size) (haxis : ∀ a, g.HasAxis a → g'.axis a = g.axis a) :
    Names f io names g' := by
  refine ⟨Nat.le_trans h.values hvalues, fun v => (htensor v).trans (h.isTensor v),
    fun v hv ht => ?_, Nat.le_trans h.axes haxes,
    fun a ha => (haxis a (Nat.lt_of_lt_of_le ha h.axes)).trans (h.axis a ha), h.key, fun p hp => ?_⟩
  · rw [hkind v (Nat.lt_of_lt_of_le hv h.values) ((h.isTensor v).trans ht), h.kind v hv ht]
  · obtain ⟨hnew, hhas, v, hv, dim, hdim⟩ := h.image p hp
    refine ⟨hnew, Nat.lt_of_lt_of_le hhas hvalues, v, hv, dim, ?_⟩
    rw [hkind p.2 hhas, hdim]
    rw [Fusion.isTensor, Value.isTensor, Value.view?, hdim]
    rfl

theorem appends (h : Names f io names g) (ha : Appends g g') : Names f io names g' := by
  refine h.step ha.values ha.isTensor (fun v hv _ => ?_) ha.axes ha.axis
  obtain ⟨more, hvalue⟩ := ha.scalar v hv
  rw [hvalue]

/-- A new name for the size of a tensor outside. -/
theorem add (h : Names f io names g) (hx : f.IntegerScalar x) {tensor : ValueId}
    (hsize : f.IsSizeOf x tensor) (houtside : tensor ∉ io.inputs) (hv : v ∈ io.inputs) (dim : Nat) :
    Names f io (names ++ [(x, ⟨g.values.size⟩)])
      (g.pushValue .int64 (.scalar (.tensorSize v dim))) := by
  have hpush := h.appends (Appends.pushScalar (.refl g) .int64 (.tensorSize v dim))
  refine { hpush with key := fun p hp => ?_, image := fun p hp => ?_ }
  · rcases List.mem_append.1 hp with hp | hp
    · exact h.key p hp
    · rw [List.mem_singleton.1 hp]
      exact ⟨hx.has, tensor, hsize, houtside⟩
  · rcases List.mem_append.1 hp with hp | hp
    · exact hpush.image p hp
    · rw [List.mem_singleton.1 hp]
      refine ⟨Nat.not_lt.2 h.values, by simp [HasValue, pushValue], v, hv, dim, ?_⟩
      rw [value_pushValue, if_pos rfl]

end Names

/-! ## Inputs with axes of their own -/

/-- The extent of one dimension has a name afterwards if it is the size of a tensor outside. -/
theorem renameExtent_names (hf : Sound f) (h : Names f io names g) (ha : f.HasAxis a)
    (hv : v ∈ io.inputs) {dim : Nat}
    (hrename : Edit.Gives (renameExtent io v dim (g.extent a) names) g names' g') :
    Names f io names' g' ∧ names ⊆ names' ∧ Named f io names' (f.extent a) ∧ Appends g g' := by
  have hx := hf.extents a ha
  rw [h.extent ha] at hrename
  unfold renameExtent at hrename
  obtain ⟨g₀, g₁, hget, hrename⟩ := Edit.gives_bind.1 hrename
  obtain ⟨rfl, rfl⟩ := Edit.gives_get.1 hget
  rw [h.kind _ hx.has hx.scalar] at hrename
  split at hrename
  case h_1 tensor d hkind =>
      have hunique : ∀ t, f.IsSizeOf (f.extent a) t → t = tensor := by
        rintro t ⟨d', hd'⟩
        rw [hkind] at hd'
        cases hd'
        rfl
      split at hrename
      case isTrue hknown =>
          obtain ⟨rfl, rfl⟩ := Edit.gives_pure.1 hrename
          refine ⟨h, fun p hp => hp, fun t ht => ?_, .refl g⟩
          rw [hunique t ht]
          simpa using hknown
      case isFalse hknown =>
          obtain ⟨size, g₁, hsize, hrename⟩ := Edit.gives_bind.1 hrename
          obtain ⟨rfl, rfl⟩ := Edit.gives_newValue.1 hsize
          obtain ⟨rfl, rfl⟩ := Edit.gives_pure.1 hrename
          have houtside : tensor ∉ io.inputs := fun hmem => hknown (by simp [hmem])
          refine ⟨h.add hx ⟨d, hkind⟩ houtside hv dim, List.subset_append_left _ _,
            fun t _ => .inr ⟨_, List.mem_append_right _ (List.mem_singleton_self _), rfl⟩,
            .pushScalar (.refl g) _ _⟩
  case h_2 hnone =>
      obtain ⟨rfl, rfl⟩ := Edit.gives_pure.1 hrename
      exact ⟨h, fun p hp => hp, fun t ⟨d, hd⟩ => absurd hd (hnone t d), .refl g⟩

/-- An input gets copies of its axes, and every foreign size among their extents has a name. -/
theorem materializeAxes_names (hf : Sound f) (h : Names f io names g) (hv : v ∈ io.inputs)
    {axes : List AxisId} (haxes : ∀ a ∈ axes, f.HasAxis a) {dim : Nat} {r : List AxisId × Renaming}
    (hcopy : Edit.Gives (materializeAxes io v dim axes names) g r g') :
    Names f io r.2 g' ∧ names ⊆ r.2 ∧ (∀ a ∈ axes, Named f io r.2 (f.extent a)) ∧ Appends g g' ∧
      ∀ c ∈ r.1, g'.HasAxis c ∧ ∃ a ∈ axes, g'.extent c = f.extent a := by
  induction axes generalizing g dim names r with
  | nil =>
      obtain ⟨rfl, rfl⟩ := Edit.gives_pure.1 hcopy
      exact ⟨h, fun p hp => hp, by simp, .refl g, by simp⟩
  | cons a axes ih =>
      obtain ⟨ha, haxes⟩ := List.forall_mem_cons.1 haxes
      unfold materializeAxes at hcopy
      obtain ⟨g₀, g₁, hget, hcopy⟩ := Edit.gives_bind.1 hcopy
      obtain ⟨rfl, rfl⟩ := Edit.gives_get.1 hget
      obtain ⟨names₁, g₁, hnames, hcopy⟩ := Edit.gives_bind.1 hcopy
      obtain ⟨h₁, hsub, hnamed, happends⟩ := renameExtent_names hf h ha hv hnames
      obtain ⟨c, g₂, hone, hcopy⟩ := Edit.gives_bind.1 hcopy
      obtain ⟨g₀, g₁', hget, hone⟩ := Edit.gives_bind.1 hone
      obtain ⟨rfl, rfl⟩ := Edit.gives_get.1 hget
      obtain ⟨rfl, rfl⟩ := Edit.gives_addAxis.1 hone
      obtain ⟨rest, g₃, hrest, hcopy⟩ := Edit.gives_bind.1 hcopy
      obtain ⟨rfl, rfl⟩ := Edit.gives_pure.1 hcopy
      have hpush : Appends g₁ (g₁.pushAxis { g₁.axis a with origin := none, isRFactor := false }) :=
        .pushAxis (.refl g₁) _
      obtain ⟨h₃, hsub₃, hnamed₃, happends₃, hcopies⟩ := ih (h₁.appends hpush) haxes hrest
      refine ⟨h₃, fun p hp => hsub₃ (hsub hp), fun b hb => ?_,
        (happends.trans hpush).trans happends₃, fun c hc => ?_⟩
      · rcases List.mem_cons.1 hb with rfl | hb
        · exact hnamed.mono hsub₃
        · exact hnamed₃ b hb
      · rcases List.mem_cons.1 hc with rfl | hc
        · have hnew : (g₁.pushAxis { g₁.axis a with origin := none, isRFactor := false }).HasAxis
              ⟨g₁.axes.size⟩ := by simp [HasAxis]
          refine ⟨happends₃.hasAxis hnew, a, List.mem_cons_self, ?_⟩
          rw [Fusion.extent, happends₃.axis _ hnew, axis_pushAxis, if_pos rfl, ← h₁.extent ha]
          rfl
        · obtain ⟨hhas, b, hb, hextent⟩ := hcopies c hc
          exact ⟨hhas, b, List.mem_cons_of_mem a hb, hextent⟩

/-- A fusion in which some of the inputs have been filled in.  The inputs of the complete fusion
have kept their shapes.  The others have axes of their own, with the extents that consumers saw,
and every foreign size among these has a name. -/
structure Shaped (f : Fusion) (io : Boundary) (vs : List ValueId) (names : Renaming) (g : Fusion) :
    Prop extends Names f io names g where
  kept : ∀ v, v ∉ vs ∨ f.isInput v = true → g.view v = f.view v
  carried : ∀ v ∈ vs, f.isTensor v = true → f.isInput v = false →
    ∀ a ∈ (g.view v).domain.root, g.HasAxis a ∧ ∃ b ∈ f.shape v, g.extent a = f.extent b
  named : ∀ v ∈ vs, f.isTensor v = true → f.isInput v = false →
    ∀ b ∈ f.shape v, Named f io names (f.extent b)

namespace Shaped

theorem shape (hf : Sound f) (h : Shaped f io vs names g) (hv : v ∉ vs) :
    g.shape v = f.shape v := by
  unfold Fusion.shape
  rw [h.kept v (.inl hv)]
  refine List.filter_congr fun a ha => ?_
  rw [h.axis a (hf.domains v a (by simp [TensorDomain.listed, ha]))]

/-- Steps that only add scalars and axes, and names for scalars. -/
theorem appends (h : Shaped f io vs names g) (ha : Appends g g') (hn : Names f io names' g')
    (hsub : names ⊆ names') : Shaped f io vs names' g' := by
  refine ⟨hn, fun v hv => (ha.view v).trans (h.kept v hv), fun v hv ht hnot a hmem => ?_,
    fun v hv ht hnot b hb => (h.named v hv ht hnot b hb).mono hsub⟩
  rw [ha.view v] at hmem
  obtain ⟨hhas, b, hb, hextent⟩ := h.carried v hv ht hnot a hmem
  exact ⟨ha.hasAxis hhas, b, hb, by rw [Fusion.extent, ha.axis a hhas, ← Fusion.extent, hextent]⟩

/-- Steps that change neither tensors nor axes. -/
theorem ofValues (h : Shaped f io vs names g) (hvalues : g'.values = g.values)
    (haxes : g'.axes = g.axes) : Shaped f io vs names g' := by
  have hvalue : ∀ v, g'.value v = g.value v := fun v => by rw [Fusion.value, hvalues, Fusion.value]
  have haxis : ∀ a, g'.axis a = g.axis a := fun a => by rw [Fusion.axis, haxes, Fusion.axis]
  have hview : ∀ v, g'.view v = g.view v := fun v => by rw [Fusion.view, hvalue, Fusion.view]
  refine ⟨h.toNames.step (Nat.le_of_eq (by rw [hvalues])) (fun v => ?_) (fun v _ _ => ?_)
    (Nat.le_of_eq (by rw [haxes])) fun a _ => haxis a, fun v hv => (hview v).trans (h.kept v hv),
    fun v hv ht hnot a hmem => ?_, h.named⟩
  · rw [Fusion.isTensor, hvalue, Fusion.isTensor]
  · rw [hvalue]
  · rw [hview] at hmem
    obtain ⟨hhas, b, hb, hextent⟩ := h.carried v hv ht hnot a hmem
    refine ⟨by rwa [HasAxis, haxes], b, hb, ?_⟩
    rw [Fusion.extent, haxis, ← Fusion.extent, hextent]

/-- One more input. -/
theorem materialize (hf : Sound f) (h : Shaped f io vs names g) (hv : v ∈ io.inputs)
    (hnew : v ∉ vs) (hmake : Edit.Gives (materialize f io v names) g names' g') :
    Shaped f io (vs ++ [v]) names' g' := by
  unfold Segment.materialize at hmake
  obtain ⟨g₀, g₁, hget, hmake⟩ := Edit.gives_bind.1 hmake
  obtain ⟨rfl, rfl⟩ := Edit.gives_get.1 hget
  have hmem : ∀ {w}, w ∈ vs ++ [v] → w ∈ vs ∨ w = v := by simp
  split at hmake
  case isTrue hcarried =>
      obtain ⟨r, g₁, haxes, hmake⟩ := Edit.gives_bind.1 hmake
      obtain ⟨u, g₂, hmodify, hmake⟩ := Edit.gives_bind.1 hmake
      obtain rfl := Edit.gives_modify.1 hmodify
      obtain ⟨rfl, rfl⟩ := Edit.gives_pure.1 hmake
      rw [h.shape hf hnew] at haxes
      obtain ⟨hn, hsub, hnamed, happends, hcopies⟩ := materializeAxes_names hf h.toNames hv
        (fun a ha => Build.hasAxis_of_mem_shape hf ha) haxes
      have h₁ := h.appends happends hn hsub
      have hview : ∀ w, w ≠ v →
          (g₁.modifyView v fun t => { t with domain := .contiguous r.1 }).view w = g₁.view w :=
        fun w hw => by rw [view_modifyView, if_neg fun heq => hw heq.1]
      refine ⟨hn.step ?_ (fun w => isTensor_modifyView g₁ v w _) (fun w _ ht => ?_)
        (Nat.le_refl _) fun _ _ => rfl, fun w hw => ?_, fun w hw ht hnot a ha => ?_,
        fun w hw ht hnot b hb => ?_⟩
      · exact Nat.le_of_eq (size_modifyView g₁ v _).symm
      · rw [value_modifyView_of_scalar g₁ v w _ ht]
      · by_cases heq : w = v
        · subst heq
          rcases hw with hw | hw
          · exact absurd (List.mem_append_right vs (List.mem_singleton_self w)) hw
          · simp [hw] at hcarried
        · rw [hview w heq]
          exact h₁.kept w (hw.imp_left fun hnot hmem => hnot (List.mem_append_left _ hmem))
      · by_cases heq : w = v
        · subst heq
          rw [view_modifyView, if_pos ⟨rfl, (hn.isTensor w).trans ht⟩] at ha
          exact hcopies a ha
        · rw [hview w heq] at ha
          exact h₁.carried w ((hmem hw).resolve_right heq) ht hnot a ha
      · rcases hmem hw with hw | rfl
        · exact h₁.named w hw ht hnot b hb
        · exact hnamed b hb
  case isFalse hcarried =>
      obtain ⟨rfl, rfl⟩ := Edit.gives_pure.1 hmake
      rw [h.isTensor v] at hcarried
      have hnone : f.isTensor v = true → f.isInput v = false → False := fun ht hnot =>
        hcarried (by simp [ht, hnot])
      refine ⟨h.toNames, fun w hw => h.kept w
        (hw.imp_left fun hnot hmem => hnot (List.mem_append_left _ hmem)),
        fun w hw ht hnot => ?_, fun w hw ht hnot => ?_⟩
      · rcases hmem hw with hw | rfl
        · exact h.carried w hw ht hnot
        · exact (hnone ht hnot).elim
      · rcases hmem hw with hw | rfl
        · exact h.named w hw ht hnot
        · exact (hnone ht hnot).elim

end Shaped

/-- All inputs. -/
theorem addInputs_shaped (hf : Sound f) (h : Shaped f io vs names g) (hws : ∀ v ∈ ws, v ∈ io.inputs)
    (hdistinct : (vs ++ ws).Nodup) (hadd : (addInputs f io ws names).Returns g names' g') :
    Shaped f io (vs ++ ws) names' g' := by
  induction ws generalizing vs names g with
  | nil =>
      obtain ⟨rfl, rfl⟩ := EditE.returns_pure.1 hadd
      rwa [List.append_nil]
  | cons v ws ih =>
      obtain ⟨names₁, g₁, hmake, hadd⟩ := EditE.returns_bind.1 hadd
      obtain ⟨u, g₂, hinput, hadd⟩ := EditE.returns_bind.1 hadd
      have hnew : v ∉ vs := fun hmem =>
        (List.nodup_append.1 hdistinct).2.2 v hmem v List.mem_cons_self rfl
      have h₁ := h.materialize hf (hws v List.mem_cons_self) hnew (EditE.returns_lift.1 hmake)
      obtain ⟨-, -, rfl⟩ := Build.returns_addInput.1 hinput
      rw [List.append_cons] at hdistinct ⊢
      refine ih ?_ (fun w hw => hws w (List.mem_cons_of_mem v hw)) hdistinct hadd
      exact h₁.ofValues rfl rfl

/-- Making tensors outputs changes neither tensors nor axes. -/
theorem addOutputs_shaped (h : Shaped f io vs names g)
    (hadd : (ws.forM Build.addOutput : Build Unit).Returns g () g') : Shaped f io vs names g' := by
  induction ws generalizing g with
  | nil =>
      obtain ⟨-, rfl⟩ := EditE.returns_pure.1 hadd
      exact h
  | cons v ws ih =>
      obtain ⟨u, g₁, houtput, hadd⟩ := EditE.returns_bind.1 hadd
      obtain ⟨-, -, rfl⟩ := Build.returns_addOutput.1 houtput
      refine ih ?_ hadd
      exact h.ofValues rfl rfl

/-! ## New extents -/

/-- The name of a size in the segment. -/
def renamed (names : Renaming) (x : ValueId) : ValueId :=
  (names.lookup x).getD x

theorem renamed_of_not_mem (h : ∀ p ∈ names, p.1 ≠ x) : renamed names x = x := by
  have hnone : names.lookup x = none :=
    List.lookup_eq_none_iff.2 fun p hp => bne_iff_ne.2 fun heq => h p hp heq.symm
  rw [renamed, hnone]
  rfl

theorem exists_renamed (h : ∃ p ∈ names, p.1 = x) : (x, renamed names x) ∈ names := by
  cases hlookup : names.lookup x with
  | none =>
      obtain ⟨p, hp, rfl⟩ := h
      simpa using List.lookup_eq_none_iff.1 hlookup p hp
  | some y =>
      obtain ⟨l₁, l₂, hsplit, -⟩ := List.lookup_eq_some_iff.1 hlookup
      rw [renamed, hlookup, Option.getD_some, hsplit]
      simp

/-- Names are no sizes of tensors outside, so renaming twice is renaming. -/
theorem Names.renamed_renamed (h : Names f io names g) (x : ValueId) :
    renamed names (renamed names x) = renamed names x := by
  by_cases hx : ∃ p ∈ names, p.1 = x
  · have hnew := (h.image _ (exists_renamed hx)).1
    refine renamed_of_not_mem fun p hp heq => hnew ?_
    rw [← heq]
    exact (h.key p hp).1
  · rw [renamed_of_not_mem fun p hp heq => hx ⟨p, hp, heq⟩]
    exact renamed_of_not_mem fun p hp heq => hx ⟨p, hp, heq⟩

/-- Gives an axis its new extent. -/
def renameAxis (names : Renaming) (g : Fusion) (a : AxisId) : Fusion :=
  match names.lookup (g.extent a) with
  | some size => g.modifyAxis a fun x => { x with extent := size }
  | none => g

theorem extent_renameAxis (names : Renaming) (g : Fusion) {b : AxisId} (ha : g.HasAxis a) :
    (renameAxis names g b).extent a =
      if a = b then renamed names (g.extent a) else g.extent a := by
  unfold renameAxis renamed
  by_cases heq : a = b
  · subst heq
    rw [if_pos rfl]
    cases names.lookup (g.extent a) with
    | none => rfl
    | some size => rw [Fusion.extent, axis_modifyAxis, if_pos ⟨rfl, ha⟩]; rfl
  · rw [if_neg heq]
    cases names.lookup (g.extent b) with
    | none => rfl
    | some size => rw [Fusion.extent, axis_modifyAxis, if_neg fun h => heq h.1]; rfl

/-- Only extents change. -/
theorem renameAxis_same (names : Renaming) (g : Fusion) (b : AxisId) :
    SameFlow g (renameAxis names g b) ∧ (renameAxis names g b).values = g.values ∧
      (renameAxis names g b).axes.size = g.axes.size := by
  unfold renameAxis
  split
  · exact ⟨⟨rfl, fun _ => rfl, fun _ => rfl, rfl, rfl⟩, rfl, by simp [modifyAxis]⟩
  · exact ⟨.refl g, rfl, rfl⟩

theorem renameAxes_same (names : Renaming) (g : Fusion) (roots : List AxisId) :
    SameFlow g (roots.foldl (renameAxis names) g) ∧
      (roots.foldl (renameAxis names) g).values = g.values := by
  induction roots generalizing g with
  | nil => exact ⟨.refl g, rfl⟩
  | cons b roots ih =>
      obtain ⟨hflow, hvalues, -⟩ := renameAxis_same names g b
      obtain ⟨hflow', hvalues'⟩ := ih (renameAxis names g b)
      exact ⟨hflow.trans hflow', hvalues'.trans hvalues⟩

theorem extent_renameAxes (htwice : ∀ x, renamed names (renamed names x) = renamed names x)
    {roots : List AxisId} (ha : g.HasAxis a) :
    (roots.foldl (renameAxis names) g).extent a =
      if a ∈ roots then renamed names (g.extent a) else g.extent a := by
  induction roots generalizing g with
  | nil => rfl
  | cons b roots ih =>
      have hhas : (renameAxis names g b).HasAxis a := by
        rw [HasAxis, (renameAxis_same names g b).2.2]
        exact ha
      rw [List.foldl_cons, ih hhas, extent_renameAxis names g ha]
      by_cases heq : a = b
      · simp [heq, htwice]
      · simp [heq]

/-- The root axes of all tensors take their new extents. -/
theorem applyRenaming_eq (names : Renaming) (g : Fusion) :
    applyRenaming names g =
      (g.allTensors.flatMap fun v => (g.view v).domain.root).foldl (renameAxis names) g := by
  unfold applyRenaming
  cases names with
  | nil =>
      have hnone : ∀ (roots : List AxisId), roots.foldl (renameAxis []) g = g := by
        intro roots
        induction roots with
        | nil => rfl
        | cons b roots ih => exact ih
      rw [hnone]
      rfl
  | cons p names => rfl

/-! ## The roots of a segment -/

/-- Where the extents in a segment come from.  The tensors are those of a fusion in which the
inputs have been filled in, and their root axes have the new extents. -/
theorem extract_shapes {s : Fusion} (hf : Sound f) (hw : Wired f) (hio : io.Proper f exprs)
    (h : extract f exprs io = .ok s) :
    ∃ names g, Shaped f io io.inputs names g ∧ s.values = g.values ∧
      s.allTensors = g.allTensors ∧ ∀ v ∈ s.allTensors, ∀ a ∈ (s.view v).domain.root,
        g.HasAxis a → s.extent a = renamed names (g.extent a) := by
  obtain ⟨g₀, hg₀, hextract⟩ := extract_eq hf hw exprs io
  rw [hextract] at h
  obtain ⟨u, hfill⟩ := EditE.returns_of_applyTo h
  obtain ⟨names, g₁, hin, hfill⟩ := EditE.returns_bind.1 hfill
  obtain ⟨u', g₂, hout, hrename⟩ := EditE.returns_bind.1 hfill
  obtain rfl := EditE.returns_modify.1 hrename
  -- nothing has been filled in yet
  have hstart : Shaped f io [] [] g₀ := by
    have haxis : ∀ a, g₀.axis a = f.axis a := fun a => by rw [Fusion.axis, hg₀.axes, Fusion.axis]
    refine ⟨⟨Nat.le_of_eq hg₀.size.symm, hg₀.isTensor, fun v _ _ => hg₀.kind v,
      Nat.le_of_eq (by rw [hg₀.axes]), fun a _ => haxis a, by simp, by simp⟩, fun v _ => ?_, by simp,
      by simp⟩
    rw [Fusion.view, Value.view?, hg₀.kind, ← Value.view?, ← Fusion.view]
  have hshaped := addOutputs_shaped
    (addInputs_shaped hf hstart (fun _ hv => hv) hio.distinctInputs hin) hout
  rw [List.nil_append] at hshaped
  rw [applyRenaming_eq]
  obtain ⟨hflow, hvalues⟩ := renameAxes_same names g₂
    (g₂.allTensors.flatMap fun v => (g₂.view v).domain.root)
  have hvalue : ∀ v, (((g₂.allTensors.flatMap fun v => (g₂.view v).domain.root).foldl
      (renameAxis names) g₂).value v) = g₂.value v := fun v => by
    rw [Fusion.value, hvalues, Fusion.value]
  have hall := hflow.allTensors fun v => by rw [Fusion.isTensor, hvalue, Fusion.isTensor]
  refine ⟨names, g₂, hshaped, hvalues, hall, fun v hv a ha hhas => ?_⟩
  rw [hall] at hv
  rw [Fusion.view, hvalue, ← Fusion.view] at ha
  rw [extent_renameAxes hshaped.renamed_renamed hhas,
    if_pos (List.mem_flatMap.2 ⟨v, hv, ha⟩)]

end Segment
end FusionCompiler
