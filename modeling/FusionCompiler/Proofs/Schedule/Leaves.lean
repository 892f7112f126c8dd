import FusionCompiler.Proofs.Schedule.Moves
import FusionCompiler.Proofs.Schedule.Transforming

/-!
# Scheduling the leaves of a tensor

A split or a merge of leaves replaces what the recorded transform consumes by
what it produces, and a reorder permutes the leaves.  All three keep every
tensor's leaves balanced, so that the leaves stay a complete cut of the root.

Main results:

- Theorem `Schedule.returns_reorder_iff`: a reorder returns exactly when its moves
  can be read and leave the fixed leaves where they are.
- Theorems `Schedule.split_schedules`, `Schedule.merge_schedules` and
  `Schedule.reorder_schedules`: the three calls keep a fusion sound and its
  leaves balanced, and change nothing but leaves.
- Theorems `Schedule.split_transformed` and `Schedule.merge_transformed`: a split and
  a merge of neighbours end the history of the tensor by one transform.
-/

namespace FusionCompiler
namespace Fusion

variable {f f' f₁ f₂ f₃ : Fusion}

/-- The leaves of every tensor are balanced. -/
def Cuts (f : Fusion) : Prop :=
  ∀ v, ∃ ts, f.Balanced (f.view v).domain.root ts (f.leaf v)

/-- Every axis of a tensor, from its root to its leaves. -/
def axesOf (f : Fusion) (v : ValueId) : List AxisId :=
  f.axesOfHistory (f.view v).domain.root (f.history v)

/-- The history of a tensor whose leaves are balanced. -/
theorem Cuts.history (hc : Cuts f) (hf : Sound f) (v : ValueId) :
    f.Balanced (f.view v).domain.root (f.history v) (f.leaf v) := by
  obtain ⟨ts, hb⟩ := hc v
  have hts : f.history v = ts := hb.transformsBetween_eq hf
  rw [hts]
  exact hb

theorem Cuts.isCompleteCut (h : Cuts f) (hf : Sound f) (v : ValueId) : f.IsCompleteCut v := by
  obtain ⟨ts, hb⟩ := h v
  exact isCompleteCut_of_balanced hf hb

theorem Builds.cuts (h : Builds f f') (hc : Cuts f) : Cuts f' := by
  intro v
  by_cases hv : f.HasValue v
  · obtain ⟨ts, hb⟩ := hc v
    unfold leaf at hb ⊢
    rw [h.view v hv]
    exact ⟨ts, hb.mono h.ext⟩
  · have hfresh := h.fresh v hv
    refine ⟨[], ?_⟩
    unfold leaf TensorView.leaf
    rw [hfresh.leaf]
    exact Balanced.ofRoot hfresh.nodup

/-- What transforming leaves does: the fusion is extended, leaves stay balanced, and nothing but
leaves changes. -/
structure Schedules (f f' : Fusion) : Prop where
  sound : Sound f'
  ext : Extends f f'
  cuts : Cuts f → Cuts f'
  wired : Wired f → Wired f'
  axis : ∀ a, f.HasAxis a → f'.axis a = f.axis a
  kept : ∀ w, ∃ u, (f'.view w).domain.root = (f.view u).domain.root ∧
    (f'.view w).domain.rfactor = (f.view u).domain.rfactor ∧
    (f'.view w).computeAt = (f.view u).computeAt

namespace Schedules

protected theorem refl (hf : Sound f) : Schedules f f :=
  ⟨hf, Extends.refl f, id, id, fun _ _ => rfl, fun w => ⟨w, rfl, rfl, rfl⟩⟩

protected theorem trans (h : Schedules f₁ f₂) (h' : Schedules f₂ f₃) : Schedules f₁ f₃ := by
  refine ⟨h'.sound, h.ext.trans h'.ext, fun hc => h'.cuts (h.cuts hc),
    fun hw => h'.wired (h.wired hw), ?_, ?_⟩
  · intro a ha
    rw [h'.axis a (h.ext.hasAxis ha), h.axis a ha]
  · intro w
    obtain ⟨u, hroot, hrfactor, hpos⟩ := h'.kept w
    obtain ⟨u', hroot', hrfactor', hpos'⟩ := h.kept u
    exact ⟨u', hroot.trans hroot', hrfactor.trans hrfactor', hpos.trans hpos'⟩

/-- A step that changes no view. -/
theorem ofViews (hsound : Sound f') (hext : Extends f f') (hwired : Wired f → Wired f')
    (haxis : ∀ a, f.HasAxis a → f'.axis a = f.axis a) (hview : ∀ v, f'.view v = f.view v) :
    Schedules f f' := by
  refine ⟨hsound, hext, ?_, hwired, haxis,
    fun w => ⟨w, by rw [hview w], by rw [hview w], by rw [hview w]⟩⟩
  intro hc v
  obtain ⟨ts, hb⟩ := hc v
  unfold leaf at hb ⊢
  rw [hview v]
  exact ⟨ts, hb.mono hext⟩

theorem plain (h : Schedules f f') (hf : Sound f) (hp : Plain f) : Plain f' := by
  refine ⟨?_, ?_, ?_⟩
  · intro v
    obtain ⟨u, -, hrfactor, -⟩ := h.kept v
    rw [hrfactor]
    exact hp.rfactor u
  · intro v
    obtain ⟨u, -, -, hpos⟩ := h.kept v
    rw [hpos]
    exact hp.computeAt u
  · intro v a ha
    obtain ⟨u, hroot, -, -⟩ := h.kept v
    rw [hroot] at ha
    have hhas : f.HasAxis a := hf.domains u a (by simp [TensorDomain.listed, ha])
    exact (hp.root u a ha).mono hf hhas h.ext (h.axis a hhas)

end Schedules

/-! ## Changing a view together with its siblings -/

theorem sameGraph_modify_sync (f : Fusion) (v : ValueId) (g : TensorView → TensorView) :
    SameGraph f ((f.modifyView v g).syncSiblings v) :=
  (SameGraph.modifyView f v g).trans (SameGraph.syncSiblings _ v)

/-- Every view afterwards is an old one or the changed one. -/
theorem view_modify_sync_cases (f : Fusion) (v w : ValueId) (g : TensorView → TensorView) :
    (∃ u, ((f.modifyView v g).syncSiblings v).view w = f.view u) ∨
      ((f.modifyView v g).syncSiblings v).view w = g (f.view v) := by
  rw [view_modify_sync]
  split
  · split
    · exact .inr rfl
    · exact .inl ⟨v, rfl⟩
  · exact .inl ⟨w, rfl⟩

theorem Sound.modify_sync (hf : Sound f) {v : ValueId} {g : TensorView → TensorView}
    (hg : ∀ a ∈ (g (f.view v)).domain.listed, f.HasAxis a) :
    Sound ((f.modifyView v g).syncSiblings v) ∧
      Extends f ((f.modifyView v g).syncSiblings v) := by
  refine hf.sameGraph (sameGraph_modify_sync f v g) fun w a ha => ?_
  rcases view_modify_sync_cases f v w g with ⟨u, hu⟩ | hu
  · rw [hu] at ha
    exact hf.domains u a ha
  · rw [hu] at ha
    exact hg a ha

theorem Cuts.modify_sync (hc : Cuts f) {v : ValueId} {g : TensorView → TensorView}
    (hext : Extends f ((f.modifyView v g).syncSiblings v))
    (hg : ∃ ts, f.Balanced (g (f.view v)).domain.root ts (g (f.view v)).domain.leaf) :
    Cuts ((f.modifyView v g).syncSiblings v) := by
  intro w
  unfold Fusion.leaf TensorView.leaf
  rcases view_modify_sync_cases f v w g with ⟨u, hu⟩ | hu
  · obtain ⟨ts, hb⟩ := hc u
    rw [hu]
    exact ⟨ts, hb.mono hext⟩
  · obtain ⟨ts, hb⟩ := hg
    rw [hu]
    exact ⟨ts, hb.mono hext⟩

end Fusion

open Fusion

namespace Schedule

variable {f f' : Fusion}

/-- Giving a tensor leaves that exist and are balanced, after other steps. -/
theorem setLeaf_schedules {f₁ : Fusion} {v : ValueId} {leaf : List AxisId} {u : Unit}
    (hs : Schedules f f₁) (haxes : ∀ a ∈ leaf, f₁.HasAxis a)
    (hbal : Cuts f → ∃ ts, f₁.Balanced (f₁.view v).domain.root ts leaf)
    (h : Edit.Gives (setLeaf v leaf) f₁ u f') : Schedules f f' := by
  obtain rfl := Edit.gives_modify.1 h
  have hlisted : ∀ a ∈ ((f₁.view v).withLeaf leaf).domain.listed, f₁.HasAxis a := by
    intro a ha
    rcases List.mem_append.1 ha with ha | ha
    · exact hs.sound.domains v a (List.mem_append_left _ ha)
    · exact haxes a ha
  obtain ⟨hsound, hext⟩ := hs.sound.modify_sync (g := (·.withLeaf leaf)) hlisted
  refine ⟨hsound, hs.ext.trans hext, ?_,
    fun hw => (hs.wired hw).sameFlow (.modify_sync f₁ v _) hext, ?_, ?_⟩
  · intro hc
    exact (hs.cuts hc).modify_sync hext (hbal hc)
  · intro a ha
    have hsame : ((f₁.modifyView v (·.withLeaf leaf)).syncSiblings v).axis a = f₁.axis a := by
      unfold Fusion.axis
      rw [(sameGraph_modify_sync f₁ v _).axes]
    rw [hsame, hs.axis a ha]
  · intro w
    rcases view_modify_sync_cases f₁ v w (·.withLeaf leaf) with ⟨u, hu⟩ | hu
    · rw [hu]
      exact hs.kept u
    · rw [hu]
      exact hs.kept v

/-! ## Replacing leaves -/

/-- Two elements in the place of one. -/
theorem split_perm {l : List AxisId} {p : Nat} {a o i : AxisId} (h : l[p]? = some a) :
    (l.take p ++ [o, i] ++ l.drop (p + 1) ++ [a]).Perm (l ++ [o, i]) := by
  obtain ⟨hp, rfl⟩ := List.getElem?_eq_some_iff.1 h
  have hl : l.take p ++ l[p] :: l.drop (p + 1) = l := by simp
  rw [List.perm_iff_count]
  intro c
  have hcount := congrArg (List.count c) hl
  simp only [List.count_append, List.count_cons, List.count_nil] at hcount ⊢
  omega

/-- One element in the place of two. -/
theorem placeMerged_perm {l : List AxisId} {lo hi : Nat} {a b m : AxisId} (hlt : lo < hi)
    (ha : l[lo]? = some a) (hb : l[hi]? = some b) :
    (placeMerged l lo hi m ++ [a, b]).Perm (l ++ [m]) := by
  obtain ⟨hhi, rfl⟩ := List.getElem?_eq_some_iff.1 hb
  have ha' : (l.eraseIdx hi)[lo]? = some a := by rw [List.getElem?_eraseIdx_of_lt hlt, ha]
  obtain ⟨hlo, rfl⟩ := List.getElem?_eq_some_iff.1 ha'
  have hset := List.set_perm_cons_eraseIdx hlo m
  have hlater := List.getElem_cons_eraseIdx_perm hhi
  have hearlier := List.getElem_cons_eraseIdx_perm hlo
  unfold placeMerged
  rw [List.perm_iff_count] at hset hlater hearlier ⊢
  intro c
  have h₁ := hset c
  have h₂ := hlater c
  have h₃ := hearlier c
  simp only [List.count_append, List.count_cons, List.count_nil] at h₁ h₂ h₃ ⊢
  omega

/-- The two leaves of a merge may stand in either order. -/
theorem placeMerged_perm_of_ne {l : List AxisId} {p q : Nat} {a b m : AxisId} (hne : p ≠ q)
    (ha : l[p]? = some a) (hb : l[q]? = some b) :
    (placeMerged l (Min.min p q) (Max.max p q) m ++ [a, b]).Perm (l ++ [m]) := by
  rcases Nat.lt_or_gt_of_ne hne with hlt | hlt
  · rw [Nat.min_eq_left (Nat.le_of_lt hlt), Nat.max_eq_right (Nat.le_of_lt hlt)]
    exact placeMerged_perm hlt ha hb
  · rw [Nat.min_eq_right (Nat.le_of_lt hlt), Nat.max_eq_left (Nat.le_of_lt hlt)]
    exact ((List.Perm.swap b a []).append_left _).trans (placeMerged_perm hlt hb ha)

/-! ## Split, merge and reorder -/

/-- Recording a transform of leaves and putting its outputs in the place of its inputs. -/
theorem record_schedules {f₁ : Fusion} {x : Transform} {v : ValueId} {leaf : List AxisId}
    {u : Unit} (hf : Sound f) (hrec : Records f f₁ x)
    (hleaf : (leaf ++ x.inputs).Perm (f.leaf v ++ x.outputs))
    (h : Edit.Gives (setLeaf v leaf) f₁ u f') : Schedules f f' := by
  have hs : Schedules f f₁ := Schedules.ofViews hrec.sound hrec.ext hrec.wired hrec.axis hrec.view
  refine setLeaf_schedules hs (fun a ha => ?_) (fun hc => ?_) h
  · rcases List.mem_append.1 (hleaf.mem_iff.1 (List.mem_append_left _ ha)) with hold | hnew
    · exact hrec.ext.hasAxis (hf.domains v a (List.mem_append_right _ hold))
    · exact hrec.recorded.hasAxis_output hnew
  · obtain ⟨ts, hb⟩ := hc v
    rw [hrec.view v]
    refine ⟨_, hrec.balanced hf hb (fun a ha => ?_) hleaf⟩
    exact hf.domains v a (by simp [TensorDomain.listed, ha])

/-- A split factor is an integer scalar. -/
theorem resolveFactor_builds {tensor : ValueId} {factor : SplitFactor} {k : ValueId} (hf : Sound f)
    (h : (resolveFactor tensor factor).Returns f k f') :
    Builds f f' ∧ f'.IntegerScalar k ∧ (∀ v, f'.view v = f.view v) ∧ f'.axes = f.axes ∧
      ∀ v, f.HasValue v → f'.definingExpr? v = f.definingExpr? v := by
  cases factor with
  | const n =>
      simp only [resolveFactor, EditE.returns_bind, EditE.returns_ensure, EditE.returns_lift] at h
      obtain ⟨-, f₁, ⟨-, rfl⟩, h⟩ := h
      have hb := Edit.newConst_builds hf h
      obtain ⟨rfl, rfl⟩ := Edit.gives_newValue.1 h
      refine ⟨hb, ⟨?_, ?_, ?_⟩, Builds.view_pushScalar f _ _, rfl,
        (Build.AddsScalars.pushConst f _ _).definingExpr⟩
      · simp [HasValue, pushValue]
      · simp [isTensor, value_pushValue, Value.isTensor, Value.view?]
      · simp [dtype, value_pushValue]
        rfl
  | value v =>
      simp only [resolveFactor, EditE.returns_bind, EditE.returns_get, EditE.returns_ensure,
        EditE.returns_pure, Bool.and_eq_true, Bool.not_eq_true'] at h
      obtain ⟨f₀, f₁, ⟨rfl, rfl⟩, -, f₂, ⟨⟨hscalar, hint⟩, rfl⟩, -, f₃, ⟨-, rfl⟩, rfl, rfl⟩ := h
      refine ⟨Builds.refl hf, ⟨?_, hscalar, hint⟩, fun _ => rfl, rfl, fun _ _ => rfl⟩
      by_contra hnot
      rw [dtype, value_of_not_hasValue hnot] at hint
      cases hint

/-- The leaf at a valid position. -/
theorem getElem?_eq_getD {l : List AxisId} {p : Nat} (hp : p < l.length) :
    l[p]? = some (l.getD p default) := by
  simp [List.getD_eq_getElem?_getD, hp]

/-- A split records a transform of the leaf at a position, over a factor that is there or new, and
puts the halves in its place. -/
theorem returns_split {tensor : ValueId} {axis : Int} {factor : SplitFactor} {innerSplit : Bool}
    {u : Unit} (hf : Sound f) (h : (split tensor axis factor innerSplit).Returns f u f') :
    ∃ p k f₁ f₂ a o i, f.isTensor tensor = true ∧ normalizeAxis axis (f.view tensor).ndims = .ok p ∧
      (resolveFactor tensor factor).Returns f k f₁ ∧ (f₁.leaf tensor)[p]? = some a ∧
        Records f₁ f₂ (.split a o i k innerSplit) ∧
          Edit.Gives (setLeaf tensor ((f₁.leaf tensor).take p ++ [o, i] ++
            (f₁.leaf tensor).drop (p + 1))) f₂ u f' := by
  unfold split build axisPosition ensureUnfixed at h
  simp only [EditE.returns_bind, EditE.returns_mapError, Build.returns_ensureTensor,
    EditE.returns_ofExcept, EditE.returns_get, EditE.returns_ensure, build] at h
  obtain ⟨view, f₁, ⟨hview, rfl⟩, p, f₂, ⟨hp, rfl⟩, -, f₃, ⟨f₄, f₅, ⟨rfl, rfl⟩, -, rfl⟩, k, f₁, hk,
    f₄, f₅, ⟨rfl, rfl⟩, ⟨o, i⟩, f₂, hsplit, h⟩ := h
  obtain ⟨hb, hint, hviews, -⟩ := resolveFactor_builds hf hk
  have hold : f.view tensor = view := by
    rw [Fusion.view, hview]
    rfl
  have hlt : p < (f₁.leaf tensor).length := by
    unfold Fusion.leaf
    rw [hviews, hold]
    exact normalizeAxis_lt hp
  have hget := getElem?_eq_getD hlt
  have hhas : f₁.HasAxis ((f₁.leaf tensor).getD p default) :=
    hb.sound.domains tensor _ (List.mem_append_right _ (List.mem_of_getElem? hget))
  have hrec := splitAxis_records hb.sound hhas hint hsplit
  exact ⟨p, k, f₁, f₂, _, o, i, Build.isTensor_of_view? hview, hold ▸ hp, hk, hget, hrec,
    EditE.returns_lift.1 h⟩

/-- A split keeps a fusion sound and its leaves balanced, and changes nothing but leaves. -/
theorem split_schedules {tensor : ValueId} {axis : Int} {factor : SplitFactor} {innerSplit : Bool}
    {u : Unit} (hf : Sound f) (h : (split tensor axis factor innerSplit).Returns f u f') :
    Schedules f f' := by
  obtain ⟨p, k, f₁, f₂, a, o, i, -, -, hk, hget, hrec, hset⟩ := returns_split hf h
  obtain ⟨hb, -, hviews, -⟩ := resolveFactor_builds hf hk
  exact (Schedules.ofViews hb.sound hb.ext hb.wired hb.axis hviews).trans
    (record_schedules hb.sound hrec (split_perm hget) hset)

/-- A merge records a transform of the leaves at two positions and puts the result in the place of
the earlier one. -/
theorem returns_merge {tensor : ValueId} {outer inner : Int} {u : Unit} (hf : Sound f)
    (h : (merge tensor outer inner).Returns f u f') :
    ∃ p q f₁ a b out, f.isTensor tensor = true ∧ normalizeAxis outer (f.view tensor).ndims = .ok p ∧
      normalizeAxis inner (f.view tensor).ndims = .ok q ∧ p ≠ q ∧
        (f.leaf tensor)[p]? = some a ∧ (f.leaf tensor)[q]? = some b ∧
          Records f f₁ (.merge a b out) ∧ Edit.Gives (setLeaf tensor
            (placeMerged (f.leaf tensor) (Min.min p q) (Max.max p q) out)) f₁ u f' := by
  unfold merge build axisPosition ensureUnfixed at h
  simp only [EditE.returns_bind, EditE.returns_mapError, Build.returns_ensureTensor,
    EditE.returns_ofExcept, EditE.returns_get, EditE.returns_ensure, build, bne_iff_ne] at h
  obtain ⟨view, f₁, ⟨hview, rfl⟩, p, f₂, ⟨hp, rfl⟩, q, f₃, ⟨hq, rfl⟩, -, f₄, ⟨hne, rfl⟩, -, f₅,
    ⟨f₆, f₇, ⟨rfl, rfl⟩, -, rfl⟩, f₄, f₅, ⟨rfl, rfl⟩, out, f₂, hmerge, h⟩ := h
  have hold : f.view tensor = view := by
    rw [Fusion.view, hview]
    rfl
  have hget : ∀ r, r < view.ndims →
      (f.leaf tensor)[r]? = some ((f.leaf tensor).getD r default) := by
    intro r hr
    refine getElem?_eq_getD ?_
    unfold Fusion.leaf
    rw [hold]
    exact hr
  have hhas : ∀ r, r < view.ndims → f.HasAxis ((f.leaf tensor).getD r default) := by
    intro r hr
    exact hf.domains tensor _ (List.mem_append_right _ (List.mem_of_getElem? (hget r hr)))
  have hpl := normalizeAxis_lt hp
  have hql := normalizeAxis_lt hq
  have hrec := mergeAxes_records hf (hhas p hpl) (hhas q hql) hmerge
  exact ⟨p, q, f₂, _, _, out, Build.isTensor_of_view? hview, hold ▸ hp, hold ▸ hq, hne,
    hget p hpl, hget q hql, hrec, EditE.returns_lift.1 h⟩

/-- A merge keeps a fusion sound and its leaves balanced, and changes nothing but leaves. -/
theorem merge_schedules {tensor : ValueId} {outer inner : Int} {u : Unit} (hf : Sound f)
    (h : (merge tensor outer inner).Returns f u f') : Schedules f f' := by
  obtain ⟨p, q, f₁, a, b, out, -, -, -, hne, ha, hb, hrec, hset⟩ := returns_merge hf h
  exact record_schedules hf hrec (placeMerged_perm_of_ne hne ha hb) hset

/-- Lists of one length that do not differ anywhere are equal. -/
theorem firstDifference_eq_none {i : Nat} {as bs : List AxisId} (hlength : as.length = bs.length) :
    firstDifference i as bs = none ↔ as = bs := by
  induction as generalizing i bs with
  | nil =>
      obtain rfl : bs = [] := List.length_eq_zero_iff.1 hlength.symm
      simp [firstDifference]
  | cons a as ih =>
      cases bs with
      | nil => cases hlength
      | cons b bs =>
          unfold firstDifference
          split
          case isTrue hab =>
              obtain rfl := eq_of_beq hab
              rw [ih (Nat.succ.inj hlength), List.cons_inj_right]
          case isFalse hab =>
              refine iff_of_false (by simp) fun heq => hab ?_
              exact beq_of_eq (List.cons.inj heq).1

/-- A reorder returns exactly when its moves can be read and leave the fixed leaves where they are,
and then gives the tensor its leaves in the new order. -/
theorem returns_reorder_iff {tensor : ValueId} {moves : List (Int × Int)} {u : Unit} :
    (reorder tensor moves).Returns f u f' ↔ f.isTensor tensor = true ∧
      ∃ positions, readMoves tensor (f.leaf tensor).length [] moves = .ok positions ∧
        (applyMoves positions (f.leaf tensor)).take (f.view tensor).fixedPosition =
          (f.leaf tensor).take (f.view tensor).fixedPosition ∧
        Edit.Gives (setLeaf tensor (applyMoves positions (f.leaf tensor))) f u f' := by
  have hchecked : ∀ (view : TensorView) (positions : List (Nat × Nat)),
      readMoves tensor view.ndims [] moves = .ok positions →
        (firstDifference 0 ((applyMoves positions view.leaf).take view.fixedPosition)
          (view.leaf.take view.fixedPosition) = none ↔
            (applyMoves positions view.leaf).take view.fixedPosition =
              view.leaf.take view.fixedPosition) := by
    intro view positions hmoves
    have hvalid : ValidMoves view.leaf.length positions := readMoves_valid (.nil _) hmoves
    refine firstDifference_eq_none ?_
    rw [List.length_take, List.length_take, (applyMoves_perm hvalid).length_eq]
  unfold reorder build
  simp only [EditE.returns_bind, EditE.returns_mapError, Build.returns_ensureTensor,
    EditE.returns_ofExcept]
  constructor
  · rintro ⟨view, f₁, ⟨hview, rfl⟩, positions, f₂, ⟨hmoves, rfl⟩, h⟩
    obtain rfl : f.view tensor = view := by
      rw [Fusion.view, hview]
      rfl
    refine ⟨Build.isTensor_of_view? hview, positions, hmoves, ?_⟩
    split at h
    · simp at h
    case h_2 hsame => exact ⟨(hchecked _ _ hmoves).1 hsame, EditE.returns_lift.1 h⟩
  · rintro ⟨htensor, positions, hmoves, hsame, h⟩
    obtain ⟨view, hview⟩ := Option.isSome_iff_exists.1 htensor
    obtain rfl : f.view tensor = view := by
      rw [Fusion.view, hview]
      rfl
    refine ⟨_, f, ⟨hview, rfl⟩, positions, f, ⟨hmoves, rfl⟩, ?_⟩
    rw [(hchecked _ _ hmoves).2 hsame]
    exact EditE.returns_lift.2 h

/-- A reorder gives a tensor its leaves in the order of valid moves. -/
theorem returns_reorder {tensor : ValueId} {moves : List (Int × Int)} {u : Unit}
    (h : (reorder tensor moves).Returns f u f') :
    ∃ positions, f.isTensor tensor = true ∧
      readMoves tensor (f.view tensor).ndims [] moves = .ok positions ∧
      ValidMoves (f.leaf tensor).length positions ∧
        Edit.Gives (setLeaf tensor (applyMoves positions (f.leaf tensor))) f u f' := by
  obtain ⟨htensor, positions, hmoves, -, hset⟩ := returns_reorder_iff.1 h
  exact ⟨positions, htensor, hmoves, readMoves_valid (.nil _) hmoves, hset⟩

/-- A reorder keeps a fusion sound and its leaves balanced, and changes nothing but leaves. -/
theorem reorder_schedules {tensor : ValueId} {moves : List (Int × Int)} {u : Unit} (hf : Sound f)
    (h : (reorder tensor moves).Returns f u f') : Schedules f f' := by
  obtain ⟨positions, -, -, hvalid, hset⟩ := returns_reorder h
  have hperm := applyMoves_perm hvalid
  refine setLeaf_schedules (Schedules.refl hf) (fun a ha => ?_) (fun hc => ?_) hset
  · exact hf.domains tensor a (List.mem_append_right _ (hperm.mem_iff.1 ha))
  · obtain ⟨ts, hb⟩ := hc tensor
    exact ⟨ts, hb.reorder hperm⟩

end Schedule

/-! ## One more transform -/

namespace Fusion

variable {f f' f₁ : Fusion} {v : ValueId} {x : Transform} {n : Int}

/-- A scalar that is a 64-bit literal. -/
def Literal (f : Fusion) (k : ValueId) (n : Int) : Prop :=
  f.const? k = some (.int n) ∧ f.dtype k = .int64

theorem Literal.mono {k : ValueId} (h : f.Literal k n) (hk : f.IntegerScalar k)
    (hext : Extends f f') : f'.Literal k n :=
  ⟨(hext.const? hk.has hk.scalar).trans h.1, (hext.dtype k hk.has).trans h.2⟩

/-- A transform is the origin of an axis. -/
def Originates (f : Fusion) (a : AxisId) (x : Transform) : Prop :=
  ∃ t, f.HasTransform t ∧ (f.axis a).origin = some t ∧ f.transform t = x

/-- One more transform of the leaves of a tensor: it ends the history of the tensor, which has new
leaves, and the extents that it computes are computed. -/
structure Transformed (f f' : Fusion) (v : ValueId) (x : Transform) (leaf : List AxisId) : Prop
    extends Schedules f f' where
  root : (f'.view v).domain.root = (f.view v).domain.root
  definingExpr : ∀ w, f.HasValue w → f'.definingExpr? w = f.definingExpr? w
  history : ∃ t, f'.history v = f.history v ++ [t] ∧ f'.transform t = x
  origin : ∀ b ∈ x.outputs, ¬ f.HasAxis b ∧ f'.Originates b x
  leaf : f'.leaf v = leaf
  recorded : f'.Recorded x
  measured : f'.Measured x

/-- Extending a fusion keeps the history of a tensor, whose leaves may change their order. -/
theorem Cuts.history_eq (hc : Cuts f) (hf : Sound f) (hf' : Sound f') (hext : Extends f f')
    (hroot : (f'.view v).domain.root = (f.view v).domain.root)
    (hleaf : (f'.leaf v).Perm (f.leaf v)) : f'.history v = f.history v := by
  have hb : f'.Balanced (f'.view v).domain.root (f.history v) (f'.leaf v) := by
    rw [hroot]
    exact ((hc.history hf v).mono hext).reorder hleaf
  exact hb.transformsBetween_eq hf'

/-- A transform after steps that change no view. -/
theorem Transformed.ofViews {leaf : List AxisId} (h : Transformed f₁ f' v x leaf) (hf : Sound f)
    (hc : Cuts f) (hs : Schedules f f₁) (hviews : ∀ w, f₁.view w = f.view w)
    (hdef : ∀ w, f.HasValue w → f₁.definingExpr? w = f.definingExpr? w) :
    Transformed f f' v x leaf := by
  have hhistory : f₁.history v = f.history v :=
    hc.history_eq hf hs.sound hs.ext (by rw [hviews]) (by rw [Fusion.leaf, hviews]; rfl)
  refine ⟨hs.trans h.toSchedules, h.root.trans (congrArg (·.domain.root) (hviews v)),
    fun w hw => (h.definingExpr w (hs.ext.hasValue hw)).trans (hdef w hw), ?_,
    fun b hb => ⟨fun hhas => (h.origin b hb).1 (hs.ext.hasAxis hhas), (h.origin b hb).2⟩, h.leaf,
    h.recorded, h.measured⟩
  rw [← hhistory]
  exact h.history

end Fusion

namespace Schedule

variable {f f' f₁ : Fusion} {v : ValueId} {x : Transform} {leaf : List AxisId} {u : Unit}

/-- Giving a tensor leaves changes nothing else about it. -/
theorem view_setLeaf (hv : f.isTensor v = true)
    (h : Edit.Gives (setLeaf v leaf) f u f') :
    f'.isTensor v = true ∧ f'.view v = (f.view v).withLeaf leaf := by
  obtain rfl := Edit.gives_modify.1 h
  refine ⟨?_, ?_⟩
  · rw [(sameGraph_modify_sync f v _).isTensor]
    exact hv
  · rw [view_modify_sync, if_pos (.inl rfl), if_pos hv]

theorem record_transformed (hf : Sound f) (hc : Cuts f) (htensor : f.isTensor v = true)
    (hrec : Records f f₁ x) (hleaf : (leaf ++ x.inputs).Perm (f.leaf v ++ x.outputs))
    (h : Edit.Gives (setLeaf v leaf) f₁ u f') : Transformed f f' v x leaf := by
  have hs := record_schedules hf hrec hleaf h
  have hview : f'.view v = (f.view v).withLeaf leaf := by
    rw [← hrec.view v]
    exact (view_setLeaf ((hrec.isTensor v).trans htensor) h).2
  have hgraph := sameGraph_modify_sync f₁ v (·.withLeaf leaf)
  have hext : Extends f₁ f' := by
    obtain rfl := Edit.gives_modify.1 h
    refine (hrec.sound.modify_sync (g := (·.withLeaf leaf)) fun a ha => ?_).2
    have hhas := hs.sound.domains v a (by rw [hview, ← hrec.view v]; exact ha)
    rwa [HasAxis, hgraph.axes] at hhas
  have hhas : f₁.HasTransform ⟨f.transforms.size⟩ := by
    simp [HasTransform, hrec.transforms]
  have hlast : f'.transform ⟨f.transforms.size⟩ = x := by
    rw [hext.transform _ hhas, hrec.transform_last]
  have hb : f₁.Balanced (f.view v).domain.root (f.history v ++ [⟨f.transforms.size⟩]) leaf := by
    refine hrec.balanced hf (hc.history hf v) (fun a ha => ?_) hleaf
    exact hf.domains v a (List.mem_append_left _ (by simp [ha]))
  have haxes : f'.axes = f₁.axes := by
    obtain rfl := Edit.gives_modify.1 h
    exact hgraph.axes
  have horigin : ∀ b ∈ x.outputs, f'.Originates b x := by
    refine fun b hb => ⟨_, hext.hasTransform hhas, ?_, hlast⟩
    rw [Fusion.axis, haxes]
    exact hrec.origin b hb
  have hdefining : ∀ w, f.HasValue w → f'.definingExpr? w = f.definingExpr? w := by
    obtain rfl := Edit.gives_modify.1 h
    exact fun w hw => (hgraph.definingExpr? w).trans (hrec.definingExpr w hw)
  refine ⟨hs, congrArg (·.domain.root) hview, hdefining, ⟨⟨f.transforms.size⟩, ?_, hlast⟩,
    fun b hb => ⟨hrec.fresh b hb, horigin b hb⟩, congrArg TensorView.leaf hview, ?_,
    hrec.measured.mono hrec.sound.extents hrec.recorded hext⟩
  · have hhistory := (hb.mono hext).transformsBetween_eq hs.sound
    unfold Fusion.history
    rw [hview]
    exact hhistory
  · rw [← hlast]
    exact hs.sound.recorded _ (hext.hasTransform hhas)

/-- The elements around a position. -/
theorem eq_take_cons_drop {l : List AxisId} {p : Nat} {a : AxisId} (h : l[p]? = some a) :
    l = l.take p ++ a :: l.drop (p + 1) ∧ (l.take p).length = p := by
  obtain ⟨hp, rfl⟩ := List.getElem?_eq_some_iff.1 h
  exact ⟨by simp, by simp [Nat.le_of_lt hp]⟩

/-- A split by a number transforms the leaf at a position. -/
theorem split_transformed {p : Nat} {n : Int} {innerSplit : Bool} (hf : Sound f) (hc : Cuts f)
    (h : (split v (p : Int) (.const n) innerSplit).Returns f u f') :
    ∃ front a back o i k, f.leaf v = front ++ a :: back ∧ front.length = p ∧ 0 < n ∧
      f'.Literal k n ∧
      Transformed f f' v (.split a o i k innerSplit) (front ++ o :: i :: back) := by
  obtain ⟨q, k, f₁, f₂, a, o, i, htensor, hq, hk, hget, hrec, hset⟩ := returns_split hf h
  obtain ⟨hb, hint, hviews, -, hdef⟩ := resolveFactor_builds hf hk
  have hdenotes := normalizeAxis_eq_ok.1 hq
  obtain rfl := hdenotes.eq ⟨by have := hdenotes; unfold Denotes at this; omega, .inl rfl⟩
  have hliteral : 0 < n ∧ f₁.Literal k n := by
    simp only [resolveFactor, EditE.returns_bind, EditE.returns_ensure, EditE.returns_lift,
      Edit.newInt, Edit.newConst, Edit.gives_newValue, decide_eq_true_eq] at hk
    obtain ⟨-, f₁, ⟨hpos, rfl⟩, rfl, rfl⟩ := hk
    refine ⟨hpos, ?_, ?_⟩
    · simp [const?, value_pushValue, Value.const?]
    · simp [dtype, value_pushValue, Constant.dtype]
  have hleaf : f₁.leaf v = f.leaf v := by
    unfold Fusion.leaf
    rw [hviews]
  have htensor₁ : f₁.isTensor v = true := by
    rw [hb.ext.isTensor v (hasValue_of_isTensor htensor)]
    exact htensor
  have hdone := record_transformed hb.sound (hb.cuts hc) htensor₁ hrec (split_perm hget) hset
  rw [hleaf] at hget hdone
  obtain ⟨hsplit, hlength⟩ := eq_take_cons_drop hget
  refine ⟨_, a, _, o, i, k, hsplit, hlength, hliteral.1,
    hliteral.2.mono hint hdone.ext, ?_⟩
  rw [List.append_assoc] at hdone
  exact hdone.ofViews hf hc (.ofViews hb.sound hb.ext hb.wired hb.axis hviews) hviews hdef

/-- The element that takes the place of two neighbours. -/
theorem placeMerged_neighbours (front back : List AxisId) (a b m : AxisId) :
    placeMerged (front ++ a :: b :: back) front.length (front.length + 1) m =
      front ++ m :: back := by
  simp [placeMerged, List.eraseIdx_append_of_length_le]

/-- A merge of a leaf and the next one. -/
theorem merge_transformed {p : Nat} (hf : Sound f) (hc : Cuts f)
    (h : (merge v (p : Int) ((p : Int) + 1)).Returns f u f') :
    ∃ front a b back out, f.leaf v = front ++ a :: b :: back ∧ front.length = p ∧
      Transformed f f' v (.merge a b out) (front ++ out :: back) := by
  obtain ⟨q, r, f₁, a, b, out, htensor, hq, hr, hne, ha, hb, hrec, hset⟩ := returns_merge hf h
  have hq := normalizeAxis_eq_ok.1 hq
  have hr := normalizeAxis_eq_ok.1 hr
  have hr' : r = p + 1 := by
    unfold Denotes at hr
    omega
  obtain rfl : q = p := by
    unfold Denotes at hq
    omega
  subst hr'
  obtain ⟨hsplit, hlength⟩ := eq_take_cons_drop ha
  obtain ⟨back, hback⟩ : ∃ back, (f.leaf v).drop (q + 1) = b :: back := by
    obtain ⟨hlt, hget⟩ := List.getElem?_eq_some_iff.1 hb
    exact ⟨_, hget ▸ List.drop_eq_getElem_cons hlt⟩
  rw [hback] at hsplit
  have hdone := record_transformed hf hc htensor hrec (placeMerged_perm_of_ne hne ha hb) hset
  rw [Nat.min_eq_left (Nat.le_succ q), Nat.max_eq_right (Nat.le_succ q)] at hdone
  generalize (f.leaf v).take q = front at hsplit hlength
  subst hlength
  rw [hsplit, placeMerged_neighbours] at hdone
  exact ⟨front, a, b, back, out, hsplit, rfl, hdone⟩

end Schedule
end FusionCompiler
