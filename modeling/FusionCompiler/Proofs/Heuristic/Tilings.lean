import FusionCompiler.Proofs.Heuristic.Proposals
import FusionCompiler.Proofs.Lower.KeptAxes
import FusionCompiler.Proofs.Schedule.Copies
import FusionCompiler.Proofs.Schedule.FrozenCalls
import FusionCompiler.Proofs.Schedule.Reordering
import FusionCompiler.Proofs.Schedule.RootedStages

/-!
# The tilings of automatic schedules

An automatic schedule moves, merges and splits the leaves of its reference.  A merge
has no more elements than its parts together, but a split by a number that does not
divide has, and what runs over is caught only where it shows at a guarded root.  So
it is enough to know for every leaf whether nothing overruns it, or else which
number its extent is: a split pads nothing if the leaf is kept, or if the number is
a multiple.

A reduction moves what is iterated to the front, so the leaf that is split comes from
reduced axes, which are no broadcasts.  A transpose, and a point-wise schedule with
vectors, is proposed only where there are no broadcasts at all, and the tile of a
transpose is a multiple of its threads.  A point-wise schedule without vectors splits
the merge of all leaves, which is kept if the first one is.  If the first axis is a
broadcast, the padding shows nowhere.

Main results:

- Theorem `Fusion.applyAll_unstarted`: calls that only build schedule nothing.
- Theorems `Schedule.split_tiling`, `Schedule.mergeRange_tiling`,
  `Schedule.reorder_tiling` and `Schedule.moveToFront_tiling`: what is known of the
  leaves after a step.
- Theorem `Fusion.Tiling.exactlyOnce`: the loops over a tiling visit every element
  exactly once.
- Theorem `Heuristic.tiles_exactlyOnce`: so do those of an automatic schedule over its
  reference, unless the schedule is point-wise and the first axis is a broadcast.
- Theorem `Heuristic.tiles_of_schedule`: a schedule that succeeds has made its tiling.
- Theorem `Heuristic.negatedRow_not_exactlyOnce`: then some elements are visited twice.
-/

namespace FusionCompiler

open Fusion

/-! ## Before a schedule -/

namespace Fusion

variable {f f' f₁ f₂ : Fusion} {calls : List Call}

/-- A regular fusion with plain roots of which no tensor has been scheduled. -/
structure Unstarted (f : Fusion) : Prop where
  regular : Regular f
  plain : Plain f
  unscheduled : ∀ v, Unscheduled (f.view v)

namespace Unstarted

/-- A fusion that is not scheduled yet is sound. -/
theorem sound (h : Unstarted f) : Sound f :=
  h.regular.sound

/-- Root axes are axes of the fusion. -/
theorem hasAxis (h : Unstarted f) {v : ValueId} {a : AxisId} (ha : a ∈ (f.view v).domain.root) :
    f.HasAxis a :=
  h.sound.domains v a (List.mem_append_left _ (by simp [ha]))

end Unstarted

/-- An empty fusion is not scheduled. -/
theorem unstarted_empty : Unstarted {} :=
  ⟨regular_empty, plain_empty, fun _ => .empty⟩

/-- No root axis of a tensor is a broadcast. -/
def ConcreteRoot (f : Fusion) (v : ValueId) : Prop :=
  ∀ a ∈ (f.view v).domain.root, (f.axis a).isBroadcast = false

/-- No root axis of a tensor is a broadcast or a reduction. -/
def IteratedRoot (f : Fusion) (v : ValueId) : Prop :=
  ∀ a ∈ (f.view v).domain.root, (f.axis a).kind = .iteration

/-- An iterated root that is not factored is the shape of the tensor. -/
theorem IteratedRoot.shape_eq {v : ValueId} (h : f.IteratedRoot v)
    (hrfactor : (f.view v).domain.rfactor = none) : f.shape v = (f.view v).domain.root := by
  rw [shape, TensorDomain.logical, hrfactor, Option.getD_none, List.filter_eq_self]
  intro a ha
  rw [Axis.isReduction, h a ha]
  rfl

/-- What steps do that schedule nothing: no root that was there gets a broadcast, and roots that are
iterated stay so and as long as they are. -/
structure Stays (f f' : Fusion) : Prop where
  unstarted : Unstarted f'
  ext : Extends f f'
  concrete : ∀ v, f.HasValue v → f.ConcreteRoot v → f'.ConcreteRoot v
  iterated : ∀ v, f.HasValue v → f.IteratedRoot v → f'.IteratedRoot v ∧
    (f'.view v).domain.root.length = (f.view v).domain.root.length

namespace Stays

/-- Nothing is scheduled by doing nothing. -/
protected theorem refl (h : Unstarted f) : Stays f f :=
  ⟨h, .refl f, fun _ _ h => h, fun _ _ h => ⟨h, rfl⟩⟩

/-- Steps one after another that schedule nothing. -/
protected theorem trans (h : Stays f f₁) (h' : Stays f₁ f₂) : Stays f f₂ := by
  refine ⟨h'.unstarted, h.ext.trans h'.ext,
    fun v hv hroot => h'.concrete v (h.ext.hasValue hv) (h.concrete v hv hroot),
    fun v hv hroot => ?_⟩
  obtain ⟨hroot, hlength⟩ := h.iterated v hv hroot
  obtain ⟨hroot', hlength'⟩ := h'.iterated v (h.ext.hasValue hv) hroot
  exact ⟨hroot', hlength'.trans hlength⟩

/-- Steps that build. -/
theorem ofBuilds (hf : Unstarted f) (hr : Regular f') (hb : Builds f f') : Stays f f' := by
  refine ⟨⟨hr, hb.plain hf.plain, fun v => ?_⟩, hb.ext, fun v hv hroot a ha => ?_,
    fun v hv hroot => ⟨fun a ha => ?_, by rw [hb.view v hv]⟩⟩
  · by_cases hv : f.HasValue v
    · rw [hb.view v hv]
      exact hf.unscheduled v
    · exact hb.fresh v hv
  all_goals
    rw [hb.view v hv] at ha
    rw [hb.axis a (hf.hasAxis ha)]
    exact hroot a ha

/-- Steps that change no axis and no domain. -/
theorem ofDomains (hf : Unstarted f) (hr : Regular f') (hext : Extends f f')
    (haxis : ∀ a, f.HasAxis a → f'.axis a = f.axis a)
    (hview : ∀ v, Unscheduled (f'.view v) ∧ (f'.view v).domain = (f.view v).domain) :
    Stays f f' := by
  refine ⟨⟨hr, ⟨fun v => (hview v).1.rfactor, fun v => (hview v).1.computeAt, fun v a ha => ?_⟩,
    fun v => (hview v).1⟩, hext, fun v _ hroot a ha => ?_,
    fun v _ hroot => ⟨fun a ha => ?_, by rw [(hview v).2]⟩⟩
  · rw [(hview v).2] at ha
    exact (hf.plain.root v a ha).mono hf.sound (hf.hasAxis ha) hext (haxis a (hf.hasAxis ha))
  all_goals
    rw [(hview v).2] at ha
    rw [haxis a (hf.hasAxis ha)]
    exact hroot a ha

end Stays

/-- Calls that only build schedule nothing. -/
theorem applyAll_unstarted (hcalls : ∀ c ∈ calls, c.scope = .building)
    (h : applyAll Schedule.replay calls {} = some f) : Unstarted f := by
  have hrun : ∀ g, Unstarted g → applyAll Schedule.replay calls g = some f → Unstarted f := by
    clear h
    induction calls with
    | nil =>
        intro g hg h
        cases h
        exact hg
    | cons c calls ih =>
        intro g hg h
        obtain ⟨f₁, hone, h⟩ := Option.bind_eq_some_iff.1 h
        obtain ⟨hknown, u, hone⟩ := Call.outcome_eq_some hone
        have hscope := hcalls c List.mem_cons_self
        have hb := Call.perform_builds hscope hg.sound hknown hone
        have hr := (Call.perform_building_freezes hscope hg.regular hknown hone.leaves).regular
        exact ih (fun d hd => hcalls d (List.mem_cons_of_mem c hd)) f₁
          (Stays.ofBuilds hg hr hb).unstarted h
  exact hrun {} unstarted_empty h

end Fusion

namespace Schedule

variable {f f' : Fusion} {tensor : ValueId}

/-- A copy behind a tensor schedules nothing. -/
theorem cacheAfter_stays {cache : ValueId} (hf : Unstarted f)
    (h : (cacheAfter tensor).Returns f cache f') : Stays f f' := by
  have hr := (cacheAfter_freezes hf.regular h.leaves).regular
  unfold cacheAfter at h
  simp only [EditE.returns_bind, returns_ensureView, EditE.returns_ensure, EditE.returns_get,
    EditE.returns_pure] at h
  obtain ⟨x, f₁, ⟨ht, -, rfl⟩, -, f₂, ⟨-, rfl⟩, f₀, f₃, ⟨rfl, rfl⟩, out, f₁, hcopy, _, f₂, hforM,
    rfl, rfl⟩ := h
  have hcopy := EditE.returns_mapError.1 hcopy
  have hknown : Build.Known f (.value tensor) := hasValue_of_isTensor ht
  have hb := Build.copy_builds hf.sound hknown hcopy
  have hr₁ := (Freezes.ofAdds hf.regular hb.keeps (Build.copy_adding _ f f₁ hcopy.leaves)).regular
  have hcopied := Stays.ofBuilds hf hr₁ hb
  obtain ⟨hout, -⟩ := Build.copy_tensor hf.sound ht hcopy
  have huses : ∀ e ∈ f.uses tensor, ComputesTensors f₁ e := fun e he =>
    (ComputesTensors.ofUse hf.sound ht he).mono hf.sound hb.ext
  have hedits : Edits False f₁ f₂ :=
    (replaceInputs_keeps hb.sound huses (hasValue_of_isTensor hout) hforM).1
  refine hcopied.trans (.ofDomains hcopied.unstarted hr hedits.ext (fun a _ => ?_) fun v => ?_)
  · rw [Fusion.axis, (replaceInputs_tables hforM).1]
    rfl
  · rw [(replaceInputs_shares hforM).1 v]
    exact ⟨hcopied.unstarted.unscheduled v, rfl⟩

/-- A copy in front of a tensor schedules nothing. -/
theorem cacheBefore_stays {cache : ValueId} (hf : Unstarted f)
    (h : (cacheBefore tensor).Returns f cache f') : Stays f f' := by
  have hk := cacheBefore_keeps hf.sound h
  obtain ⟨-, haxis, root, hnodup, hlength, halike, hviews⟩ := cacheBefore_views hf.sound h
  have hbroadcast : ∀ b ∈ root, ∃ a ∈ (f.view tensor).domain.root, f.HasAxis a ∧
      f'.extent b = f.extent a ∧ (f'.axis b).isBroadcast = (f.axis a).isBroadcast := by
    intro b hb
    obtain ⟨-, -, a, ha, hextent, hkind⟩ := halike b hb
    have hsame : (f'.axis b).isBroadcast = (f.axis a).isBroadcast := by
      rw [Axis.isBroadcast, hkind]
      rfl
    refine ⟨a, ?_, Build.hasAxis_of_mem_shape hf.sound ha, hextent, hsame⟩
    have hmem := (List.mem_filter.1 ha).1
    rwa [TensorDomain.logical, hf.plain.rfactor, Option.getD_none] at hmem
  have hplain : ∀ v, ∀ a ∈ (f.view v).domain.root, f'.PlainAxis a := fun v a ha =>
    (hf.plain.root v a ha).mono hf.sound (hf.hasAxis ha) hk.ext (haxis a (hf.hasAxis ha))
  have hx := hf.unscheduled tensor
  have hunscheduled : ∀ v, Unscheduled (f'.view v) := by
    intro v
    rcases hviews v with ⟨hv, -⟩ | ⟨hv, -⟩ | ⟨hv, -⟩
    · rw [hv]
      exact ⟨rfl, rfl, hnodup, hx.computeAt, hx.maxProducer⟩
    · rw [hv]
      exact ⟨hx.leaf, hx.rfactor, hx.nodup, rfl, rfl⟩
    · rw [hv]
      exact hf.unscheduled v
  have hr := (cacheBefore_freezes hf.regular h.leaves).regular
  refine ⟨⟨hr, ⟨fun v => (hunscheduled v).rfactor, fun v => (hunscheduled v).computeAt,
    fun v a ha => ?_⟩, hunscheduled⟩, hk.ext, fun v hhas hroot a ha => ?_,
    fun v hhas hroot => ?_⟩
  · rcases hviews v with ⟨hv, -⟩ | ⟨hv, -⟩ | ⟨hv, -⟩
    · rw [hv] at ha
      obtain ⟨b, hb, hhas, hextent, hbroad⟩ := hbroadcast a ha
      exact (hf.plain.root tensor b hb).copied hf.sound hhas hk.ext hextent (hbroad ▸ id)
    · rw [hv] at ha
      exact hplain tensor a ha
    · rw [hv] at ha
      exact hplain v a ha
  · rcases hviews v with ⟨hv, rfl⟩ | ⟨-, hnew⟩ | ⟨hv, -⟩
    · rw [hv] at ha
      obtain ⟨b, hb, -, -, hbroad⟩ := hbroadcast a ha
      rw [hbroad]
      exact hroot b hb
    · exact absurd hhas hnew
    · rw [hv] at ha
      rw [haxis a (hf.hasAxis ha)]
      exact hroot a ha
  · rcases hviews v with ⟨hv, rfl⟩ | ⟨-, hnew⟩ | ⟨hv, -⟩
    · rw [hv]
      have hshape : f.shape v = (f.view v).domain.root := hroot.shape_eq (hf.plain.rfactor v)
      refine ⟨fun a ha => ?_, hlength.trans (congrArg List.length hshape)⟩
      rw [hv] at ha
      obtain ⟨-, -, b, hb, -, hkind⟩ := halike a ha
      rw [hkind]
      exact hroot b (hshape ▸ hb)
    · exact absurd hhas hnew
    · refine ⟨fun a ha => ?_, by rw [hv]⟩
      rw [hv] at ha
      rw [haxis a (hf.hasAxis ha)]
      exact hroot a ha

/-- The memory of a tensor is no schedule. -/
theorem setMemory_stays {memory : MemoryType} {u : Unit} (hf : Unstarted f)
    (h : (setMemory tensor memory).Returns f u f') : Stays f f' := by
  have hfreezes := setMemory_freezes hf.regular h.leaves
  unfold setMemory at h
  simp only [EditE.returns_bind, EditE.returns_discard, returns_ensureView, EditE.returns_ensure,
    EditE.returns_get, EditE.returns_modify] at h
  obtain ⟨-, f₁, ⟨x, ht, -, rfl⟩, f₀, f₂, ⟨rfl, rfl⟩, -, f₃, ⟨-, rfl⟩, rfl⟩ := h
  have hgraph := sameGraph_modify_sync f tensor fun v => { v with memory }
  refine .ofDomains hf hfreezes.regular hfreezes.ext (fun a _ => ?_) fun v => ?_
  · rw [Fusion.axis, hgraph.axes]
    rfl
  · rw [view_modify_sync, if_pos ht]
    have hx := hf.unscheduled tensor
    split
    case isTrue hmem =>
        refine ⟨⟨hx.leaf, hx.rfactor, hx.nodup, hx.computeAt, hx.maxProducer⟩, ?_⟩
        rcases hmem with rfl | hsibling
        · rfl
        · rw [hf.regular.together tensor ht v hsibling]
    case isFalse => exact ⟨hf.unscheduled v, rfl⟩

/-- Steps one after another. -/
theorem mapM_stays {α β : Type} {k : α → Schedule β} {l : List α} {bs : List β}
    (hk : ∀ a f b f', Unstarted f → (k a).Returns f b f' → Stays f f') (hf : Unstarted f)
    (h : (l.mapM k).Returns f bs f') : Stays f f' := by
  induction l generalizing f bs with
  | nil =>
      rw [List.mapM_nil] at h
      obtain ⟨-, rfl⟩ := EditE.returns_pure.1 h
      exact .refl hf
  | cons a l ih =>
      rw [List.mapM_cons] at h
      simp only [EditE.returns_bind, EditE.returns_pure] at h
      obtain ⟨b, f₁, hone, bs, f₂, hrest, -, rfl⟩ := h
      have hs := hk a f b f₁ hf hone
      exact hs.trans (ih hs.unstarted hrest)

/-- Steps one after another without results. -/
theorem forM_stays {α : Type} {k : α → Schedule PUnit} {l : List α} {u : PUnit}
    (hk : ∀ a f u f', Unstarted f → (k a).Returns f u f' → Stays f f') (hf : Unstarted f)
    (h : (l.forM k).Returns f u f') : Stays f f' := by
  induction l generalizing f with
  | nil =>
      obtain ⟨-, rfl⟩ := EditE.returns_pure.1 h
      exact .refl hf
  | cons a l ih =>
      obtain ⟨_, f₁, hone, h⟩ := EditE.returns_bind.1 h
      have hs := hk a f _ f₁ hf hone
      exact hs.trans (ih hs.unstarted h)

end Schedule

namespace Heuristic

variable {f f' : Fusion}

/-- The copies of a point-wise schedule schedule nothing. -/
theorem Pointwise.insertCaches_stays {vs : List ValueId} (hf : Unstarted f)
    (h : Pointwise.insertCaches.Returns f vs f') : Stays f f' := by
  unfold Pointwise.insertCaches at h
  simp only [EditE.returns_bind, EditE.returns_get, EditE.returns_pure] at h
  obtain ⟨f₀, f₁, ⟨rfl, rfl⟩, copies, f₁, hafter, f₀, f₂, ⟨rfl, rfl⟩, _, f₃, hbefore, -, rfl⟩ := h
  have hs := Schedule.mapM_stays (fun _ _ _ _ => Schedule.cacheAfter_stays) hf hafter
  refine hs.trans (Schedule.forM_stays (fun v g u g' hg h => ?_) hs.unstarted hbefore)
  obtain ⟨c, h⟩ := EditE.returns_discard.1 h
  exact Schedule.cacheBefore_stays hg h

/-- Staging a tensor in shared memory schedules nothing. -/
theorem Transpose.stage_stays {tensor copy : ValueId} (hf : Unstarted f)
    (h : (Transpose.stage tensor).Returns f copy f') : Stays f f' := by
  unfold Transpose.stage at h
  simp only [EditE.returns_bind, EditE.returns_pure] at h
  obtain ⟨c, f₁, hcopy, _, f₂, hmemory, -, rfl⟩ := h
  have hs := Schedule.cacheAfter_stays hf hcopy
  exact hs.trans (Schedule.setMemory_stays hs.unstarted hmemory)

end Heuristic

/-! ## What is known of leaves -/

/-- What is known of a leaf: that no iteration that passes the guard overruns it, its extent, or
nothing. -/
inductive LeafNote where
  | kept
  | literal (n : Int)
  | unknown
deriving DecidableEq, Repr

namespace LeafNote

/-- What is known of a merge of two leaves. -/
def merged : LeafNote → LeafNote → LeafNote
  | .kept, _ => .kept
  | .literal m, .literal n =>
    match BinaryOp.mul.evalInt m n with
    | some (.int r) => .literal r
    | _ => .unknown
  | _, _ => .unknown

/-- A kept leaf merged with any other is kept. -/
@[simp]
theorem kept_merged (note : LeafNote) : kept.merged note = kept := by
  cases note <;> rfl

/-- A kept leaf merged with several others is kept. -/
theorem foldl_kept_merged (notes : List LeafNote) : notes.foldl merged kept = kept :=
  List.foldl_fixed' kept_merged notes

/-- What is known of the outer half of a split by a number that pads no leaf but a kept one. -/
inductive Splits (n : Int) : LeafNote → LeafNote → Prop where
  | kept : Splits n .kept .kept
  | literal {m : Int} (h : m % n = 0) : Splits n (.literal m) .unknown

/-- Nothing overruns the first of some leaves. -/
def KeptHead (notes : List LeafNote) : Prop :=
  ∀ note ∈ notes.head?, note = .kept

/-- A kept leaf at the front. -/
theorem KeptHead.cons (notes : List LeafNote) : KeptHead (.kept :: notes) :=
  fun _ h => (Option.some.inj h).symm

/-- Leaves that are all kept start with one. -/
theorem KeptHead.of_forall {notes : List LeafNote} (h : ∀ note ∈ notes, note = .kept) :
    KeptHead notes :=
  fun note hnote => h note (List.mem_of_mem_head? hnote)

/-- Two neighbours among leaves that nothing overruns. -/
theorem exists_kept_neighbours {notes : List LeafNote} {p : Nat}
    (h : ∀ note ∈ notes, note = .kept) (hp : p + 1 < notes.length) :
    ∃ before rest, before.length = p ∧ notes = before ++ .kept :: .kept :: rest := by
  have hfirst := h notes[p] (List.getElem_mem _)
  have hsecond := h notes[p + 1] (List.getElem_mem _)
  refine ⟨notes.take p, notes.drop (p + 2), by simp; omega, ?_⟩
  rw [← hsecond, List.getElem_cons_drop, hsecond, ← hfirst, List.getElem_cons_drop,
    List.take_append_drop]

/-- What is known of the inner half. -/
def inner (innerSplit : Bool) (n : Int) : LeafNote :=
  if innerSplit then .literal n else .unknown

end LeafNote

namespace Fusion

variable {f f' f₁ : Fusion} {v : ValueId} {a : AxisId} {x : Transform} {n : Int}
  {notes notes' : List LeafNote} {leaf : List AxisId}

/-- What a note says of an axis. -/
def Noted (f : Fusion) (v : ValueId) : LeafNote → AxisId → Prop
  | .kept, a => f.Kept v a
  | .literal n, a => f.Literal (f.extent a) n
  | .unknown, _ => True

/-- A transform that pads no axis but a kept one. -/
def Caught (f : Fusion) (v : ValueId) : Transform → Prop
  | .split a _ _ k _ => f.Kept v a ∨
      ∃ m n, f.Literal (f.extent a) m ∧ f.Literal k n ∧ 0 < n ∧ m % n = 0
  | .merge _ _ _ => True

/-- A tensor of which the leaves are known so far, and all padding shows at a guarded root. -/
structure Tiling (f : Fusion) (v : ValueId) (notes : List LeafNote) : Prop where
  sound : Sound f
  cuts : Cuts f
  plain : Plain f
  caught : ∀ t ∈ f.history v, f.Caught v (f.transform t)
  leaf : List.Forall₂ (f.Noted v) notes (f.leaf v)

/-- Steps that keep the root and the history of a tensor. -/
structure Proceeds (f f' : Fusion) (v : ValueId) : Prop where
  ext : Extends f f'
  root : (f'.view v).domain.root = (f.view v).domain.root
  broadcast : ∀ a, f.HasAxis a → (f'.axis a).isBroadcast = (f.axis a).isBroadcast
  history : ∀ t ∈ f.history v, t ∈ f'.history v

/-- A transform keeps what was known of the leaves. -/
theorem Transformed.proceeds (h : Transformed f f' v x leaf) : Proceeds f f' v := by
  refine ⟨h.ext, h.root, fun a ha => by rw [h.axis a ha], fun t ht => ?_⟩
  obtain ⟨s, hhistory, -⟩ := h.history
  rw [hhistory]
  exact List.mem_append_left _ ht

namespace Proceeds

variable (h : Proceeds f f' v) (hf : Sound f)

include h hf

/-- A literal extent stays literal. -/
theorem noted_literal (ha : f.HasAxis a) (hn : f.Literal (f.extent a) n) :
    f'.Literal (f'.extent a) n := by
  rw [h.ext.extent a ha]
  exact hn.mono (hf.extents a ha) h.ext

variable (hc : Cuts f)

include hc

/-- Earlier transforms stay as they are. -/
theorem transform {t : TransformId} (ht : t ∈ f.history v) : f'.transform t = f.transform t :=
  h.ext.transform t ((hc.history hf v).has t ht)

/-- A leaf that nothing overruns stays so. -/
theorem kept (ha : f.Kept v a) : f'.Kept v a := by
  induction ha with
  | @root a ha hb =>
      refine .root (h.root ▸ ha) ?_
      rw [h.broadcast a (hf.domains v a (List.mem_append_left _ (by simp [ha])))]
      exact hb
  | outer ht hx ha ih => exact .outer (h.history _ ht) ((h.transform hf hc ht).trans hx) ih
  | merged ht hx ho ih => exact .merged (h.history _ ht) ((h.transform hf hc ht).trans hx) ih

/-- A note stays true. -/
theorem noted {note : LeafNote} (ha : f.HasAxis a) (hn : f.Noted v note a) :
    f'.Noted v note a := by
  cases note with
  | kept => exact h.kept hf hc hn
  | literal n => exact h.noted_literal hf ha hn
  | unknown => exact trivial

/-- Padding that was caught stays caught. -/
theorem caught {t : TransformId} (ht : t ∈ f.history v) (hcaught : f.Caught v (f.transform t)) :
    f'.Caught v (f.transform t) := by
  have hrecorded := hf.recorded t ((hc.history hf v).has t ht)
  generalize f.transform t = y at *
  cases y with
  | merge => exact trivial
  | split a o i k innerSplit =>
      rcases hcaught with hkept | ⟨m, n, hm, hn, hpos, hdvd⟩
      · exact .inl (h.kept hf hc hkept)
      · have ha : f.HasAxis a := hrecorded.hasAxis_input (by simp [Transform.inputs])
        exact .inr ⟨m, n, h.noted_literal hf ha hm, hn.mono hrecorded.2.2.2.1 h.ext, hpos, hdvd⟩

end Proceeds

namespace Tiling

/-- What is known of leaves stays known. -/
theorem noted (ht : Tiling f v notes) (h : Proceeds f f' v) :
    List.Forall₂ (f'.Noted v) notes (f.leaf v) := by
  have hhas : ∀ a ∈ f.leaf v, f.HasAxis a :=
    fun a ha => ht.sound.domains v a (List.mem_append_right _ ha)
  refine ((List.forall₂_and_left _ _).2 ⟨hhas, ht.leaf.flip⟩).flip.imp fun note a ha => ?_
  exact h.noted ht.sound ht.cuts ha.1 ha.2

/-- In a tiling, padding that was caught stays caught. -/
theorem caught_of_proceeds (ht : Tiling f v notes) (h : Proceeds f f' v) {t : TransformId}
    (hmem : t ∈ f.history v) : f'.Caught v (f'.transform t) := by
  rw [h.transform ht.sound ht.cuts hmem]
  exact h.caught ht.sound ht.cuts hmem (ht.caught t hmem)

/-- A transform that pads no axis but a kept one keeps all padding caught. -/
theorem step (ht : Tiling f v notes) (h : Transformed f f' v x leaf)
    (hx : f'.Caught v x) (hleaf : List.Forall₂ (f'.Noted v) notes' leaf) :
    Tiling f' v notes' := by
  refine ⟨h.sound, h.cuts ht.cuts, h.plain ht.sound ht.plain, fun t hmem => ?_, h.leaf ▸ hleaf⟩
  obtain ⟨s, hhistory, hs⟩ := h.history
  rw [hhistory] at hmem
  rcases List.mem_append.1 hmem with hold | hnew
  · exact ht.caught_of_proceeds h.proceeds hold
  · rw [List.mem_singleton.1 hnew, hs]
    exact hx

/-- Leaves in another order. -/
theorem rearrange {moves : List (Nat × Nat)} (ht : Tiling f v notes) (h : Schedules f f')
    (hroot : (f'.view v).domain.root = (f.view v).domain.root)
    (hmoves : Schedule.ValidMoves (f.leaf v).length moves)
    (hleaf : f'.leaf v = Schedule.applyMoves moves (f.leaf v)) :
    Tiling f' v (Schedule.applyMoves moves notes) := by
  have hhistory : f'.history v = f.history v :=
    ht.cuts.history_eq ht.sound h.sound h.ext hroot (hleaf ▸ Schedule.applyMoves_perm hmoves)
  have hproceeds : Proceeds f f' v :=
    ⟨h.ext, hroot, fun a ha => by rw [h.axis a ha], fun t hmem => hhistory ▸ hmem⟩
  refine ⟨h.sound, h.cuts ht.cuts, h.plain ht.sound ht.plain, fun t hmem => ?_, ?_⟩
  · exact ht.caught_of_proceeds hproceeds (hhistory ▸ hmem)
  · rw [hleaf]
    exact Schedule.forall₂_applyMoves hmoves (ht.noted hproceeds)

end Tiling

/-- A merge of two literal extents is their product, if that is a 64-bit number. -/
theorem Transformed.literal_merge {o i out : AxisId} {m n : Int}
    (h : Transformed f f' v (.merge o i out) leaf) (ho : f'.Literal (f'.extent o) m)
    (hi : f'.Literal (f'.extent i) n) :
    f'.Noted v (LeafNote.merged (.literal m) (.literal n)) out := by
  unfold LeafNote.merged
  dsimp only
  split
  case h_2 => exact trivial
  case h_1 r hr =>
      have hm : f'.Evaluates .mul (f'.extent out) (f'.extent o) (f'.extent i) := h.measured
      have hdtype : f'.dtype (f'.extent out) = .int64 := by
        rw [hm.dtype, ho.2, hi.2]
        rfl
      refine ⟨?_, hdtype⟩
      rw [hm.folded m n _ ho.1 hi.1 hr, hdtype]
      rfl

/-- The transform that was made last. -/
theorem Transformed.exists_last (h : Transformed f f' v x leaf) :
    ∃ t ∈ f'.history v, f'.transform t = x := by
  obtain ⟨t, hhistory, hx⟩ := h.history
  exact ⟨t, by simp [hhistory], hx⟩

end Fusion

namespace Schedule

variable {f f' : Fusion} {v : ValueId} {u : Unit} {front back : List LeafNote}
  {note outer inner : LeafNote} {n : Int} {innerSplit : Bool}

/-- Notes of leaves around a position. -/
theorem forall₂_around {R : LeafNote → AxisId → Prop} {notes : List LeafNote}
    {leaf tail : List AxisId} (h : List.Forall₂ R (front ++ notes) (leaf ++ tail))
    (hlength : leaf.length = front.length) :
    List.Forall₂ R front leaf ∧ List.Forall₂ R notes tail := by
  have hfront := List.forall₂_take_append _ _ _ h
  have hnotes := List.forall₂_drop_append _ _ _ h
  rw [hlength, List.take_left] at hfront
  rw [hlength, List.drop_left] at hnotes
  exact ⟨hfront, hnotes⟩

/-- A split of a leaf that is kept, or a multiple of the factor. -/
theorem split_tiling (front : List LeafNote) (ht : Tiling f v (front ++ note :: back))
    (hsplits : note.Splits n outer)
    (h : (split v (front.length : Int) (.const n) innerSplit).Returns f u f') :
    Tiling f' v (front ++ outer :: .inner innerSplit n :: back) := by
  obtain ⟨axes, a, rest, o, i, k, hleaf, hlength, hpos, hk, hdone⟩ :=
    split_transformed ht.sound ht.cuts h
  have hnotes := ht.noted hdone.proceeds
  rw [hleaf] at hnotes
  obtain ⟨hfront, hnotes⟩ := forall₂_around hnotes hlength
  obtain ⟨ha, hback⟩ := List.forall₂_cons.1 hnotes
  obtain ⟨t, hmem, hx⟩ := hdone.exists_last
  have hinner : f'.Noted v (.inner innerSplit n) i := by
    cases innerSplit with
    | false => exact trivial
    | true =>
        have hi : f'.extent i = k := hdone.recorded.2.2.2.2.1
        rwa [LeafNote.inner, if_pos rfl, Noted, hi]
  cases hsplits with
  | kept =>
      refine ht.step hdone (.inl ha) ?_
      exact List.rel_append hfront (.cons (.outer hmem hx ha) (.cons hinner hback))
  | literal hdvd =>
      refine ht.step hdone (.inr ⟨_, n, ha, hk, hpos, hdvd⟩) ?_
      exact List.rel_append hfront (.cons trivial (.cons hinner hback))

/-- A merge of two neighbours. -/
theorem merge_tiling (front : List LeafNote) (ht : Tiling f v (front ++ outer :: inner :: back))
    (h : (merge v (front.length : Int) ((front.length : Int) + 1)).Returns f u f') :
    Tiling f' v (front ++ outer.merged inner :: back) := by
  obtain ⟨axes, a, b, rest, out, hleaf, hlength, hdone⟩ := merge_transformed ht.sound ht.cuts h
  have hnotes := ht.noted hdone.proceeds
  rw [hleaf] at hnotes
  obtain ⟨hfront, hnotes⟩ := forall₂_around hnotes hlength
  obtain ⟨ha, hnotes⟩ := List.forall₂_cons.1 hnotes
  obtain ⟨hb, hback⟩ := List.forall₂_cons.1 hnotes
  obtain ⟨t, hmem, hx⟩ := hdone.exists_last
  refine ht.step hdone trivial (List.rel_append hfront (.cons ?_ hback))
  cases outer with
  | kept =>
      rw [LeafNote.kept_merged]
      exact .merged hmem hx ha
  | unknown => cases inner <;> exact trivial
  | literal m =>
      cases inner with
      | literal n => exact hdone.literal_merge ha hb
      | _ => exact trivial

/-- A merge of neighbours, one after another. -/
theorem mergeRange_tiling (front : List LeafNote) {rest : List LeafNote}
    (ht : Tiling f v (front ++ note :: rest ++ back))
    (h : (mergeRange v front.length (rest.length + 1)).Returns f u f') :
    Tiling f' v (front ++ rest.foldl LeafNote.merged note :: back) := by
  induction rest generalizing f note with
  | nil =>
      obtain ⟨-, rfl⟩ := EditE.returns_pure.1 h
      simpa using ht
  | cons inner rest ih =>
      obtain ⟨_, f₁, hmerge, h⟩ := EditE.returns_bind.1 h
      have ht : Tiling f v (front ++ note :: inner :: (rest ++ back)) := by simpa using ht
      have hone := merge_tiling front ht hmerge
      exact ih (by simpa using hone) h

/-- A leaf that is split is there. -/
theorem lt_of_split {notes : List LeafNote} {p : Nat} (ht : Tiling f v notes)
    (h : (split v (p : Int) (.const n) innerSplit).Returns f u f') : p < notes.length := by
  obtain ⟨axes, a, rest, o, i, k, hleaf, hlength, -⟩ := split_transformed ht.sound ht.cuts h
  rw [ht.leaf.length_eq, hleaf, List.length_append, List.length_cons]
  omega

/-- A leaf that is merged with the next one is there, and so is the next one. -/
theorem lt_of_merge {notes : List LeafNote} {p : Nat} (ht : Tiling f v notes)
    (h : (merge v (p : Int) ((p : Int) + 1)).Returns f u f') : p + 1 < notes.length := by
  obtain ⟨axes, a, b, rest, out, hleaf, hlength, -⟩ := merge_transformed ht.sound ht.cuts h
  rw [ht.leaf.length_eq, hleaf, List.length_append, List.length_cons, List.length_cons]
  omega

/-- A merge of all leaves before some, of which the first is kept. -/
theorem mergeRange_tiling_front (ht : Tiling f v (front ++ back)) (hne : front ≠ [])
    (hhead : LeafNote.KeptHead front) (h : (mergeRange v 0 front.length).Returns f u f') :
    Tiling f' v (.kept :: back) := by
  cases front with
  | nil => exact absurd rfl hne
  | cons note rest =>
      obtain rfl := hhead note rfl
      have hdone := mergeRange_tiling [] ht h
      rwa [LeafNote.foldl_kept_merged] at hdone

/-- A merge of neighbours with a kept leaf is kept. -/
theorem mergeRange_tiling_kept (front : List LeafNote) {m : Nat}
    (ht : Tiling f v (front ++ .kept :: back))
    (h : (mergeRange v front.length m).Returns f u f') :
    ∃ rest, rest ⊆ back ∧ Tiling f' v (front ++ .kept :: rest) := by
  induction m using mergeRange.induct generalizing f back with
  | case1 | case2 =>
      obtain ⟨-, rfl⟩ := EditE.returns_pure.1 h
      exact ⟨back, List.Subset.refl back, ht⟩
  | case3 m ih =>
      obtain ⟨_, f₁, hmerge, h⟩ := EditE.returns_bind.1 h
      cases back with
      | nil => exact absurd (lt_of_merge ht hmerge) (by simp)
      | cons note back =>
          obtain ⟨rest, hsub, hdone⟩ := ih (merge_tiling front ht hmerge) h
          exact ⟨rest, List.subset_cons_of_subset note hsub, hdone⟩

/-- A merge of neighbours from a leaf on that is kept, if it is there. -/
theorem mergeRange_tiling_head (front : List LeafNote) {m : Nat} (ht : Tiling f v (front ++ back))
    (hhead : LeafNote.KeptHead back) (h : (mergeRange v front.length m).Returns f u f') :
    ∃ rest, rest ⊆ back ∧ LeafNote.KeptHead rest ∧ Tiling f' v (front ++ rest) := by
  cases back with
  | cons note back =>
      obtain rfl := hhead note rfl
      obtain ⟨rest, hsub, hdone⟩ := mergeRange_tiling_kept front ht h
      exact ⟨_, List.cons_subset_cons _ hsub, .cons rest, hdone⟩
  | nil =>
      match m, h with
      | 0, h | 1, h =>
          obtain ⟨-, rfl⟩ := EditE.returns_pure.1 h
          exact ⟨[], List.Subset.refl [], hhead, ht⟩
      | m + 2, h =>
          obtain ⟨_, f₁, hmerge, -⟩ := EditE.returns_bind.1 h
          exact absurd (lt_of_merge ht hmerge) (by simp)

/-- A split of a leaf that is kept, if it is there. -/
theorem split_tiling_head (front : List LeafNote) (ht : Tiling f v (front ++ back))
    (hhead : LeafNote.KeptHead back)
    (h : (split v (front.length : Int) (.const n) innerSplit).Returns f u f') :
    ∃ rest, rest ⊆ back ∧ Tiling f' v (front ++ .kept :: .inner innerSplit n :: rest) := by
  cases back with
  | nil => exact absurd (lt_of_split ht h) (by simp)
  | cons note back =>
      obtain rfl := hhead note rfl
      exact ⟨back, List.subset_cons_self _ back, split_tiling front ht .kept h⟩

/-- A permutation of the leaves. -/
theorem reorder_tiling {notes : List LeafNote} {moves : List (Int × Int)} (ht : Tiling f v notes)
    (h : (reorder v moves).Returns f u f') :
    ∃ positions, Positioned notes.length moves positions ∧ ValidMoves notes.length positions ∧
      Tiling f' v (applyMoves positions notes) := by
  have hs := reorder_schedules ht.sound h
  obtain ⟨htensor, positions, hread, -, hset⟩ := returns_reorder_iff.1 h
  obtain ⟨_, hmoves, rfl, hvalid⟩ := (readMoves_eq_ok (.nil _)).1 hread
  have hview := (view_setLeaf htensor hset).2
  have htiling := ht.rearrange hs (congrArg (·.domain.root) hview) hvalid
    (congrArg TensorView.leaf hview)
  have hlength : notes.length = (f.leaf v).length := ht.leaf.length_eq
  rw [hlength]
  exact ⟨_, hmoves, hvalid, htiling⟩

/-- Two neighbours that change places. -/
theorem swap_tiling (front : List LeafNote) (ht : Tiling f v (front ++ outer :: inner :: back))
    (h : (reorder v [((front.length : Nat), (front.length + 1 : Nat)),
      ((front.length + 1 : Nat), (front.length : Nat))]).Returns f u f') :
    Tiling f' v (front ++ inner :: outer :: back) := by
  obtain ⟨positions, hread, -, hmoved⟩ := reorder_tiling ht h
  obtain rfl : positions = [(front.length, front.length + 1), (front.length + 1, front.length)] :=
    positioned_natCast hread
  rwa [applyMoves_neighbours] at hmoved

/-- What is known of leaves of which some are moved to the front: the leaves moved come first, and
what is known of all others is known of those behind them. -/
theorem moveToFront_tiling {notes : List LeafNote} {first : List Nat} (ht : Tiling f v notes)
    (h : (moveToFront v first).Returns f u f') :
    ∃ front back, front.length = first.length ∧ Tiling f' v (front ++ back) ∧
      (front ++ back).Perm notes ∧ ∀ note ∈ back, ∃ p, p ∉ first ∧ notes[p]? = some note := by
  have hndims : (f.view v).ndims = notes.length := ht.leaf.length_eq.symm
  unfold moveToFront at h
  simp only [EditE.returns_bind, EditE.returns_get] at h
  obtain ⟨f₀, f₁, ⟨rfl, rfl⟩, h⟩ := h
  obtain ⟨positions, hmoves, hvalid, hmoved⟩ := reorder_tiling ht h
  obtain rfl := positioned_natCast hmoves
  rw [hndims] at hvalid hmoved
  have hold := hvalid.old
  have hlt := hvalid.old_lt
  rw [List.zipIdx_map_fst] at hold hlt
  have hfirst := (List.nodup_append.1 hold).1
  have hbelow : ∀ p ∈ first, p < notes.length := fun p hp => hlt p (List.mem_append_left _ hp)
  have hlength := (range_perm_append hfirst hbelow).length_eq
  rw [List.length_range] at hlength
  have horder := applyMoves_zipIdx hvalid hlength.symm
  rw [List.map_append] at horder
  obtain ⟨front, back, hsplit, hfront, hback⟩ := List.map_eq_append_iff.1 horder
  rw [hsplit] at hmoved
  refine ⟨front, back, ?_, hmoved, ?_, fun note hnote => ?_⟩
  · simpa using congrArg List.length hfront
  · rw [← hsplit]
    exact applyMoves_perm hvalid
  · have hmem : some note ∈ back.map some := List.mem_map_of_mem hnote
    rw [hback] at hmem
    obtain ⟨p, hp, hget⟩ := List.mem_map.1 hmem
    exact ⟨p, by simpa using (List.mem_filter.1 hp).2, hget⟩

end Schedule

/-! ## Where all padding is caught -/

namespace Fusion

variable {f f' : Fusion} {v : ValueId} {notes : List LeafNote} {e : AxisId → Int}
  {env : Scalar.Env}

/-- A transform pads no axis but a kept one. -/
theorem Caught.kept_of_padded {t : TransformId} (h : f.Caught v (f.transform t)) (hf : Sound f)
    (hc : Cuts f) (ht : t ∈ f.history v) (hsizes : f.Sizes v e)
    (hsized : f.Sized env (f.axesOf v) e) : ∀ a ∈ padded e (f.transform t), f.Kept v a := by
  have hb := hc.history hf v
  have hexact := hsizes.exact hf hb hsized ht
  have hrecorded := hf.recorded t (hb.has t ht)
  have hsized' : f.Sized env ((f.transform t).inputs ++ (f.transform t).outputs) e :=
    fun a ha => hsized a (hb.mem_axes ht ha)
  generalize f.transform t = x at *
  cases x with
  | merge => simp [padded]
  | split a o i k innerSplit =>
      rcases h with hkept | ⟨m, n, hm, hn, hpos, hdvd⟩
      · intro b hb
        rw [padded] at hb
        split at hb
        · cases hb
        · rwa [List.mem_singleton.1 hb]
      · have hliteral : ∀ b ∈ [a] ++ [o, i], ∀ r,
            f.const? (f.extent b) = some (.int r) → e b = r := by
          intro b hb r hr
          have hval := hsized' b hb
          rw [Fusion.ownExtent, kernelScalar_const hr, Scalar.evaluate_ofConstant] at hval
          exact (Constant.int.inj (Option.some.inj hval)).symm
        have hprod : e o * e i = e a := by
          have ha := hliteral a (by simp) m hm.1
          obtain ⟨-, -, -, -, hfactor⟩ := hrecorded
          cases innerSplit with
          | true =>
              have hi := hliteral i (by simp) n (hfactor.1 ▸ hn.1)
              rw [hexact.2, hi, ha]
              exact steps_mul_of_emod hpos hdvd
          | false =>
              have ho := hliteral o (by simp) n (hfactor.1 ▸ hn.1)
              rw [hexact.2, ho, ha, Int.mul_comm]
              exact steps_mul_of_emod hpos hdvd
        simp [padded, hprod]

/-- The loops over the leaves of a tiling visit every element exactly once. -/
theorem Tiling.exactlyOnce (ht : Tiling f v notes) :
    ∃ groups, LoopGroups.build f = .ok groups ∧
      ∀ e, f.Sizes v e → f.KnownExtents v e → LoopPlan.ExactlyOnce ⟨f, groups⟩ v e := by
  refine LoopPlan.exists_exactlyOnce ht.sound ht.cuts ht.plain fun e hsizes env hsized t hmem => ?_
  exact (ht.caught t hmem).kept_of_padded ht.sound ht.cuts hmem hsizes hsized

/-- What is known of a root axis. -/
def rootNote (f : Fusion) (a : AxisId) : LeafNote :=
  if (f.axis a).isBroadcast then .unknown else .kept

/-- An unscheduled tensor has its root as its leaves. -/
theorem Unstarted.tiling (h : Unstarted f) (v : ValueId) :
    Tiling f v ((f.view v).domain.root.map f.rootNote) := by
  have hb : ∀ v, f.Balanced (f.view v).domain.root [] (f.leaf v) := by
    intro v
    unfold Fusion.leaf TensorView.leaf
    rw [(h.unscheduled v).leaf]
    exact .ofRoot (h.unscheduled v).nodup
  have hhistory : f.history v = [] := (hb v).transformsBetween_eq h.sound
  refine ⟨h.sound, fun v => ⟨[], hb v⟩, h.plain, by simp [hhistory], ?_⟩
  have hleaf : f.leaf v = (f.view v).domain.root := (h.unscheduled v).leaf
  rw [hleaf, List.forall₂_map_left_iff, List.forall₂_same]
  intro a ha
  unfold rootNote
  split
  case isTrue => exact trivial
  case isFalse hb => exact .root ha (by simpa using hb)

/-- Nothing overruns a root without broadcasts. -/
theorem ConcreteRoot.kept (h : f.ConcreteRoot v) :
    ∀ note ∈ (f.view v).domain.root.map f.rootNote, note = .kept := by
  intro note hnote
  obtain ⟨a, ha, rfl⟩ := List.mem_map.1 hnote
  rw [rootNote, if_neg (by simp [h a ha])]

end Fusion

namespace Schedule

variable {f f' : Fusion} {v : ValueId} {u : Unit}

/-- Choosing the execution of a leaf changes nothing that is known of leaves. -/
theorem parallelize_tiling {notes : List LeafNote} {axis : Int} {parallel : ParallelType}
    (ht : Tiling f v notes) (h : (parallelize v axis parallel).Returns f u f') :
    Tiling f' v notes := by
  have hk : Keeps True f f' := parallelize_keeps ht.sound h
  obtain ⟨a, rfl⟩ := returns_parallelize h
  have hsame := SameExtents.modifyAxis f a (g := fun x => { x with parallel }) fun _ => rfl
  have hbroadcast : ∀ b, ((f.modifyAxis a fun x => { x with parallel }).axis b).isBroadcast =
      (f.axis b).isBroadcast := by
    intro b
    rw [axis_modifyAxis]
    split
    case isTrue hb => rw [hb.1]; rfl
    case isFalse => rfl
  have hhistory : (f.modifyAxis a fun x => { x with parallel }).history v = f.history v :=
    ht.cuts.history_eq ht.sound hk.sound hk.ext rfl (.refl _)
  have hproceeds : Proceeds f (f.modifyAxis a fun x => { x with parallel }) v :=
    ⟨hk.ext, rfl, fun b _ => hbroadcast b, fun t hmem => hhistory ▸ hmem⟩
  refine ⟨hk.sound, hk.cuts trivial ht.cuts,
    ⟨ht.plain.rfactor, ht.plain.computeAt, fun w b hb => ?_⟩,
    fun t hmem => ht.caught_of_proceeds hproceeds (hhistory ▸ hmem), ht.noted hproceeds⟩
  have hb : b ∈ (f.view w).domain.root := hb
  have hhas : f.HasAxis b := ht.sound.domains w b (List.mem_append_left _ (by simp [hb]))
  exact (ht.plain.root w b hb).copied ht.sound hhas hk.ext (hsame.extent b) (hbroadcast b ▸ id)

end Schedule

/-! ## The tilings of the automatic schedules -/

namespace Heuristic

open Schedule LeafNote LoopPlan

variable {f f' : Fusion} {v : ValueId} {u : Unit}

/-- The tiling that a schedule makes of its reference, of a reduction before it is factored and of a
transpose with the elements of the tile bound to threads.  Gives the reference. -/
def tiles : Params → Schedule ValueId
  | .pointwise params => do
    let (v, _) ← Pointwise.arrange params
    return v
  | .reduction params => do
    let (v, _) ← Reduction.arrange params
    return v
  | .transpose params => do
    let (v, staged) ← Transpose.arrange params
    Transpose.bindThreads params staged v
    return v

/-- A point-wise tiling of a reference whose first leaf is kept. -/
theorem Pointwise.tile_tiling {params : PointwiseParams} {ndims : Nat} {vs : List ValueId}
    (hf : Unstarted f) (hv : f.HasValue v)
    (hroot : ∀ a ∈ (f.view v).domain.root.head?, (f.axis a).isBroadcast = false)
    (hconcrete : 1 < params.vectorWidth → f.ConcreteRoot v)
    (h : (Pointwise.tile params v ndims).Returns f vs f') : ∃ notes, Tiling f' v notes := by
  unfold Pointwise.tile at h
  by_cases hwide : 1 < params.vectorWidth
  · simp only [hwide, if_true, EditE.returns_bind, EditE.returns_pure] at h
    obtain ⟨_, f₁, hcaches, _, f₂, hmerge, _, f₃, hvectors, _, f₄, hblocks, -, rfl⟩ := h
    have hs := insertCaches_stays hf hcaches
    have ht := hs.unstarted.tiling v
    have hhead := KeptHead.of_forall (hs.concrete v hv (hconcrete hwide)).kept
    obtain ⟨rest, -, hhead, ht⟩ := mergeRange_tiling_head [] ht hhead hmerge
    obtain ⟨rest, -, ht⟩ := split_tiling_head [] ht hhead hvectors
    obtain ⟨rest, -, ht⟩ := split_tiling_head [] ht (.cons _) hblocks
    exact ⟨_, ht⟩
  · simp only [hwide, if_false, EditE.returns_bind, EditE.returns_pure, pure_bind] at h
    obtain ⟨_, f₁, hmerge, _, f₂, hblocks, -, rfl⟩ := h
    have hhead : KeptHead ((f.view v).domain.root.map f.rootNote) := by
      intro note hnote
      rw [List.head?_map] at hnote
      obtain ⟨a, ha, rfl⟩ := Option.map_eq_some_iff.1 hnote
      rw [rootNote, if_neg (by simp [hroot a ha])]
    obtain ⟨rest, -, hhead, ht⟩ := mergeRange_tiling_head [] (hf.tiling v) hhead hmerge
    obtain ⟨rest, -, ht⟩ := split_tiling_head [] ht hhead hblocks
    exact ⟨_, ht⟩

/-- The tiling of a reduction: what is reduced comes last, and has no broadcasts. -/
theorem Reduction.tile_tiling {params : ReductionParams} {iterated reduced : List Nat}
    (hf : Unstarted f) (hiterated : ∀ p a, p ∉ iterated → (f.view v).domain.root[p]? = some a →
      (f.axis a).isBroadcast = false)
    (h : (Reduction.tile v params iterated reduced).Returns f u f') :
    ∃ notes, Tiling f' v notes := by
  unfold Reduction.tile at h
  simp only [EditE.returns_bind] at h
  obtain ⟨_, f₁, hmove, _, f₂, hreduced, _, f₃, hrows, _, f₄, hblocks, h⟩ := h
  obtain ⟨front, back, hlength, ht, -, hback⟩ := moveToFront_tiling (hf.tiling v) hmove
  have hhead : KeptHead back := .of_forall fun note hnote => by
    obtain ⟨p, hp, hget⟩ := hback note hnote
    rw [List.getElem?_map] at hget
    obtain ⟨a, ha, rfl⟩ := Option.map_eq_some_iff.1 hget
    rw [rootNote, if_neg (by simp [hiterated p a hp ha])]
  rw [← hlength] at hreduced hrows
  obtain ⟨back, -, hhead, ht⟩ := mergeRange_tiling_head front ht hhead hreduced
  have hmerged : ∃ front' : List LeafNote, front'.length = (if iterated.isEmpty then 0 else 1) ∧
      Tiling f₃ v (front' ++ back) := by
    cases front with
    | nil =>
        obtain ⟨-, rfl⟩ := EditE.returns_pure.1 hrows
        exact ⟨[], by simp [List.length_eq_zero_iff.1 hlength.symm], ht⟩
    | cons note rest =>
        have hdone := mergeRange_tiling [] ht hrows
        refine ⟨[_], ?_, hdone⟩
        have hne : iterated ≠ [] := by
          rintro rfl
          cases hlength
        simp [hne]
  obtain ⟨front, hfront, ht⟩ := hmerged
  rw [← hfront] at hblocks h
  obtain ⟨rest, -, ht⟩ := split_tiling_head front ht hhead hblocks
  split at h
  · obtain ⟨rest, -, ht⟩ := split_tiling_head front ht (.cons _) h
    exact ⟨_, ht⟩
  · obtain ⟨-, rfl⟩ := EditE.returns_pure.1 h
    exact ⟨_, ht⟩

/-- A tile over two neighbours that are kept: the loops over tiles, and the loops over a tile. -/
theorem Transpose.tile_tiling {params : TransposeParams} {rank : Nat} {notes : List LeafNote}
    (ht : Tiling f v notes) (hkept : ∀ note ∈ notes, note = .kept)
    (h : (Transpose.tile v params rank).Returns f u f') :
    ∃ rest, Tiling f' v (.kept :: .literal params.tile :: .literal params.tile :: rest) := by
  unfold Transpose.tile at h
  simp only [EditE.returns_bind] at h
  obtain ⟨_, f₁, hmove, _, f₂, hothers, _, f₃, hinner, _, f₄, houter, _, f₅, hreorder, h⟩ := h
  -- however many other dimensions there are, `base` leaves take their place
  generalize (List.range rank).filter (fun i => i != params.innerDim && i != rank - 1) = others at *
  generalize (if others.isEmpty then 0 else 1 : Nat) = base at *
  obtain ⟨front, back, -, ht, hperm, -⟩ := moveToFront_tiling ht hmove
  have hkept : ∀ note ∈ front ++ back, note = .kept := fun note hnote =>
    hkept note (hperm.mem_iff.1 hnote)
  obtain ⟨left, hsub, -, ht⟩ := mergeRange_tiling_head [] ht (.of_forall hkept) hothers
  rw [List.nil_append] at ht
  obtain ⟨before, rest, rfl, rfl⟩ := exists_kept_neighbours
    (fun note hnote => hkept note (hsub hnote)) (lt_of_split ht hinner)
  have hnext : ((before.length + 1 : Nat) : Int) = ((before ++ [kept]).length : Int) := by simp
  rw [hnext] at hinner
  have ht : Tiling f₂ v (before ++ [kept] ++ kept :: rest) := by simpa using ht
  have ht := split_tiling _ ht .kept hinner
  rw [List.append_assoc] at ht
  have ht := split_tiling before ht .kept houter
  -- the two loops over tiles come before the two loops over a tile
  rw [show before.length + 2 = (before ++ [kept]).length + 1 by simp, hnext] at hreorder
  have ht : Tiling f₄ v (before ++ [kept] ++
      .literal params.tile :: .kept :: .literal params.tile :: rest) := by
    simpa [LeafNote.inner] using ht
  have ht := swap_tiling _ ht hreorder
  have hall : (before ++ [kept] ++ [kept]).length = before.length + 2 := by simp
  rw [← hall] at h
  refine ⟨rest, mergeRange_tiling_front (by simpa using ht) (by simp) (.of_forall ?_) h⟩
  simp only [List.mem_append, List.mem_singleton]
  rintro note ((hnote | rfl) | rfl)
  · exact hkept note (hsub (List.mem_append_left _ hnote))
  · rfl
  · rfl

/-- Threads over a tile that is a multiple of them. -/
theorem Transpose.bindTile_tiling {blockSize : Int} {head outer inner note : LeafNote}
    {rest : List LeafNote} (ht : Tiling f v (head :: outer :: inner :: rest))
    (hsplits : (outer.merged inner).Splits blockSize note)
    (h : (Transpose.bindTile blockSize v).Returns f u f') : ∃ notes, Tiling f' v notes := by
  unfold Transpose.bindTile at h
  simp only [EditE.returns_bind] at h
  obtain ⟨_, f₁, hmerge, _, f₂, hsplit, _, f₃, hblock, hthread⟩ := h
  have ht := merge_tiling [head] ht hmerge
  have ht := split_tiling [head] ht hsplits hsplit
  exact ⟨_, parallelize_tiling (parallelize_tiling ht hblock) hthread⟩

/-- A transpose is proposed without broadcasts and with default sizes. -/
theorem Transpose.propose_eq {args : Arguments} {params : TransposeParams}
    (h : Transpose.propose? f args = some params) :
    f.hasBroadcastRoot = false ∧ params.tile = defaultTile ∧
      params.blockSize = defaultBlockSize := by
  unfold Transpose.propose? at h
  split at h
  · cases h
  · dsimp only at h
    split at h
    · cases h
    case isFalse hrank =>
        rw [Bool.or_eq_true, not_or, Bool.not_eq_true f.hasBroadcastRoot] at hrank
        split at h
        · cases h
          exact ⟨hrank.2, rfl, rfl⟩
        · cases h

/-- What is not among the reduced positions of an unscheduled tensor is iterated, and a reduction is
no broadcast. -/
theorem not_isBroadcast_of_reduced (hf : Unstarted f) {p : Nat} {a : AxisId}
    (hp : p ∉ (List.range (f.view v).ndims).filter fun i => !(f.reducedPositions v).contains i)
    (ha : (f.view v).domain.root[p]? = some a) : (f.axis a).isBroadcast = false := by
  have hlt : p < (f.view v).ndims := by
    rw [TensorView.ndims, (hf.unscheduled v).leaf]
    exact (List.getElem?_eq_some_iff.1 ha).1
  have hmem : p ∈ f.reducedPositions v := by simpa [hlt] using hp
  unfold reducedPositions TensorDomain.logical at hmem
  rw [(hf.unscheduled v).rfactor] at hmem
  obtain ⟨⟨b, q⟩, hb, rfl⟩ := List.mem_map.1 hmem
  obtain ⟨hb, hreduction⟩ := List.mem_filter.1 hb
  rw [List.mem_zipIdx_iff_getElem?] at hb
  obtain rfl : a = b := Option.some.inj (ha.symm.trans hb)
  rw [Axis.isBroadcast, eq_of_beq hreduction]
  rfl

/-- The tiling of a point-wise schedule that was proposed. -/
theorem Pointwise.arrange_tiling {args : Arguments} {params : PointwiseParams}
    {vectorized : List ValueId} (hf : Unstarted f)
    (hparams : Pointwise.propose f args = .ok params) (hv : f.HasValue v)
    (hconcrete : f.hasBroadcastRoot = false → f.ConcreteRoot v)
    (hroot : ∀ a ∈ (f.view v).domain.root.head?, (f.axis a).isBroadcast = false)
    (h : (Pointwise.arrange params).Returns f (v, vectorized) f') : ∃ notes, Tiling f' v notes := by
  unfold Pointwise.arrange at h
  simp only [EditE.returns_bind, EditE.returns_get, EditE.returns_ofExcept] at h
  obtain ⟨f₀, f₁, ⟨rfl, rfl⟩, w, f₁, ⟨-, rfl⟩, f₀, f₂, ⟨rfl, rfl⟩, h⟩ := h
  split at h
  · obtain ⟨-, rfl⟩ := EditE.returns_pure.1 h
    exact ⟨_, hf.tiling v⟩
  · simp only [EditE.returns_bind, EditE.returns_pure, Prod.mk.injEq] at h
    obtain ⟨_, f₁, htile, ⟨rfl, -⟩, rfl⟩ := h
    refine Pointwise.tile_tiling hf hv hroot (fun hwide => ?_) htile
    obtain ⟨reference, -, hrank⟩ := Pointwise.propose_vectorWidth_eq hparams
    exact hconcrete (vectorWidth_cases (hrank ▸ hwide)).1

/-- The tiling of a reduction schedule. -/
theorem Reduction.arrange_tiling {params : ReductionParams} {rows : Nat} (hf : Unstarted f)
    (h : (Reduction.arrange params).Returns f (v, rows) f') : ∃ notes, Tiling f' v notes := by
  unfold Reduction.arrange at h
  simp only [EditE.returns_bind, EditE.returns_get, EditE.returns_ofExcept, EditE.returns_pure,
    Prod.mk.injEq] at h
  obtain ⟨f₀, f₁, ⟨rfl, rfl⟩, w, f₁, ⟨-, rfl⟩, f₀, f₂, ⟨rfl, rfl⟩, _, f₁, htile, ⟨rfl, -⟩, rfl⟩ := h
  exact Reduction.tile_tiling hf (fun p a => not_isBroadcast_of_reduced hf) htile

/-- The tiling of a transpose before its elements are bound to threads. -/
theorem Transpose.arrange_tiling {params : TransposeParams} {staged : List ValueId}
    (hf : Unstarted f) (hv : f.HasValue v) (hroot : f.ConcreteRoot v)
    (h : (Transpose.arrange params).Returns f (v, staged) f') :
    ∃ rest, Tiling f' v (.kept :: .literal params.tile :: .literal params.tile :: rest) := by
  unfold Transpose.arrange at h
  simp only [EditE.returns_bind, EditE.returns_get, EditE.returns_ofExcept, EditE.returns_pure,
    Prod.mk.injEq] at h
  obtain ⟨f₀, f₁, ⟨rfl, rfl⟩, w, f₁, ⟨-, rfl⟩, f₀, f₂, ⟨rfl, rfl⟩, copies, f₁, hstage, _, f₂, htile,
    ⟨rfl, -⟩, rfl⟩ := h
  have hs := mapM_stays (fun _ _ _ _ => Transpose.stage_stays) hf hstage
  exact Transpose.tile_tiling (hs.unstarted.tiling _) (hs.concrete _ hv hroot).kept htile

/-- Binding the elements of a tile, in whichever order they are, keeps its tiling. -/
theorem Transpose.bindThreads_tiling {params : TransposeParams} {staged : List ValueId}
    {rest : List LeafNote} {note : LeafNote}
    (ht : Tiling f v (.kept :: .literal params.tile :: .literal params.tile :: rest))
    (hsplits : ((literal params.tile).merged (.literal params.tile)).Splits params.blockSize note)
    (h : (Transpose.bindThreads params staged v).Returns f u f') : ∃ notes, Tiling f' v notes := by
  unfold Transpose.bindThreads at h
  obtain ⟨f₀, f₁, hget, h⟩ := EditE.returns_bind.1 h
  obtain ⟨rfl, rfl⟩ := EditE.returns_get.1 hget
  split at h
  case isFalse =>
      obtain ⟨-, rfl⟩ := EditE.returns_pure.1 h
      exact ⟨_, ht⟩
  case isTrue =>
      split at h
      case isFalse => exact Transpose.bindTile_tiling ht hsplits h
      case isTrue =>
          obtain ⟨_, f₁, hreorder, hbind⟩ := EditE.returns_bind.1 h
          exact Transpose.bindTile_tiling (swap_tiling [kept] ht hreorder) hsplits hbind

/-- The tiling that a proposed schedule makes of its reference. -/
theorem tiles_tiling {args : Arguments} {params : Params} (hf : Unstarted f)
    (hparams : propose f args = .ok params) (hlive : v ∈ f.allTensors)
    (hfirst : ∀ p, params = .pointwise p →
      ∀ a ∈ (f.view v).domain.root.head?, (f.axis a).isBroadcast = false)
    (h : (tiles params).Returns f v f') : ∃ notes, Tiling f' v notes := by
  have hv : f.HasValue v := hasValue_of_isTensor (mem_allTensors.1 hlive).2
  have hconcrete : f.hasBroadcastRoot = false → f.ConcreteRoot v := by
    intro hnone
    simp only [hasBroadcastRoot, List.any_eq_false, Bool.not_eq_true] at hnone
    exact hnone v hlive
  rcases propose_cases hparams with ⟨p, rfl, hp⟩ | ⟨p, rfl, -⟩ | ⟨p, rfl, hp⟩
  · obtain ⟨⟨w, vectorized⟩, f₁, harrange, h⟩ := EditE.returns_bind.1 h
    obtain ⟨rfl, rfl⟩ := EditE.returns_pure.1 h
    exact Pointwise.arrange_tiling hf hp hv hconcrete (hfirst p rfl) harrange
  · obtain ⟨⟨w, rows⟩, f₁, harrange, h⟩ := EditE.returns_bind.1 h
    obtain ⟨rfl, rfl⟩ := EditE.returns_pure.1 h
    exact Reduction.arrange_tiling hf harrange
  · obtain ⟨hnone, htile, hblock⟩ := Transpose.propose_eq hp
    obtain ⟨⟨w, staged⟩, f₁, harrange, h⟩ := EditE.returns_bind.1 h
    obtain ⟨_, f₂, hbind, h⟩ := EditE.returns_bind.1 h
    obtain ⟨rfl, rfl⟩ := EditE.returns_pure.1 h
    obtain ⟨rest, ht⟩ := Transpose.arrange_tiling hf hv (hconcrete hnone) harrange
    have hsplits : ((literal p.tile).merged (.literal p.tile)).Splits p.blockSize .unknown := by
      rw [htile, hblock]
      exact .literal (by decide)
    exact Transpose.bindThreads_tiling ht hsplits hbind

/-- A point-wise or a reduction schedule that succeeds starts with its tiling.  A transpose binds the
tile of its reference later, along with those of all tensors. -/
theorem tiles_of_schedule {params : Params} (hparams : ∀ p, params ≠ .transpose p)
    (h : (schedule params).Returns f u f') : ∃ v f₁, (tiles params).Returns f v f₁ := by
  cases params with
  | pointwise p =>
      obtain ⟨v, f₁, hbind, -⟩ := EditE.returns_bind.1 h
      obtain ⟨⟨v, vectorized⟩, f₁, harrange, -⟩ := EditE.returns_bind.1 hbind
      exact ⟨v, f₁, EditE.returns_bind.2 ⟨_, f₁, harrange, EditE.returns_pure.2 ⟨rfl, rfl⟩⟩⟩
  | reduction p =>
      obtain ⟨⟨v, rows⟩, f₁, harrange, -⟩ := EditE.returns_bind.1 h
      exact ⟨v, f₁, EditE.returns_bind.2 ⟨_, f₁, harrange, EditE.returns_pure.2 ⟨rfl, rfl⟩⟩⟩
  | transpose p => exact absurd rfl (hparams p)

/-- The loops over the tiling that a proposed schedule makes of its reference visit every element
exactly once, unless the schedule is point-wise and the first axis is a broadcast. -/
theorem tiles_exactlyOnce {calls : List Call} {args : Arguments} {params : Params}
    (hcalls : ∀ c ∈ calls, c.scope = .building) (hf : applyAll Schedule.replay calls {} = some f)
    (hparams : propose f args = .ok params) (hlive : v ∈ f.allTensors)
    (hfirst : ∀ p, params = .pointwise p →
      ∀ a ∈ (f.view v).domain.root.head?, (f.axis a).isBroadcast = false)
    (h : (tiles params).Returns f v f') :
    ∃ groups, LoopGroups.build f' = .ok groups ∧
      ∀ e, f'.Sizes v e → f'.KnownExtents v e → LoopPlan.ExactlyOnce ⟨f', groups⟩ v e := by
  obtain ⟨notes, ht⟩ := tiles_tiling (applyAll_unstarted hcalls hf) hparams hlive hfirst h
  exact ht.exactlyOnce

/-- The negation of a table. -/
def negatedTable : List Call :=
  [.tensor [6, 10] [true, true] .float, .input ⟨0⟩, .unary .neg (.value ⟨0⟩), .output ⟨7⟩]

/-- Thirty vectors of two in a block of 128 threads. -/
theorem negatedTable_exactlyOnce :
    ∃ f args params f', applyAll Schedule.replay negatedTable {} = some f ∧
      propose f args = .ok (.pointwise params) ∧ params.vectorWidth = 2 ∧
      (tiles (.pointwise params)).Returns f ⟨7⟩ f' ∧
      ∃ groups, LoopGroups.build f' = .ok groups ∧
        LoopPlan.ExactlyOnce ⟨f', groups⟩ ⟨7⟩ (f'.extentsAt {}) := by
  have hrun : (applyAll Schedule.replay negatedTable {}).any (fun f =>
      decide (⟨7⟩ ∈ f.allTensors ∧
        ∀ a ∈ (f.view ⟨7⟩).domain.root.head?, (f.axis a).isBroadcast = false) &&
      (Arguments.ofShapes f [.contiguous .float [6, 10]]).toOption.any fun args =>
        match propose f args with
        | .ok (.pointwise params) => decide (params.vectorWidth = 2) &&
          match (tiles (.pointwise params)).run.run f with
          | (.ok v, f') => decide (v = ⟨7⟩) && decide (f'.Sizes ⟨7⟩ (f'.extentsAt {})) &&
            decide (f'.KnownExtents ⟨7⟩ (f'.extentsAt {}))
          | _ => false
        | _ => false) = true := by
    cbv
  obtain ⟨f, hf, hrun⟩ := (Option.any_eq_true _ _).1 hrun
  obtain ⟨hstart, hrun⟩ := Bool.and_eq_true_iff.1 hrun
  obtain ⟨hlive, hfirst⟩ := of_decide_eq_true hstart
  obtain ⟨args, -, hrun⟩ := (Option.any_eq_true _ _).1 hrun
  split at hrun
  case h_2 => cases hrun
  case h_1 params hparams =>
      obtain ⟨hwidth, hrun⟩ := Bool.and_eq_true_iff.1 hrun
      split at hrun
      case h_2 => cases hrun
      case h_1 v f' hreturns =>
          simp only [Bool.and_eq_true, decide_eq_true_eq] at hrun
          obtain ⟨⟨rfl, hsizes⟩, hknown⟩ := hrun
          obtain ⟨groups, hgroups, honce⟩ :=
            tiles_exactlyOnce (by decide) hf hparams hlive (fun _ _ => hfirst) hreturns
          exact ⟨f, args, params, f', hf, hparams, of_decide_eq_true hwidth, hreturns, groups,
            hgroups, honce _ hsizes hknown⟩

/-! ## A first axis of size one -/

/-- The negation of a matrix of one row. -/
def negatedRow : List Call :=
  [.tensor [1, 100] [true, true] .float, .input ⟨0⟩, .unary .neg (.value ⟨0⟩), .output ⟨7⟩]

/-- The first element as the first iteration of the block, or as the one after the hundredth. -/
def firstElementAt (n : Int) : AxisIndices :=
  ⟨[(⟨5⟩, .int 0), (⟨6⟩, .int n)]⟩

/-- Whether leaf indices make an iteration that passes the guard and touches the first element. -/
def touchesFirst (p : LoopPlan) (v : ValueId) (leaves : AxisIndices) : Bool :=
  let m := p.carried v leaves
  ((p.fusion.axesOf v).all fun a =>
      decide ((m.get? a).bind (·.evaluate {}) = some (.int (pointOf {} m a)))) &&
    ((p.fusion.leaf v).all fun a => decide (Inside (p.fusion.extentsAt {}) (pointOf {} m) a)) &&
    decide ((p.bounds v (p.backward v leaves) true).evaluate {} = some (.bool true)) &&
    (p.fusion.view v).domain.root.all fun a => decide (pointOf {} (p.backward v leaves) a = 0)

/-- A hundred elements in a row: the guard lets some iterations beyond the row pass, and they visit
its first elements again. -/
theorem negatedRow_not_exactlyOnce :
    ∃ f p, applyAll Schedule.replay negatedRow {} = some f ∧
      scheduledPlan? f [.contiguous .float [1, 100]] = some p ∧
      p.fusion.Sizes ⟨7⟩ (p.fusion.extentsAt {}) ∧ ¬ p.ExactlyOnce ⟨7⟩ (p.fusion.extentsAt {}) := by
  have hrun : (((applyAll Schedule.replay negatedRow {}).bind fun f =>
      scheduledPlan? f [.contiguous .float [1, 100]]).any fun p =>
        decide (p.fusion.Sizes ⟨7⟩ (p.fusion.extentsAt {})) &&
          decide (p.fusion.Sized {} (p.fusion.axesOf ⟨7⟩) (p.fusion.extentsAt {})) &&
          touchesFirst p ⟨7⟩ (firstElementAt 0) && touchesFirst p ⟨7⟩ (firstElementAt 100) &&
          (p.fusion.leaf ⟨7⟩).any fun a => decide (pointOf {} (p.carried ⟨7⟩ (firstElementAt 100)) a ≠
            pointOf {} (p.carried ⟨7⟩ (firstElementAt 0)) a)) = true := by
    cbv
  obtain ⟨p, hplan, hchecks⟩ := (Option.any_eq_true _ _).1 hrun
  obtain ⟨f, hf, hplan⟩ := Option.bind_eq_some_iff.1 hplan
  simp only [Bool.and_eq_true, decide_eq_true_eq, List.any_eq_true] at hchecks
  obtain ⟨⟨⟨⟨hsizes, hsized⟩, hfirst⟩, hlast⟩, a, ha, hne⟩ := hchecks
  have hiteration : ∀ leaves, touchesFirst p ⟨7⟩ leaves = true →
      ∃ it : Iteration p ⟨7⟩ (p.fusion.extentsAt {}), it.Passes ∧
        (∀ a ∈ (p.fusion.view ⟨7⟩).domain.root, it.rootIndex a = 0) ∧
        it.index = pointOf {} (p.carried ⟨7⟩ leaves) := by
    intro leaves h
    simp only [touchesFirst, Bool.and_eq_true, List.all_eq_true, decide_eq_true_eq] at h
    obtain ⟨⟨⟨hval, hin⟩, hpasses⟩, hroot⟩ := h
    exact ⟨⟨{}, leaves, hsized, fun a ha => Option.bind_eq_some_iff.1 (hval a ha), hin⟩, hpasses,
      hroot, rfl⟩
  obtain ⟨it, hpasses, hroot, hindex⟩ := hiteration _ hfirst
  obtain ⟨it', hpasses', hroot', hindex'⟩ := hiteration _ hlast
  refine ⟨f, p, hf, hplan, hsizes, fun honce => hne ?_⟩
  rw [← hindex, ← hindex']
  refine honce.index_eq it it' hpasses hpasses' (fun b hb => ?_) (fun b hb => ?_) a ha
  · rw [Inside, hroot b hb]
    exact ⟨Int.le_refl 0, (hsizes.root b hb).1⟩
  · exact (hroot' b hb).trans (hroot b hb).symm

end Heuristic
end FusionCompiler
