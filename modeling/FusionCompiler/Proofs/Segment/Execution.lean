import FusionCompiler.Segment.Handover
import FusionCompiler.Proofs.Segment.Extraction

/-!
# Running a plan

A meaning says what literals, sizes and expressions stand for.  Under any
meaning a fusion is evaluated by running its live expressions in order, and a
plan by running its groups one after the other, each as a fusion of its own that
takes its inputs from the groups before it.

A segment keeps all scalar expressions and all scalar inputs, but of the sizes
only those of its own inputs.  Where no segment reads another size, running the
plan gives the outputs of the fusion.

Main results:

- Theorem `Meaning.explains_of_evaluate`: in the end every live expression has
  been applied to the values of its operands.
- Theorem `Meaning.outputs_extracted`: a segment computes its outputs from its
  inputs as the complete fusion does.
- Theorem `Meaning.runPlan_eq`: a plan whose segments read no sizes of other
  tensors than their inputs computes what the fusion computes.
-/

namespace FusionCompiler

open Fusion Segment

/-- The tensor of which a scalar is a size. -/
def Fusion.sizedTensor? (f : Fusion) (v : ValueId) : Option ValueId :=
  match (f.value v).kind with
  | .scalar (.tensorSize tensor _) => some tensor
  | _ => none

/-- Every size that a live expression reads is that of an input, or an input itself. -/
def Fusion.ReadsOwnSizes (f : Fusion) : Prop :=
  ∀ e ∈ f.liveExprs, ∀ v ∈ (f.expr e).inputs, ∀ tensor ∈ f.sizedTensor? v,
    v ∈ f.inputs ∨ tensor ∈ f.inputs

instance (f : Fusion) : Decidable f.ReadsOwnSizes :=
  inferInstanceAs (Decidable (∀ e ∈ f.liveExprs, ∀ v ∈ (f.expr e).inputs,
    ∀ tensor ∈ f.sizedTensor? v, v ∈ f.inputs ∨ tensor ∈ f.inputs))

/-- What literals, sizes of tensors and results of expressions stand for. -/
structure Meaning (α : Type) where
  literal : Constant → α
  size : α → Nat → α
  result : ExprId → List α → ValueId → α

/-- Why a plan gives no outputs. -/
inductive PlanFailure where
  | unset (v : ValueId)
  | segment (e : ScheduleError)
  | unevaluable (index : Nat)
  | unproduced (v : ValueId)

namespace Meaning

variable {α : Type}

/-- The value of an operand, as far as it is known.  Only inputs have sizes at run time. -/
def read (M : Meaning α) (f : Fusion) (known : Values α) (v : ValueId) : Option α :=
  match known.lookup v with
  | some x => some x
  | none =>
    match (f.value v).kind with
    | .scalar (.const c) => some (M.literal c)
    | .scalar (.tensorSize tensor dim) =>
      if f.isInput tensor then (known.lookup tensor).map (M.size · dim) else none
    | _ => none

/-- Applies an expression to the values of its operands. -/
def step (M : Meaning α) (f : Fusion) (known : Values α) (e : ExprId) : Option (Values α) := do
  let operands ← (f.expr e).inputs.mapM (M.read f known)
  return (f.expr e).outputs.map (fun v => (v, M.result e operands v)) ++ known

/-- Runs the live expressions of a fusion in order. -/
def evaluate (M : Meaning α) (f : Fusion) (args : List α) : Option (Values α) :=
  f.liveExprs.foldlM (M.step f) (f.inputs.zip args)

/-- The outputs of a fusion. -/
def outputs (M : Meaning α) (f : Fusion) (args : List α) : Option (List α) := do
  let known ← M.evaluate f args
  f.outputs.mapM (known.lookup ·)

/-- What one group of a plan computes. -/
def segment (M : Meaning α) (p : Plan) (index : Nat) (args : List α) :
    Except PlanFailure (List α) := do
  let s ← (p.segmentFusion index).mapError .segment
  match M.outputs s args with
  | some xs => .ok xs
  | none => .error (.unevaluable index)

/-- The outputs of a fusion that is run group by group. -/
def runPlan (M : Meaning α) (p : Plan) (args : List α) : Except PlanFailure (List α) := do
  let known ← p.run .unset (M.segment p) args
  Plan.gather .unproduced known p.complete.outputs

/-! ## Lists of values -/

section Lookup

variable {names : List ValueId} {xs : List α} {g g' : ValueId → Option α} {v : ValueId}

/-- A search among names with their values. -/
theorem lookup_map (names : List ValueId) (h : ValueId → α) (v : ValueId) :
    (names.map fun v => (v, h v)).lookup v = if v ∈ names then some (h v) else none := by
  induction names with
  | nil => rfl
  | cons u names ih =>
      rw [List.map_cons, List.lookup_cons, ih]
      by_cases hu : v = u
      · simp [hu]
      · rw [beq_eq_false_iff_ne.2 hu]
        simp [hu]

/-- The names paired with their values. -/
theorem lookup_zip (h : names.mapM g = some xs) (v : ValueId) :
    (names.zip xs).lookup v = if v ∈ names then g v else none := by
  induction names generalizing xs with
  | nil => rfl
  | cons u names ih =>
      rw [List.mapM_cons] at h
      obtain ⟨x, hx, h⟩ := Option.bind_eq_some_iff.1 h
      obtain ⟨ys, hys, h⟩ := Option.bind_eq_some_iff.1 h
      cases h
      rw [List.zip_cons_cons, List.lookup_cons, ih hys]
      by_cases hu : v = u
      · simp [hu, hx]
      · rw [beq_eq_false_iff_ne.2 hu]
        simp [hu]

/-- What is found has a name. -/
theorem mem_of_lookup_zip {x : α} (h : (names.zip xs).lookup v = some x) : v ∈ names := by
  induction names generalizing xs with
  | nil => cases h
  | cons u names ih =>
      cases xs with
      | nil => cases h
      | cons y xs =>
          rw [List.zip_cons_cons, List.lookup_cons] at h
          split at h
          case h_1 heq =>
              rw [eq_of_beq heq]
              exact List.mem_cons_self
          case h_2 => exact List.mem_cons_of_mem u (ih h)

/-- Reading depends on the names that are read only. -/
theorem mapM_congr (h : ∀ v ∈ names, g v = g' v) : names.mapM g = names.mapM g' := by
  induction names with
  | nil => rfl
  | cons u names ih =>
      rw [List.mapM_cons, List.mapM_cons, h u List.mem_cons_self,
        ih fun v hv => h v (List.mem_cons_of_mem u hv)]

/-- If each name has a value, all have. -/
theorem exists_mapM (h : ∀ v ∈ names, ∃ x, g v = some x) : ∃ xs, names.mapM g = some xs := by
  induction names with
  | nil => exact ⟨[], rfl⟩
  | cons u names ih =>
      obtain ⟨x, hx⟩ := h u List.mem_cons_self
      obtain ⟨xs, hxs⟩ := ih fun v hv => h v (List.mem_cons_of_mem u hv)
      refine ⟨x :: xs, ?_⟩
      rw [List.mapM_cons, hx, hxs]
      rfl

/-- If all names have values, each has. -/
theorem exists_of_mapM (h : names.mapM g = some xs) (hv : v ∈ names) : ∃ x, g v = some x :=
  (Results.exists_mem_mapM_some h hv).imp fun _ hx => hx.2

/-- Gathering known values succeeds. -/
theorem gather_eq {ε : Type} {unset : ValueId → ε} {known : Values α}
    (h : names.mapM (known.lookup ·) = some xs) : Plan.gather unset known names = .ok xs := by
  unfold Plan.gather
  induction names generalizing xs with
  | nil =>
      cases h
      rfl
  | cons u names ih =>
      rw [List.mapM_cons] at h
      obtain ⟨x, hx, h⟩ := Option.bind_eq_some_iff.1 h
      obtain ⟨ys, hys, h⟩ := Option.bind_eq_some_iff.1 h
      cases h
      rw [List.mapM_cons, ih hys, hx]
      rfl

end Lookup

/-! ## Evaluating a fusion -/

variable {M : Meaning α} {f : Fusion} {known known' : Values α} {e : ExprId} {v : ValueId}
  {l : List ExprId} {args : List α}

/-- A step reads its operands and writes its results. -/
theorem lookup_step (h : M.step f known e = some known') :
    ∃ operands, (f.expr e).inputs.mapM (M.read f known) = some operands ∧
      ∀ v, known'.lookup v = if v ∈ (f.expr e).outputs then some (M.result e operands v)
        else known.lookup v := by
  obtain ⟨operands, hoperands, h⟩ := Option.bind_eq_some_iff.1 h
  cases h
  refine ⟨operands, hoperands, fun v => ?_⟩
  rw [List.lookup_append, lookup_map]
  split <;> simp

/-- Running expressions changes no value that none of them computes. -/
theorem lookup_foldlM (h : l.foldlM (M.step f) known = some known')
    (hv : ∀ e ∈ l, v ∉ (f.expr e).outputs) : known'.lookup v = known.lookup v := by
  induction l generalizing known with
  | nil =>
      cases h
      rfl
  | cons e l ih =>
      rw [List.foldlM_cons] at h
      obtain ⟨known₁, hone, h⟩ := Option.bind_eq_some_iff.1 h
      obtain ⟨operands, -, hlookup⟩ := lookup_step hone
      rw [ih h fun d hd => hv d (List.mem_cons_of_mem e hd), hlookup,
        if_neg (hv e List.mem_cons_self)]

/-- The values of a fusion in the end: what nothing computes is as in the beginning, and every
live expression has been applied to the values of its operands. -/
structure Explains (M : Meaning α) (f : Fusion) (args : List α) (known : Values α) : Prop where
  start : ∀ v, f.definition v = none → known.lookup v = (f.inputs.zip args).lookup v
  results : ∀ e ∈ f.liveExprs, ∃ operands,
    (f.expr e).inputs.mapM (M.read f known) = some operands ∧
      ∀ v ∈ (f.expr e).outputs, known.lookup v = some (M.result e operands v)

/-- In the end every live expression has been applied to the values of its operands. -/
theorem explains_of_evaluate (hf : Sound f) (hw : Wired f) (h : M.evaluate f args = some known) :
    M.Explains f args known := by
  obtain ⟨horder, hnodup⟩ := (hw.founded hf).liveExprs_inOrder
  refine ⟨fun v hv => lookup_foldlM h fun e _ hmem => ?_, fun e he => ?_⟩
  · rw [hw.definition_eq hmem] at hv
    cases hv
  · obtain ⟨pre, post, heq⟩ := List.append_of_mem he
    unfold evaluate at h
    rw [heq, List.foldlM_append] at h
    obtain ⟨known₁, hpre, h⟩ := Option.bind_eq_some_iff.1 h
    have hlate := h
    rw [List.foldlM_cons] at h
    obtain ⟨known₂, hone, hpost⟩ := Option.bind_eq_some_iff.1 h
    obtain ⟨operands, hoperands, hlookup⟩ := lookup_step hone
    have hsplit := hnodup
    rw [heq] at hsplit
    -- what comes before does not change behind
    have hstable : ∀ u, (∀ d, f.definition u = some d → d ∈ pre) →
        known.lookup u = known₁.lookup u := by
      intro u hu
      refine lookup_foldlM hlate fun d hd hmem => ?_
      exact (List.nodup_append.1 hsplit).2.2 d (hu d (hw.definition_eq hmem)) d hd rfl
    refine ⟨operands, ?_, fun v hv => ?_⟩
    · rw [← hoperands]
      refine mapM_congr fun u hu => ?_
      have hlookup : known.lookup u = known₁.lookup u :=
        hstable u fun d hd => horder pre e post heq d ⟨u, hu, hd⟩
      unfold read
      rw [hlookup]
      split
      · rfl
      · split
        · rfl
        case h_2 tensor dim _ =>
            split
            case isTrue hin =>
                have hdef := (hw.inputs tensor (by simpa [Fusion.isInput] using hin)).2
                rw [hstable tensor fun d hd => by rw [hdef] at hd; cases hd]
            case isFalse => rfl
        · rfl
    · rw [lookup_foldlM hpost, hlookup, if_pos hv]
      intro d hd hmem
      have heq' := (hw.definition_eq hv).symm.trans (hw.definition_eq hmem)
      cases heq'
      exact (List.nodup_cons.1 (List.nodup_append.1 hsplit).2.1).1 hd

/-! ## Evaluating a segment -/

variable {s : Fusion} {c : Context} {groups : List Group} {g : Group} {final : Values α}

/-- What a segment runs is run by the complete fusion. -/
theorem live_of_extracted (hc : c.Proper) (hdiv : c.Divides groups) (hg : g ∈ groups)
    (hs : Extracted c.fusion g.exprs g.io s) (he : e ∈ s.liveExprs) :
    e ∈ c.fusion.liveExprs ∧ Stays c.fusion g.exprs e := by
  have hsub : ∀ d ∈ g.exprs, d ∈ c.fusion.tensorExprs := fun d hd =>
    hc.order ▸ hdiv.mem_order hg hd
  rw [hdiv.io g hg, Context.io, hc.order] at hs
  exact hs.live hc.sound hc.wired hsub he

/-- A segment gets from outside every value that its expressions read and do not compute. -/
theorem mem_inputs_of_read (hc : c.Proper) (hdiv : c.Divides groups) (hg : g ∈ groups)
    (hs : Extracted c.fusion g.exprs g.io s) (he : e ∈ s.liveExprs)
    (hv : v ∈ (c.fusion.expr e).inputs) (hdef : s.definition v = none)
    (hknown : c.fusion.definition v = none → v ∈ c.fusion.inputs) : v ∈ s.inputs := by
  obtain ⟨hlive, hstays⟩ := live_of_extracted hc hdiv hg hs he
  rw [hs.inputs, hdiv.io g hg]
  by_cases ht : c.fusion.isTensor v = true
  · -- what reads a tensor computes tensors
    obtain ⟨w, hw⟩ := exists_definition_of_mem_liveExprs hlive
    obtain ⟨x, hx, hmem⟩ := hc.sound.defined w e hw
    have hexpr : c.fusion.expr e = x := by
      rw [Fusion.expr, hx]
      rfl
    rw [hexpr] at hv
    have houtputs := (hc.sound.exprs e x hx).isTensor_outputs (.inl hv) ht
    have hmem : e ∈ c.fusion.tensorExprs :=
      mem_tensorExprs.2 ⟨hlive, w, hexpr ▸ hmem, houtputs w hmem⟩
    rw [← hexpr] at hv
    refine mem_boundary_inputs.2 (.inl ⟨ht, ⟨e, hstays hmem, hv⟩, fun d hd hdef' => ?_⟩)
    have hsome := (hs.definition v d).2 ⟨hdef', fun _ => hd⟩
    rw [hdef] at hsome
    cases hsome
  · have hnone : c.fusion.definition v = none := by
      refine Option.eq_none_iff_forall_ne_some.2 fun d hd => ?_
      have hnot : ¬ Stays c.fusion g.exprs d := fun hstays' => by
        rw [(hs.definition v d).2 ⟨hd, hstays'⟩] at hdef
        cases hdef
      have hmem : d ∈ c.order := by
        rw [hc.order]
        by_contra hnot'
        exact hnot fun h => absurd h hnot'
      exact ht (hc.isTensor_of_definition hmem hd)
    exact mem_boundary_inputs.2 (.inr ⟨hknown hnone, by simpa using ht⟩)

/-- Values that agree with those of the complete fusion, among them the inputs of a segment and
the results of some of its expressions. -/
structure Covers (s : Fusion) (final : Values α) (done : List ExprId) (known : Values α) :
    Prop where
  agrees : ∀ v x, known.lookup v = some x → final.lookup v = some x
  inputs : ∀ v ∈ s.inputs, ∃ x, known.lookup v = some x
  results : ∀ e ∈ done, ∀ v ∈ (s.expr e).outputs, ∃ x, known.lookup v = some x

section Covers

variable {done todo : List ExprId}

/-- An expression of a segment reads the values that it reads in the complete fusion. -/
theorem Covers.read_eq (hc : c.Proper) (hdiv : c.Divides groups) (hg : g ∈ groups)
    (hs : Extracted c.fusion g.exprs g.io s) (hsizes : s.ReadsOwnSizes)
    (hfinal : M.Explains c.fusion args final) (h : Covers s final done known)
    (hlive : s.liveExprs = done ++ e :: todo) (hv : v ∈ (c.fusion.expr e).inputs) :
    M.read s known v = M.read c.fusion final v := by
  have he : e ∈ s.liveExprs := by simp [hlive]
  obtain ⟨hlive', hstays⟩ := live_of_extracted hc hdiv hg hs he
  have hexpr := hs.expr e hstays
  cases hlookup : final.lookup v with
  | some x =>
      -- the value is computed by the segment before, or comes in
      have hsome : ∃ x, known.lookup v = some x := by
        cases hdef : s.definition v with
        | some d =>
            obtain ⟨y, hy, hmem⟩ := hs.founded.defined v d hdef
            have hd : d ∈ done := hs.founded.liveExprs_inOrder.1 done e todo hlive d
              ⟨v, hexpr ▸ hv, hdef⟩
            refine h.results d hd v ?_
            rwa [Fusion.expr, hy]
        | none =>
            refine h.inputs v (mem_inputs_of_read hc hdiv hg hs he hv hdef fun hnone => ?_)
            rw [hfinal.start v hnone] at hlookup
            exact mem_of_lookup_zip hlookup
      obtain ⟨y, hy⟩ := hsome
      unfold read
      rw [hlookup, hy]
      exact (h.agrees v y hy).symm.trans hlookup
  | none =>
      have hnone : known.lookup v = none := by
        refine Option.eq_none_iff_forall_ne_some.2 fun y hy => ?_
        rw [h.agrees v y hy] at hlookup
        cases hlookup
      obtain ⟨operands, hoperands, -⟩ := hfinal.results e hlive'
      obtain ⟨x, hx⟩ := exists_of_mapM hoperands hv
      have hhas := hc.sound.hasValue_of_mem_inputs hv
      rw [hx]
      unfold read at hx ⊢
      rw [hlookup] at hx
      rw [hnone]
      dsimp only at hx ⊢
      have hkind : ∀ k, (c.fusion.value v).kind = .scalar k →
          (s.value v).kind = .scalar k := by
        intro k hk
        refine (hs.kind v hhas ?_).trans hk
        simp [Fusion.isTensor, Value.isTensor, Value.view?, hk]
      split at hx
      case h_1 k hk =>
          rw [hkind _ hk]
          exact hx
      case h_2 tensor dim hk =>
          have hk' := hkind _ hk
          split at hx
          case isFalse => cases hx
          case isTrue hin =>
              have htensor : tensor ∈ s.inputs := by
                have hsized : s.sizedTensor? v = some tensor := by simp [sizedTensor?, hk']
                refine (hsizes e he v (hexpr ▸ hv) tensor hsized).resolve_left fun hmem => ?_
                obtain ⟨y, hy⟩ := h.inputs v hmem
                rw [hnone] at hy
                cases hy
              obtain ⟨y, hy⟩ := h.inputs tensor htensor
              rw [hk']
              dsimp only
              rw [if_pos (by simpa [Fusion.isInput] using htensor), hy, ← hx,
                h.agrees tensor y hy]
      case h_3 => cases hx

/-- One expression of a segment gives the values that it gives in the complete fusion. -/
theorem Covers.step (hc : c.Proper) (hdiv : c.Divides groups) (hg : g ∈ groups)
    (hs : Extracted c.fusion g.exprs g.io s) (hsizes : s.ReadsOwnSizes)
    (hfinal : M.Explains c.fusion args final) (h : Covers s final done known)
    (hlive : s.liveExprs = done ++ e :: todo) :
    ∃ known', M.step s known e = some known' ∧ Covers s final (done ++ [e]) known' := by
  have he : e ∈ s.liveExprs := by simp [hlive]
  obtain ⟨hlive', hstays⟩ := live_of_extracted hc hdiv hg hs he
  have hexpr := hs.expr e hstays
  obtain ⟨operands, hoperands, hresults⟩ := hfinal.results e hlive'
  have hread : (s.expr e).inputs.mapM (M.read s known) = some operands := by
    rw [hexpr, ← hoperands]
    exact mapM_congr fun v hv => h.read_eq hc hdiv hg hs hsizes hfinal hlive hv
  refine ⟨(s.expr e).outputs.map (fun v => (v, M.result e operands v)) ++ known, ?_, ?_⟩
  · unfold Meaning.step
    rw [hread]
    rfl
  · have hlookup : ∀ v, ((s.expr e).outputs.map (fun v => (v, M.result e operands v)) ++
        known).lookup v = if v ∈ (s.expr e).outputs then some (M.result e operands v)
          else known.lookup v := by
      intro v
      rw [List.lookup_append, lookup_map]
      split <;> simp
    refine ⟨fun v x hx => ?_, fun v hv => ?_, fun d hd v hv => ?_⟩
    · rw [hlookup] at hx
      split at hx
      case isTrue hmem => rw [hresults v (hexpr ▸ hmem), hx]
      case isFalse => exact h.agrees v x hx
    · rw [hlookup]
      split
      · exact ⟨_, rfl⟩
      · exact h.inputs v hv
    · rw [hlookup]
      split
      · exact ⟨_, rfl⟩
      case isFalse hnot =>
          rcases List.mem_append.1 hd with hd | hd
          · exact h.results d hd v hv
          · rw [List.mem_singleton.1 hd] at hv
            exact absurd hv hnot

/-- A segment that is run covers its expressions one after another. -/
theorem Covers.run (hc : c.Proper) (hdiv : c.Divides groups) (hg : g ∈ groups)
    (hs : Extracted c.fusion g.exprs g.io s) (hsizes : s.ReadsOwnSizes)
    (hfinal : M.Explains c.fusion args final) (h : Covers s final done known)
    (hlive : s.liveExprs = done ++ todo) :
    ∃ known', todo.foldlM (M.step s) known = some known' ∧ Covers s final s.liveExprs known' := by
  induction todo generalizing done known with
  | nil =>
      rw [List.append_nil] at hlive
      exact ⟨known, rfl, hlive ▸ h⟩
  | cons e todo ih =>
      obtain ⟨known₁, hone, hcovers⟩ := h.step hc hdiv hg hs hsizes hfinal hlive
      obtain ⟨known₂, hrest, hcovers₂⟩ := ih hcovers (by simpa using hlive)
      refine ⟨known₂, ?_, hcovers₂⟩
      rw [List.foldlM_cons, hone]
      exact hrest

end Covers

/-- A segment computes its outputs from its inputs as the complete fusion does. -/
theorem outputs_extracted (hc : c.Proper) (hdiv : c.Divides groups) (hg : g ∈ groups)
    (hs : Extracted c.fusion g.exprs g.io s) (hsizes : s.ReadsOwnSizes)
    (hfinal : M.Explains c.fusion args final) {xs : List α}
    (hxs : g.io.inputs.mapM (final.lookup ·) = some xs) :
    ∃ ys, M.outputs s xs = some ys ∧ g.io.outputs.mapM (final.lookup ·) = some ys := by
  have hstart : Covers s final [] (s.inputs.zip xs) := by
    rw [hs.inputs]
    refine ⟨fun v x hx => ?_, fun v hv => ?_, by simp⟩
    · have hmem := mem_of_lookup_zip hx
      rwa [lookup_zip hxs, if_pos hmem] at hx
    · rw [hs.inputs] at hv
      rw [lookup_zip hxs, if_pos hv]
      exact exists_of_mapM hxs hv
  obtain ⟨known, hrun, hcovers⟩ := hstart.run hc hdiv hg hs hsizes hfinal (List.nil_append _).symm
  have hlookup : ∀ v ∈ g.io.outputs, ∃ x, known.lookup v = some x ∧ final.lookup v = some x := by
    intro v hv
    obtain ⟨d, hd, hdef⟩ := hdiv.definition_of_mem_outputs hc hg hv
    have hdef' := (hs.definition v d).2 ⟨hdef, fun _ => hd⟩
    have hmem := hs.founded.definition_mem_liveExprs (hs.outputs ▸ hv) hdef'
    obtain ⟨y, hy, hout⟩ := hs.founded.defined v d hdef'
    obtain ⟨x, hx⟩ := hcovers.results d hmem v (by rwa [Fusion.expr, hy])
    exact ⟨x, hx, hcovers.agrees v x hx⟩
  obtain ⟨ys, hys⟩ := exists_mapM fun v hv => (hlookup v hv).imp fun _ h => h.1
  refine ⟨ys, ?_, ?_⟩
  · unfold outputs evaluate
    rw [hrun, hs.outputs]
    exact hys
  · rw [← hys]
    refine mapM_congr fun v hv => ?_
    obtain ⟨x, hx, hx'⟩ := hlookup v hv
    rw [hx, hx']

/-! ## Handing values from group to group -/

section Handover

variable {p : Plan} {i : Nat}

/-- A value is needed until the last group that reads it has run. -/
theorem isNeededAfter_of_read {j : Nat} (hg : p.groups[i]? = some g) (hv : v ∈ g.io.inputs)
    (hj : j < i) : p.isNeededAfter j v = true := by
  have hsorted : (p.groups.zipIdx.filter fun q => q.1.io.inputs.contains v).Pairwise
      fun q q' => q.2 < q'.2 := by
    refine List.Pairwise.filter _ ?_
    rw [← List.pairwise_map (f := Prod.snd) (R := (· < ·)), List.zipIdx_map_snd]
    exact List.pairwise_lt_range'
  have hmem : (g, i) ∈ p.groups.zipIdx.filter fun q => q.1.io.inputs.contains v :=
    List.mem_filter.2 ⟨List.mem_zipIdx_iff_getElem?.2 hg, by simpa using hv⟩
  obtain ⟨q, hq⟩ : ∃ q, (p.groups.zipIdx.filter fun q => q.1.io.inputs.contains v).getLast? =
      some q := Option.isSome_iff_exists.1 (by
    rw [List.getLast?_isSome]
    exact List.ne_nil_of_mem hmem)
  have hlast : i ≤ q.2 := by
    obtain ⟨init, hinit⟩ := List.getLast?_eq_some_iff.1 hq
    rw [hinit] at hmem hsorted
    rcases List.mem_append.1 hmem with hmem | hmem
    · exact Nat.le_of_lt ((List.pairwise_append.1 hsorted).2.2 _ hmem q (by simp))
    · exact Nat.le_of_eq (congrArg Prod.snd (List.mem_singleton.1 hmem))
  have hreader : p.lastReader? v = some q.2 := by
    unfold Plan.lastReader?
    rw [hq]
    rfl
  unfold Plan.isNeededAfter
  rw [hreader]
  have hlt : j < q.2 := Nat.lt_of_lt_of_le hj hlast
  simp [hlt]

/-- A search among the values that are kept. -/
theorem lookup_filter (P : ValueId → Bool) (known : Values α) (v : ValueId) :
    (known.filter fun q => P q.1).lookup v = if P v then known.lookup v else none := by
  induction known with
  | nil => simp
  | cons q known ih =>
      obtain ⟨u, x⟩ := q
      rw [List.filter_cons, List.lookup_cons]
      by_cases hu : v = u
      · subst hu
        by_cases hp : P v = true
        · simp [hp]
        · simp only [hp, Bool.false_eq_true, if_false] at ih ⊢
          exact ih
      · rw [beq_eq_false_iff_ne.2 hu]
        dsimp only
        split
        · rw [List.lookup_cons, beq_eq_false_iff_ne.2 hu]
          exact ih
        · exact ih

/-- The values known when the first `i` groups have run: they agree with those of the complete
fusion, and what is an input, or was handed out and has been needed since, is among them. -/
structure Handed (p : Plan) (final : Values α) (i : Nat) (known : Values α) : Prop where
  agrees : ∀ v x, known.lookup v = some x → final.lookup v = some x
  inputs : ∀ v ∈ p.complete.inputs, ∃ x, known.lookup v = some x
  outputs : ∀ k g, p.groups[k]? = some g → k < i → ∀ v ∈ g.io.outputs,
    (∀ j, k ≤ j → j < i → p.isNeededAfter j v = true) → ∃ x, known.lookup v = some x

/-- Everything that a group reads is known when its turn comes. -/
theorem Handed.gather (h : Handed p final i known) (hvalid : p.Valid)
    (hfinal : M.Explains p.complete args final) (hg : p.groups[i]? = some g) :
    ∃ xs, g.io.inputs.mapM (known.lookup ·) = some xs ∧
      g.io.inputs.mapM (final.lookup ·) = some xs := by
  have hmem := List.mem_of_getElem? hg
  obtain ⟨pre, post, hsplit, hlength⟩ : ∃ pre post, p.groups = pre ++ g :: post ∧
      pre.length = i := by
    obtain ⟨hi, rfl⟩ := List.getElem?_eq_some_iff.1 hg
    exact ⟨p.groups.take i, p.groups.drop (i + 1), by simp, by
      rw [List.length_take]
      omega⟩
  have hknown : ∀ v ∈ g.io.inputs, ∃ x, known.lookup v = some x := by
    intro v hv
    have hio := hv
    rw [hvalid.io g hmem] at hio
    rcases mem_boundary_inputs.1 hio with ⟨ht, ⟨e, he, hread⟩, -⟩ | ⟨hin, -⟩
    · rcases hvalid.inputs pre g post hsplit v hv ht with hnone | ⟨g', hg', hv'⟩
      · -- a tensor that nothing computes has a value only as an input
        refine h.inputs v ?_
        have hlive : e ∈ p.complete.liveExprs := (mem_tensorExprs.1
          (hvalid.partition.subset (List.mem_flatMap.2 ⟨g, hmem, he⟩))).1
        obtain ⟨operands, hoperands, -⟩ := hfinal.results e hlive
        obtain ⟨x, hx⟩ := exists_of_mapM hoperands hread
        unfold read at hx
        cases hlookup : final.lookup v with
        | some y =>
            rw [hfinal.start v hnone] at hlookup
            exact mem_of_lookup_zip hlookup
        | none =>
            rw [hlookup] at hx
            unfold Fusion.isTensor Value.isTensor Value.view? at ht
            cases hkind : (p.complete.value v).kind with
            | tensor t => simp [hkind] at hx
            | scalar k => simp [hkind] at ht
      · obtain ⟨k, hk⟩ := List.mem_iff_getElem?.1 hg'
        have hklt : k < pre.length := (List.getElem?_eq_some_iff.1 hk).1
        refine h.outputs k g' ?_ (hlength ▸ hklt) v hv' fun j _ hj => isNeededAfter_of_read hg hv hj
        rw [hsplit, List.getElem?_append_left hklt, hk]
    · exact h.inputs v hin
  obtain ⟨xs, hxs⟩ := exists_mapM hknown
  refine ⟨xs, hxs, ?_⟩
  rw [← hxs]
  refine mapM_congr fun v hv => ?_
  obtain ⟨x, hx⟩ := hknown v hv
  rw [hx, h.agrees v x hx]

/-- A group hands out its outputs, and what is no longer needed is dropped. -/
theorem Handed.step (h : Handed p final i known)
    (hinputs : ∀ v ∈ p.complete.inputs, p.isNeededAfter i v = true)
    (hg : p.groups[i]? = some g) {ys : List α}
    (hys : g.io.outputs.mapM (final.lookup ·) = some ys) :
    Handed p final (i + 1)
      ((g.io.outputs.zip ys ++ known).filter fun q => p.isNeededAfter i q.1) := by
  have hlookup : ∀ v, ((g.io.outputs.zip ys ++ known).filter
      fun q => p.isNeededAfter i q.1).lookup v = if p.isNeededAfter i v then
        (if v ∈ g.io.outputs then final.lookup v else none).or (known.lookup v) else none := by
    intro v
    rw [lookup_filter, List.lookup_append, lookup_zip hys]
  refine ⟨fun v x hx => ?_, fun v hv => ?_, fun k g' hg' hk v hv hneeded => ?_⟩
  · rw [hlookup] at hx
    split at hx
    · split at hx
      · rcases Option.or_eq_some_iff.1 hx with hx | ⟨-, hx⟩
        · exact hx
        · exact h.agrees v x hx
      · exact h.agrees v x (by simpa using hx)
    · cases hx
  · obtain ⟨x, hx⟩ := h.inputs v hv
    rw [hlookup, if_pos (hinputs v hv), hx]
    split
    · rw [h.agrees v x hx]
      exact ⟨x, rfl⟩
    · exact ⟨x, rfl⟩
  · rw [hlookup, if_pos (hneeded i (Nat.le_of_lt_succ hk) (Nat.lt_succ_self i))]
    by_cases hki : k = i
    · subst hki
      rw [hg] at hg'
      cases hg'
      obtain ⟨x, hx⟩ := exists_of_mapM hys hv
      rw [if_pos hv, hx]
      exact ⟨x, rfl⟩
    · obtain ⟨x, hx⟩ := h.outputs k g' hg' (by omega) v hv fun j hkj hji => hneeded j hkj (by omega)
      rw [hx]
      split
      · rw [h.agrees v x hx]
        exact ⟨x, rfl⟩
      · exact ⟨x, rfl⟩

/-- Running the remaining groups. -/
theorem Handed.run (hvalid : p.Valid) (hfinal : M.Explains p.complete args final)
    (hsegments : ∀ i g, p.groups[i]? = some g → ∀ xs,
      g.io.inputs.mapM (final.lookup ·) = some xs → ∃ ys, M.segment p i xs = .ok ys ∧
        g.io.outputs.mapM (final.lookup ·) = some ys)
    {rest : List Group} (hrest : p.groups.drop i = rest) (h : Handed p final i known) :
    ∃ known', p.runGroups .unset (M.segment p) (rest.zipIdx i) known = .ok known' ∧
      Handed p final (i + rest.length) known' := by
  induction rest generalizing i known with
  | nil => exact ⟨known, rfl, h⟩
  | cons g rest ih =>
      have hg : p.groups[i]? = some g := by
        rw [← List.head?_drop, hrest]
        rfl
      have hrest' : p.groups.drop (i + 1) = rest := by
        rw [← List.tail_drop, hrest]
        rfl
      have hinputs : ∀ v ∈ p.complete.inputs, p.isNeededAfter i v = true := by
        intro v hv
        simp [Plan.isNeededAfter, Fusion.isInput, hv]
      obtain ⟨xs, hxs, hxs'⟩ := h.gather hvalid hfinal hg
      obtain ⟨ys, hys, hys'⟩ := hsegments i g hg xs hxs'
      obtain ⟨known', hrun, hhanded⟩ := ih hrest' (h.step hinputs hg hys')
      refine ⟨known', ?_, by rwa [List.length_cons, Nat.add_comm rest.length, ← Nat.add_assoc]⟩
      rw [List.zipIdx_cons, Plan.runGroups, gather_eq hxs]
      change (do
        let results ← M.segment p i xs
        p.runGroups .unset (M.segment p) (rest.zipIdx (i + 1))
          ((g.io.outputs.zip results ++ known).filter fun q => p.isNeededAfter i q.1)) = _
      rw [hys]
      exact hrun

end Handover

/-! ## Plans -/

/-- Each name is paired with a value. -/
theorem exists_lookup_zip {names : List ValueId} {xs : List α} (hlength : names.length = xs.length)
    (hv : v ∈ names) : ∃ x, (names.zip xs).lookup v = some x := by
  induction names generalizing xs with
  | nil => cases hv
  | cons u names ih =>
      cases xs with
      | nil => cases hlength
      | cons y xs =>
          rw [List.zip_cons_cons, List.lookup_cons]
          split
          · exact ⟨y, rfl⟩
          case h_2 hne =>
              rcases List.mem_cons.1 hv with rfl | hv
              · simp at hne
              · exact ih (Nat.succ.inj hlength) hv

section Plans

variable {i : Nat} {xs : List α}

/-- Every group of a plan has a fusion of its own. -/
theorem exists_segmentFusion (hc : c.Proper) (hreached : c.Reached groups)
    (hg : (c.finish groups).groups[i]? = some g) :
    ∃ s, (c.finish groups).segmentFusion i = .ok s ∧ Extracted c.fusion g.exprs g.io s := by
  obtain ⟨s, hextract, hs⟩ := extract_extracted hc.sound hc.wired
    ((hreached.finish_divides hc).io_proper hc (List.mem_of_getElem? hg))
  refine ⟨s, ?_, hs⟩
  unfold Plan.segmentFusion
  dsimp only
  rw [List.getD_eq_getElem?_getD, hg, Option.getD_some, Context.finish_complete, hextract]
  rfl

/-- A group of a plan computes its outputs from its inputs as the complete fusion does. -/
theorem segment_eq (hc : c.Proper) (hreached : c.Reached groups)
    (hfinal : M.Explains c.fusion args final) (hg : (c.finish groups).groups[i]? = some g)
    (hsizes : ∀ s, (c.finish groups).segmentFusion i = .ok s → s.ReadsOwnSizes)
    (hxs : g.io.inputs.mapM (final.lookup ·) = some xs) :
    ∃ ys, M.segment (c.finish groups) i xs = .ok ys ∧
      g.io.outputs.mapM (final.lookup ·) = some ys := by
  obtain ⟨s, hsegment, hs⟩ := exists_segmentFusion hc hreached hg
  obtain ⟨ys, hys, hys'⟩ := outputs_extracted hc (hreached.finish_divides hc)
    (List.mem_of_getElem? hg) hs (hsizes s hsegment) hfinal hxs
  refine ⟨ys, ?_, hys'⟩
  unfold Meaning.segment
  rw [hsegment]
  change (match M.outputs s xs with
    | some xs => .ok xs
    | none => .error (.unevaluable i) : Except PlanFailure (List α)) = _
  rw [hys]

/-- When all groups have run, the outputs of the fusion are known. -/
theorem Handed.lookup_output {p : Plan} (hvalid : p.Valid)
    (hfinal : M.Explains p.complete args final) (h : Handed p final p.groups.length known)
    (hv : v ∈ p.complete.outputs) {x : α} (hx : final.lookup v = some x) :
    known.lookup v = some x := by
  have hsome : ∃ y, known.lookup v = some y := by
    cases hdef : p.complete.definition v with
    | none =>
        rw [hfinal.start v hdef] at hx
        exact h.inputs v (mem_of_lookup_zip hx)
    | some d =>
        obtain ⟨k, ⟨g, hg, hmem⟩, -⟩ := hvalid.outputs v hv (by simp [hdef])
        refine h.outputs k g hg (List.getElem?_eq_some_iff.1 hg).1 v hmem fun j _ _ => ?_
        simp [Plan.isNeededAfter, Fusion.isOutput, hv]
  obtain ⟨y, hy⟩ := hsome
  rw [hy, ← hx, h.agrees v y hy]

/-- A plan whose segments read no sizes of other tensors than their inputs computes what the
fusion computes. -/
theorem runPlan_eq {calls : List Call} {shapes : Arguments} {p : Plan}
    (hf : applyAll Schedule.replay calls {} = some f) (hsome : f.tensorExprs ≠ [])
    (hp : Plan.make f shapes = .ok p)
    (hsizes : ∀ i s, i < p.groups.length → p.segmentFusion i = .ok s → s.ReadsOwnSizes)
    (hargs : f.inputs.length = args.length) (h : M.outputs f args = some xs) :
    M.runPlan p args = .ok xs := by
  obtain ⟨c, -, rfl, horder, groups, hreached, rfl⟩ := Plan.exists_reached hp
  have hc : c.Proper := ⟨horder, applyAll_sound hf, applyAll_wired hf⟩
  have hvalid := hreached.finish_valid hc hsome
  obtain ⟨final, hevaluate, h⟩ := Option.bind_eq_some_iff.1 h
  have hfinal := explains_of_evaluate hc.sound hc.wired hevaluate
  have hstart : Handed (c.finish groups) final 0 (c.fusion.inputs.zip args) := by
    refine ⟨fun v x hx => ?_, fun v hv => exists_lookup_zip hargs hv, by simp⟩
    rw [hfinal.start v (hc.wired.inputs v (mem_of_lookup_zip hx)).2, hx]
  obtain ⟨known, hrun, hhanded⟩ := hstart.run hvalid hfinal (fun i g hg xs hxs =>
    segment_eq hc hreached hfinal hg (hsizes i · (List.getElem?_eq_some_iff.1 hg).1) hxs)
    List.drop_zero
  rw [Nat.zero_add] at hhanded
  unfold runPlan Plan.run
  rw [Context.finish_complete, hrun]
  refine gather_eq ?_
  rw [← h]
  refine mapM_congr fun v hv => ?_
  obtain ⟨x, hx⟩ := exists_of_mapM h hv
  rw [hx, hhanded.lookup_output hvalid hfinal hv hx]

/-- A meaning in which an expression adds up its operands. -/
def summing : Meaning Nat :=
  ⟨fun _ => 1, fun x dim => x + dim, fun _ xs _ => xs.foldl (· + ·) 0⟩

/-- A negation of a negation in two segments gives what the complete fusion gives. -/
theorem negatedTwice_runPlan :
    ∃ f p, applyAll Schedule.replay Plan.negatedTwice {} = some f ∧
      Plan.make f ⟨[(⟨0⟩, .contiguous .float [4])]⟩ = .ok p ∧ p.groups.length = 2 ∧
        summing.outputs f [7] = some [7, 7] ∧ summing.runPlan p [7] = .ok [7, 7] := by
  have hrun : (applyAll Schedule.replay Plan.negatedTwice {}).any (fun f =>
      !f.tensorExprs.isEmpty && f.inputs.length == 1 && summing.outputs f [7] == some [7, 7] &&
        (Plan.make f ⟨[(⟨0⟩, .contiguous .float [4])]⟩).toOption.any fun p =>
          p.groups.length == 2 && (List.range p.groups.length).all fun i =>
            (p.segmentFusion i).toOption.all fun s => decide s.ReadsOwnSizes) = true := by
    cbv
  obtain ⟨f, hf, hrun⟩ := (Option.any_eq_true _ _).1 hrun
  obtain ⟨hchecks, hrun⟩ := Bool.and_eq_true_iff.1 hrun
  simp only [Bool.and_eq_true, Bool.not_eq_true', List.isEmpty_eq_false_iff, beq_iff_eq] at hchecks
  obtain ⟨⟨hsome, hinputs⟩, houtputs⟩ := hchecks
  obtain ⟨p, hp, hrun⟩ := (Option.any_eq_true _ _).1 hrun
  obtain ⟨hlength, hown⟩ := Bool.and_eq_true_iff.1 hrun
  have hp := Results.ok_of_toOption hp
  refine ⟨f, p, hf, hp, by simpa using hlength, houtputs,
    runPlan_eq hf hsome hp (fun i s hi hs => ?_) hinputs houtputs⟩
  have hone := List.all_eq_true.1 hown i (List.mem_range.2 hi)
  rw [hs] at hone
  exact of_decide_eq_true hone

/-- A vector negated, and a row multiplied by the size of the vector: the kernel of the row knows
nothing of the vector. -/
def foreignSize : List Call :=
  [.tensor [-1] [true] .float, .input ⟨0⟩, .tensor [-1] [true] .float, .input ⟨3⟩,
    .unary .neg (.value ⟨0⟩), .output ⟨7⟩, .broadcast ⟨3⟩ [true, false],
    .binary .mul (.value ⟨11⟩) (.value ⟨1⟩), .output ⟨14⟩]

/-- A segment that asks for the size of a tensor outside does not run. -/
theorem foreignSize_not_runPlan :
    ∃ f p, applyAll Schedule.replay foreignSize {} = some f ∧
      Plan.make f ⟨[(⟨0⟩, .contiguous .float [3]), (⟨3⟩, .contiguous .float [2])]⟩ = .ok p ∧
        summing.outputs f [2, 5] = some [2, 7] ∧ ∀ xs, summing.runPlan p [2, 5] ≠ .ok xs := by
  have hrun : (applyAll Schedule.replay foreignSize {}).any (fun f =>
      summing.outputs f [2, 5] == some [2, 7] &&
        (Plan.make f ⟨[(⟨0⟩, .contiguous .float [3]), (⟨3⟩, .contiguous .float [2])]⟩).toOption.any
          fun p => (summing.runPlan p [2, 5]).toOption == none) = true := by
    cbv
  obtain ⟨f, hf, hrun⟩ := (Option.any_eq_true _ _).1 hrun
  obtain ⟨houtputs, hrun⟩ := Bool.and_eq_true_iff.1 hrun
  obtain ⟨p, hp, hnone⟩ := (Option.any_eq_true _ _).1 hrun
  refine ⟨f, p, hf, Results.ok_of_toOption hp, by simpa using houtputs, fun xs hxs => ?_⟩
  rw [hxs] at hnone
  cases hnone

end Plans

end Meaning
end FusionCompiler
