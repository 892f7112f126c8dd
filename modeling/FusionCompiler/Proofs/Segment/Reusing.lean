import Mathlib
import FusionCompiler.Host.Segmented
import FusionCompiler.Proofs.Segment.Execution

/-!
# Running a plan with reused buffers

A point-wise group may store outputs over inputs that are not needed after it.  A
launch runs an operation for all threads before the next one, so the expressions
of a segment are evaluated one after the other, with a value for every place
instead of every tensor.

The choice of the pairs takes care of the other groups: the inputs are
intermediate tensors, no later group reads them, and no two outputs share a
place.  Inside the group it takes care of nothing.  Reuse changes no result as
long as no expression reads an input after an output has been stored over it.

Main results:

- Theorem `Segment.Plan.mem_reusableBuffers`: what holds of an output and the input
  it is stored over.
- Theorem `Meaning.outputsReusing_eq`: a segment that reads no overwritten input
  computes the same outputs.
- Theorem `Meaning.runPlanReusing_eq`: so does a plan of such segments.
-/

namespace FusionCompiler

open Fusion Segment

/-! ## Pairs of outputs and inputs -/

namespace Segment

variable {outputs dead : List Footprint} {q : ValueId × ValueId}

theorem swapRemove_perm {α : Type} {l : List α} {pos : Nat} {x : α} (h : l[pos]? = some x) :
    (x :: swapRemove l pos).Perm l := by
  obtain ⟨hpos, rfl⟩ := List.getElem?_eq_some_iff.1 h
  obtain ⟨last, hlast⟩ : ∃ last, l.getLast? = some last :=
    Option.isSome_iff_exists.1 (by
      rw [List.getLast?_isSome]
      exact List.ne_nil_of_length_pos (Nat.zero_lt_of_lt hpos))
  obtain ⟨init, rfl⟩ := List.getLast?_eq_some_iff.1 hlast
  unfold swapRemove
  rw [hlast]
  dsimp only
  rw [List.dropLast_concat]
  split
  case isTrue hend =>
      have hpos : pos = init.length := by simpa using hend
      subst hpos
      rw [List.getElem_concat_length rfl]
      exact (List.perm_append_singleton last init).symm
  case isFalse hend =>
      have hpos : pos < init.length := by
        simp only [List.length_append, List.length_singleton] at hpos hend
        omega
      rw [List.getElem_append_left hpos]
      calc List.Perm (init[pos] :: init.set pos last) (init[pos] :: last :: init.eraseIdx pos) :=
            (List.set_perm_cons_eraseIdx hpos last).cons _
        List.Perm _ (last :: init[pos] :: init.eraseIdx pos) := .swap ..
        List.Perm _ (last :: init) := (List.getElem_cons_eraseIdx_perm hpos).cons _
        List.Perm _ (init ++ [last]) := (List.perm_append_singleton last init).symm

/-- An assigned pair has an output and a dead input of one type and sizes. -/
theorem mem_assignBuffers (h : q ∈ assignBuffers outputs dead) :
    ∃ out ∈ outputs, ∃ input ∈ dead, q = (out.tensor, input.tensor) ∧ input.fits out = true := by
  induction outputs generalizing dead with
  | nil => cases h
  | cons out outputs ih =>
      unfold assignBuffers at h
      split at h
      case h_1 pos hfind =>
          obtain ⟨hpos, hfits, -⟩ := List.findIdx?_eq_some_iff_getElem.1 hfind
          have hget : dead[pos]? = some dead[pos] := List.getElem?_eq_getElem hpos
          rw [hget] at h
          rcases List.mem_append.1 h with h | h
          · refine ⟨out, List.mem_cons_self, dead[pos], List.getElem_mem hpos, ?_, hfits⟩
            simpa using h
          · obtain ⟨out', hout, input, hinput, heq⟩ := ih h
            exact ⟨out', List.mem_cons_of_mem out hout, input,
              (swapRemove_perm hget).subset (List.mem_cons_of_mem _ hinput), heq⟩
      case h_2 =>
          obtain ⟨out', hout, hrest⟩ := ih h
          exact ⟨out', List.mem_cons_of_mem out hout, hrest⟩

/-- No two outputs are stored over one input. -/
theorem distinct_assignBuffers (h : (dead.map (·.tensor)).Nodup) :
    ((assignBuffers outputs dead).map (·.2)).Nodup := by
  induction outputs generalizing dead with
  | nil => exact List.nodup_nil
  | cons out outputs ih =>
      unfold assignBuffers
      split
      case h_1 pos hfind =>
          obtain ⟨hpos, -, -⟩ := List.findIdx?_eq_some_iff_getElem.1 hfind
          have hget : dead[pos]? = some dead[pos] := List.getElem?_eq_getElem hpos
          have hperm := ((swapRemove_perm hget).map (·.tensor)).nodup_iff.2 h
          obtain ⟨hnew, hrest⟩ := List.nodup_cons.1 hperm
          rw [hget]
          refine List.nodup_cons.2 ⟨fun hmem => hnew ?_, ih hrest⟩
          obtain ⟨q, hq, htensor⟩ := List.mem_map.1 hmem
          obtain ⟨out', -, input, hinput, hpair, -⟩ := mem_assignBuffers hq
          refine List.mem_map.2 ⟨input, hinput, ?_⟩
          rw [← htensor, hpair]
      case h_2 => exact ih h

namespace Plan

variable {p : Plan} {shapes : Arguments} {g : Group} {index : Nat}

/-- What holds of an output that is stored over an input: both are in the boundary of the group,
the input dies in it, and they have one type and the same sizes. -/
theorem mem_reusableBuffers (h : q ∈ p.reusableBuffers shapes g index) :
    q.1 ∈ g.io.outputs ∧ q.2 ∈ g.io.inputs ∧ p.diesIn index q.2 = true ∧
      p.complete.dtype q.2 = p.complete.dtype q.1 ∧ ∃ sizes,
        shapes.extents? p.complete (p.complete.shape q.1) = some sizes ∧
          shapes.extents? p.complete (p.complete.shape q.2) = some sizes := by
  have hfootprint : ∀ {v a}, p.footprint? shapes v = some a → a.tensor = v ∧
      a.dtype = p.complete.dtype v ∧
        shapes.extents? p.complete (p.complete.shape v) = some a.sizes := by
    intro v a ha
    obtain ⟨sizes, hsizes, rfl⟩ := Option.map_eq_some_iff.1 ha
    exact ⟨rfl, rfl, hsizes⟩
  obtain ⟨out, hout, input, hinput, rfl, hfits⟩ := mem_assignBuffers h
  obtain ⟨v, hv, hout⟩ := List.mem_filterMap.1 hout
  obtain ⟨u, hu, hinput⟩ := List.mem_filterMap.1 hinput
  obtain ⟨hu, hdies⟩ := List.mem_filter.1 hu
  obtain ⟨rfl, htype, hsizes⟩ := hfootprint hout
  obtain ⟨rfl, htype', hsizes'⟩ := hfootprint hinput
  obtain ⟨hsame, hsame'⟩ := Bool.and_eq_true_iff.1 hfits
  refine ⟨hv, hu, hdies, ?_, out.sizes, hsizes, ?_⟩
  · rw [← htype, ← htype', eq_of_beq hsame]
  · rw [hsizes', eq_of_beq hsame']

/-- No two outputs of a group are stored over one input. -/
theorem distinct_reusableBuffers (h : g.io.inputs.Nodup) :
    ((p.reusableBuffers shapes g index).map (·.2)).Nodup := by
  refine distinct_assignBuffers ?_
  have hsub : ∀ l : List ValueId,
      ((l.filterMap (p.footprint? shapes)).map (·.tensor)).Sublist l := by
    intro l
    induction l with
    | nil => exact .slnil
    | cons v l ih =>
        rw [List.filterMap_cons]
        cases hv : p.footprint? shapes v with
        | none => exact ih.cons v
        | some a =>
            obtain ⟨sizes, -, rfl⟩ := Option.map_eq_some_iff.1 hv
            exact ih.cons_cons v
  exact ((hsub _).trans List.filter_sublist).nodup h

/-- A value that dies in a group is not needed after it. -/
theorem not_isNeededAfter_of_diesIn {v : ValueId} (h : p.diesIn index v = true) :
    p.isNeededAfter index v = false := by
  simp only [diesIn, Bool.and_eq_true, Bool.not_eq_true', beq_iff_eq] at h
  obtain ⟨⟨⟨-, hin⟩, hout⟩, hlast⟩ := h
  simp [isNeededAfter, hin, hout, hlast]

/-- The outputs of a group that are stored over inputs of it, under given settings. -/
def reused (p : Plan) (shapes : Arguments) (s : Settings) (index : Nat) :
    List (ValueId × ValueId) :=
  let g := p.groups.getD index default
  if SegmentedExecutor.mayReuse s g.params then p.reusableBuffers shapes g index else []

end Plan

/-- The place of a tensor: that of the input it is stored over, else one of its own. -/
def place (pairs : List (ValueId × ValueId)) (v : ValueId) : ValueId :=
  (pairs.lookup v).getD v

end Segment

/-- No live expression reads an input after an output has been stored over it. -/
def Fusion.OverwritesLast (f : Fusion) (pairs : List (ValueId × ValueId)) : Prop :=
  f.liveExprs.Pairwise fun e d => ∀ q ∈ pairs, q.1 ∈ (f.expr e).outputs → q.2 ∉ (f.expr d).inputs

instance (f : Fusion) (pairs : List (ValueId × ValueId)) : Decidable (f.OverwritesLast pairs) :=
  inferInstanceAs (Decidable (f.liveExprs.Pairwise fun e d =>
    ∀ q ∈ pairs, q.1 ∈ (f.expr e).outputs → q.2 ∉ (f.expr d).inputs))

namespace Meaning

variable {α : Type}

/-- The value of an operand: what its place holds, else what it is by the arguments. -/
def readPlace (M : Meaning α) (f : Fusion) (pairs : List (ValueId × ValueId))
    (args : List α) (stored : Values α) (v : ValueId) : Option α :=
  (stored.lookup (place pairs v)).or (M.read f (f.inputs.zip args) v)

/-- Applies an expression to the values in the places of its operands. -/
def stepReusing (M : Meaning α) (f : Fusion) (pairs : List (ValueId × ValueId)) (args : List α)
    (stored : Values α) (e : ExprId) : Option (Values α) := do
  let operands ← (f.expr e).inputs.mapM (M.readPlace f pairs args stored)
  return (f.expr e).outputs.map (fun v => (place pairs v, M.result e operands v)) ++ stored

/-- The outputs of a fusion that stores some of them over inputs. -/
def outputsReusing (M : Meaning α) (f : Fusion) (pairs : List (ValueId × ValueId))
    (args : List α) : Option (List α) := do
  let stored ← f.liveExprs.foldlM (M.stepReusing f pairs args) (f.inputs.zip args)
  f.outputs.mapM fun v => stored.lookup (place pairs v)

/-- What one group of a plan computes when it reuses buffers. -/
def segmentReusing (M : Meaning α) (p : Plan) (shapes : Arguments) (s : Settings) (index : Nat)
    (args : List α) : Except PlanFailure (List α) := do
  let f ← (p.segmentFusion index).mapError .segment
  match M.outputsReusing f (p.reused shapes s index) args with
  | some xs => .ok xs
  | none => .error (.unevaluable index)

/-- The outputs of a fusion that is run group by group and reuses buffers. -/
def runPlanReusing (M : Meaning α) (p : Plan) (shapes : Arguments) (s : Settings)
    (args : List α) : Except PlanFailure (List α) := do
  let known ← p.run .unset (M.segmentReusing p shapes s) args
  Plan.gather .unproduced known p.complete.outputs

/-! ## Places and values -/

/-- A fusion that computes each value once, its outputs among them, and its inputs not at all. -/
structure Computes (f : Fusion) : Prop where
  founded : Founded f
  results : ∀ e ∈ f.liveExprs, ∀ v ∈ (f.expr e).outputs, f.definition v = some e
  inputs : ∀ v ∈ f.inputs, f.definition v = none
  outputs : ∀ v ∈ f.outputs, f.definition v ≠ none

/-- Pairs of computed values with inputs to store them over, all different. -/
structure Overlays (f : Fusion) (pairs : List (ValueId × ValueId)) : Prop where
  computed : ∀ q ∈ pairs, f.definition q.1 ≠ none
  given : ∀ q ∈ pairs, f.definition q.2 = none
  distinct : (pairs.map (·.2)).Nodup

/-- The place of a value has the value: it has been computed if it is stored over an input, and
nothing has been stored over it. -/
structure Current (f : Fusion) (pairs : List (ValueId × ValueId)) (done : List ExprId)
    (v : ValueId) : Prop where
  computed : pairs.lookup v ≠ none → ∃ e ∈ done, v ∈ (f.expr e).outputs
  kept : ∀ q ∈ pairs, q.2 = v → ∀ e ∈ done, q.1 ∉ (f.expr e).outputs

/-- Places hold the current values when some expressions have run, and inputs are as given. -/
structure Holds (f : Fusion) (pairs : List (ValueId × ValueId)) (args : List α)
    (done : List ExprId) (known stored : Values α) : Prop where
  current : ∀ v, Current f pairs done v → stored.lookup (place pairs v) = known.lookup v
  given : ∀ v, f.definition v = none → known.lookup v = (f.inputs.zip args).lookup v

variable {M : Meaning α} {f : Fusion} {pairs : List (ValueId × ValueId)} {args : List α}
  {known stored : Values α} {done todo : List ExprId} {e : ExprId} {u v : ValueId}

theorem mem_of_lookup {l : List (ValueId × ValueId)} (h : l.lookup v = some u) : (v, u) ∈ l := by
  obtain ⟨l₁, l₂, rfl, -⟩ := List.lookup_eq_some_iff.1 h
  simp

/-- Two values share a place only if one is stored over the other. -/
theorem eq_of_place_eq (hpairs : Overlays f pairs) (h : place pairs u = place pairs v)
    (huv : ∀ q ∈ pairs, q ≠ (u, v) ∧ q ≠ (v, u)) : u = v := by
  unfold place at h
  cases hu : pairs.lookup u with
  | none =>
      cases hv : pairs.lookup v with
      | none => simpa [hu, hv] using h
      | some i =>
          have heq : u = i := by simpa [hu, hv] using h
          exact absurd (heq ▸ rfl) (huv _ (mem_of_lookup hv)).2
  | some i =>
      cases hv : pairs.lookup v with
      | none =>
          have heq : i = v := by simpa [hu, hv] using h
          exact absurd (heq ▸ rfl) (huv _ (mem_of_lookup hu)).1
      | some j =>
          have heq : i = j := by simpa [hu, hv] using h
          have hpair := List.inj_on_of_nodup_map hpairs.distinct (mem_of_lookup hu)
            (mem_of_lookup hv) heq
          exact congrArg Prod.fst hpair

theorem lookup_map_place {names : List ValueId} (g : ValueId → α)
    (hv : ∀ u ∈ names, place pairs u = place pairs v → u = v) :
    (names.map fun u => (place pairs u, g u)).lookup (place pairs v) =
      if v ∈ names then some (g v) else none := by
  induction names with
  | nil => rfl
  | cons u names ih =>
      rw [List.map_cons, List.lookup_cons, ih fun w hw => hv w (List.mem_cons_of_mem u hw)]
      by_cases hu : u = v
      · simp [hu]
      · have hplace : place pairs v ≠ place pairs u :=
          fun heq => hu (hv u List.mem_cons_self heq.symm)
        rw [beq_eq_false_iff_ne.2 hplace]
        simp [Ne.symm hu]

/-- What an expression reads is current when its turn comes. -/
theorem current_of_read (hf : Computes f) (hpairs : Overlays f pairs)
    (hlast : f.OverwritesLast pairs) (hlive : f.liveExprs = done ++ e :: todo)
    (hv : v ∈ (f.expr e).inputs) : Current f pairs done v := by
  refine ⟨fun hsome => ?_, fun q hq heq d hd hmem => ?_⟩
  · obtain ⟨i, hi⟩ := Option.ne_none_iff_exists'.1 hsome
    obtain ⟨d, hd⟩ := Option.ne_none_iff_exists'.1 (hpairs.computed _ (mem_of_lookup hi))
    obtain ⟨x, hx, hmem⟩ := hf.founded.defined v d hd
    exact ⟨d, hf.founded.liveExprs_inOrder.1 done e todo hlive d ⟨v, hv, hd⟩, by rwa [expr, hx]⟩
  · unfold OverwritesLast at hlast
    rw [hlive] at hlast
    have hbefore := (List.pairwise_append.1 hlast).2.2 d hd e List.mem_cons_self
    exact hbefore q hq hmem (heq ▸ hv)

/-- All outputs are current in the end. -/
theorem current_of_output (hf : Computes f) (hpairs : Overlays f pairs) (hv : v ∈ f.outputs) :
    Current f pairs f.liveExprs v := by
  obtain ⟨d, hd⟩ := Option.ne_none_iff_exists'.1 (hf.outputs v hv)
  refine ⟨fun _ => ?_, fun q hq heq => ?_⟩
  · obtain ⟨x, hx, hmem⟩ := hf.founded.defined v d hd
    exact ⟨d, hf.founded.definition_mem_liveExprs hv hd, by rwa [expr, hx]⟩
  · have hnone := hpairs.given q hq
    rw [heq, hd] at hnone
    cases hnone

theorem Holds.read_eq (h : Holds f pairs args done known stored) (hf : Computes f)
    (hv : Current f pairs done v) : M.readPlace f pairs args stored v = M.read f known v := by
  unfold readPlace
  rw [h.current v hv]
  cases hknown : known.lookup v with
  | some x => simp [read, hknown]
  | none =>
      have hargs : (f.inputs.zip args).lookup v = none := by
        by_contra hsome
        obtain ⟨x, hx⟩ := Option.ne_none_iff_exists'.1 hsome
        rw [h.given v (hf.inputs v (mem_of_lookup_zip hx)), hx] at hknown
        cases hknown
      unfold read
      rw [hknown, hargs, Option.none_or]
      dsimp only
      split
      · rfl
      case h_2 tensor dim _ =>
          split
          case isTrue hin =>
              rw [h.given tensor (hf.inputs tensor (by simpa [Fusion.isInput] using hin))]
          case isFalse => rfl
      · rfl

/-- An expression stores its results, and they are the only values that change. -/
theorem Holds.step (h : Holds f pairs args done known stored) (hf : Computes f)
    (hpairs : Overlays f pairs) (he : e ∈ f.liveExprs) (g : ValueId → α) :
    Holds f pairs args (done ++ [e]) ((f.expr e).outputs.map (fun v => (v, g v)) ++ known)
      ((f.expr e).outputs.map (fun v => (place pairs v, g v)) ++ stored) := by
  refine ⟨fun v hv => ?_, fun v hv => ?_⟩
  · -- no other result goes to the place of a value that stays current
    have halone : ∀ u ∈ (f.expr e).outputs, place pairs u = place pairs v → u = v := by
      intro u hu hplace
      refine eq_of_place_eq hpairs hplace fun q hq => ⟨?_, ?_⟩
      · rintro rfl
        exact hv.kept _ hq rfl e (by simp) hu
      · rintro rfl
        have hnone := hpairs.given _ hq
        rw [hf.results e he u hu] at hnone
        cases hnone
    rw [List.lookup_append, List.lookup_append, lookup_map_place g halone, lookup_map]
    split
    · rfl
    case isFalse hnew =>
        refine h.current v ⟨fun hsome => ?_, fun q hq heq d hd => ?_⟩
        · obtain ⟨d, hd, hmem⟩ := hv.computed hsome
          rcases List.mem_append.1 hd with hd | hd
          · exact ⟨d, hd, hmem⟩
          · exact absurd (List.mem_singleton.1 hd ▸ hmem) hnew
        · exact hv.kept q hq heq d (List.mem_append_left _ hd)
  · have hnew : v ∉ (f.expr e).outputs := by
      intro hmem
      rw [hf.results e he v hmem] at hv
      cases hv
    rw [List.lookup_append, lookup_map, if_neg hnew]
    exact h.given v hv

/-- Running the remaining expressions gives the same outputs. -/
theorem Holds.run (h : Holds f pairs args done known stored) (hf : Computes f)
    (hpairs : Overlays f pairs) (hlast : f.OverwritesLast pairs)
    (hlive : f.liveExprs = done ++ todo) :
    (todo.foldlM (M.stepReusing f pairs args) stored).bind
        (fun stored => f.outputs.mapM fun v => stored.lookup (place pairs v)) =
      (todo.foldlM (M.step f) known).bind fun known => f.outputs.mapM (known.lookup ·) := by
  induction todo generalizing done known stored with
  | nil =>
      rw [List.append_nil] at hlive
      refine mapM_congr fun v hv => h.current v ?_
      rw [← hlive]
      exact current_of_output hf hpairs hv
  | cons e todo ih =>
      have hoperands : (f.expr e).inputs.mapM (M.readPlace f pairs args stored) =
          (f.expr e).inputs.mapM (M.read f known) :=
        mapM_congr fun v hv => h.read_eq hf (current_of_read hf hpairs hlast hlive hv)
      rw [List.foldlM_cons, List.foldlM_cons, stepReusing, Meaning.step, hoperands]
      cases (f.expr e).inputs.mapM (M.read f known) with
      | none => rfl
      | some operands =>
          exact ih (h.step hf hpairs (by simp [hlive]) (M.result e operands)) (by simpa using hlive)

/-- A fusion that reads no overwritten input computes the same outputs when it stores some of them
over inputs. -/
theorem outputsReusing_eq (hf : Computes f) (hpairs : Overlays f pairs)
    (hlast : f.OverwritesLast pairs) (args : List α) :
    M.outputsReusing f pairs args = M.outputs f args := by
  have hstart : Holds f pairs args [] (f.inputs.zip args) (f.inputs.zip args) := by
    refine ⟨fun v hv => ?_, fun _ _ => rfl⟩
    have hnone : pairs.lookup v = none := by
      by_contra hsome
      obtain ⟨e, he, -⟩ := hv.computed hsome
      cases he
    rw [place, hnone, Option.getD_none]
  exact hstart.run hf hpairs hlast (List.nil_append _).symm

/-! ## Plans -/

section Plans

variable {s : Fusion} {c : Context} {groups : List Group} {g : Group} {i : Nat}
  {shapes : Arguments} {settings : Settings} {p : Plan}

/-- A segment computes each value once, its outputs among them, and its inputs not at all. -/
theorem computes_extracted (hc : c.Proper) (hdiv : c.Divides groups) (hg : g ∈ groups)
    (hs : Extracted c.fusion g.exprs g.io s) : Computes s := by
  refine ⟨hs.founded, fun e he v hv => ?_, fun v hv => ?_, fun v hv => ?_⟩
  · obtain ⟨-, hstays⟩ := live_of_extracted hc hdiv hg hs he
    rw [hs.expr e hstays] at hv
    exact (hs.definition v e).2 ⟨hc.wired.definition_eq hv, hstays⟩
  · rw [hs.inputs] at hv
    refine Option.eq_none_iff_forall_ne_some.2 fun d hd => ?_
    obtain ⟨hdef, hstays⟩ := (hs.definition v d).1 hd
    exact (hdiv.io_proper hc hg).inputs v hv d hdef hstays
  · rw [hs.outputs] at hv
    obtain ⟨d, hd, hdef⟩ := hdiv.definition_of_mem_outputs hc hg hv
    rw [(hs.definition v d).2 ⟨hdef, fun _ => hd⟩]
    exact Option.some_ne_none d

/-- The buffers that a group reuses are those of inputs of its segment. -/
theorem overlays_reusableBuffers (hf : Computes s) (hnodup : g.io.inputs.Nodup)
    (hin : s.inputs = g.io.inputs) (hout : s.outputs = g.io.outputs) :
    Overlays s (p.reusableBuffers shapes g i) where
  computed q hq := hf.outputs q.1 (hout ▸ (Plan.mem_reusableBuffers hq).1)
  given q hq := hf.inputs q.2 (hin ▸ (Plan.mem_reusableBuffers hq).2.1)
  distinct := Plan.distinct_reusableBuffers hnodup

theorem overlays_nil (s : Fusion) : Overlays s [] :=
  ⟨by simp, by simp, List.nodup_nil⟩

/-- A group of a plan computes the same outputs when it reuses buffers. -/
theorem segmentReusing_eq (hc : c.Proper) (hreached : c.Reached groups)
    (hg : (c.finish groups).groups[i]? = some g)
    (hlast : ∀ s, (c.finish groups).segmentFusion i = .ok s →
      s.OverwritesLast ((c.finish groups).reused shapes settings i)) (args : List α) :
    M.segmentReusing (c.finish groups) shapes settings i args =
      M.segment (c.finish groups) i args := by
  have hdiv := hreached.finish_divides hc
  have hmem := List.mem_of_getElem? hg
  obtain ⟨s, hsegment, hs⟩ := exists_segmentFusion hc hreached hg
  have hcomputes := computes_extracted hc hdiv hmem hs
  have hpairs : Overlays s ((c.finish groups).reused shapes settings i) := by
    unfold Plan.reused
    rw [List.getD_eq_getElem?_getD, hg, Option.getD_some]
    dsimp only
    split
    · exact overlays_reusableBuffers hcomputes (hdiv.io_proper hc hmem).distinctInputs hs.inputs
        hs.outputs
    · exact overlays_nil s
  unfold segmentReusing segment
  rw [hsegment]
  change (match M.outputsReusing s _ args with
    | some xs => .ok xs
    | none => .error (.unevaluable i) : Except PlanFailure (List α)) = _
  rw [outputsReusing_eq hcomputes hpairs (hlast s hsegment)]
  rfl

/-- Running groups depends on what each of them computes only. -/
theorem runGroups_congr {ε : Type} {unset : ValueId → ε}
    {compute compute' : Nat → List α → Except ε (List α)} {gs : List (Group × Nat)}
    (h : ∀ q ∈ gs, ∀ xs, compute q.2 xs = compute' q.2 xs) (known : Values α) :
    p.runGroups unset compute gs known = p.runGroups unset compute' gs known := by
  induction gs generalizing known with
  | nil => rfl
  | cons q gs ih =>
      obtain ⟨g, i⟩ := q
      have hrest := ih fun q hq => h q (List.mem_cons_of_mem _ hq)
      simp only [Plan.runGroups, h (g, i) List.mem_cons_self, hrest]

/-- Reusing buffers is safe between groups, and changes no output of a plan whose segments read no
input after an output has been stored over it. -/
theorem runPlanReusing_eq {calls : List Call}
    (hf : applyAll Schedule.replay calls {} = some f) (hp : Plan.make f shapes = .ok p)
    (hlast : ∀ i s, i < p.groups.length → p.segmentFusion i = .ok s →
      s.OverwritesLast (p.reused shapes settings i)) (args : List α) :
    (∀ i, ∀ q ∈ p.reused shapes settings i, p.isNeededAfter i q.2 = false) ∧
      M.runPlanReusing p shapes settings args = M.runPlan p args := by
  obtain ⟨c, -, rfl, horder, groups, hreached, rfl⟩ := Plan.exists_reached hp
  have hc : c.Proper := ⟨horder, applyAll_sound hf, applyAll_wired hf⟩
  refine ⟨fun i q hq => ?_, ?_⟩
  · unfold Plan.reused at hq
    dsimp only at hq
    split at hq
    · exact Plan.not_isNeededAfter_of_diesIn (Plan.mem_reusableBuffers hq).2.2.1
    · cases hq
  · have hrun : (c.finish groups).run .unset
        (M.segmentReusing (c.finish groups) shapes settings) args =
          (c.finish groups).run .unset (M.segment (c.finish groups)) args := by
      refine runGroups_congr (fun q hq xs => ?_) _
      have hg := List.mem_zipIdx_iff_getElem?.1 hq
      exact segmentReusing_eq hc hreached hg
        (hlast q.2 · (List.getElem?_eq_some_iff.1 hg).1) xs
    unfold runPlanReusing runPlan
    rw [hrun]

/-- A long vector negated, and its sum added to each element: the kernel of the reduction cannot
keep the vector, so a second one reads it. -/
def centered : List Call :=
  [.tensor [8193] [true] .int64, .input ⟨0⟩, .unary .neg (.value ⟨0⟩),
    .reduceFrom .add [0] (.int 0) ⟨4⟩, .broadcast ⟨6⟩ [true],
    .binary .add (.value ⟨4⟩) (.value ⟨9⟩), .output ⟨11⟩]

def longVector : Arguments :=
  ⟨[(⟨0⟩, .contiguous .int64 [8193])]⟩

def aliasing : Settings where
  segmentAliasing := true

theorem centered_reuses : ∃ f p, applyAll Schedule.replay centered {} = some f ∧
    Plan.make f longVector = .ok p ∧ p.reused longVector aliasing 1 = [(⟨11⟩, ⟨4⟩)] ∧
      p.isNeededAfter 1 ⟨4⟩ = false ∧
        summing.runPlanReusing p longVector aliasing [7] = summing.runPlan p [7] := by
  have hrun : (applyAll Schedule.replay centered {}).any (fun f =>
      (Plan.make f longVector).toOption.any fun p =>
        p.reused longVector aliasing 1 == [(⟨11⟩, ⟨4⟩)] &&
          (List.range p.groups.length).all fun i => (p.segmentFusion i).toOption.all fun s =>
            decide (s.OverwritesLast (p.reused longVector aliasing i))) = true := by
    cbv
  obtain ⟨f, hf, hrun⟩ := (Option.any_eq_true _ _).1 hrun
  obtain ⟨p, hp, hrun⟩ := (Option.any_eq_true _ _).1 hrun
  obtain ⟨hpairs, hlast⟩ := Bool.and_eq_true_iff.1 hrun
  have hpairs := eq_of_beq hpairs
  have hp := Results.ok_of_toOption hp
  have hlast : ∀ i s, i < p.groups.length → p.segmentFusion i = .ok s →
      s.OverwritesLast (p.reused longVector aliasing i) := by
    intro i s hi hs
    have hone := List.all_eq_true.1 hlast i (List.mem_range.2 hi)
    rw [hs] at hone
    exact of_decide_eq_true hone
  obtain ⟨hneeded, hsame⟩ := runPlanReusing_eq (M := summing) hf hp hlast [7]
  exact ⟨f, p, hf, hp, hpairs, hneeded 1 (⟨11⟩, ⟨4⟩) (by simp [hpairs]), hsame⟩

/-- The sum is added and subtracted: the second kernel reads the vector after it has stored the
first result over it. -/
def centeredTwice : List Call :=
  centered ++ [.binary .sub (.value ⟨4⟩) (.value ⟨9⟩), .output ⟨13⟩]

theorem centeredTwice_overwritten : ∃ f p, applyAll Schedule.replay centeredTwice {} = some f ∧
    Plan.make f longVector = .ok p ∧ p.reused longVector aliasing 1 = [(⟨11⟩, ⟨4⟩)] ∧
      (∃ s, p.segmentFusion 1 = .ok s ∧ ¬ s.OverwritesLast [(⟨11⟩, ⟨4⟩)]) ∧
        summing.runPlan p [7] = .ok [14, 14] ∧
          summing.runPlanReusing p longVector aliasing [7] = .ok [14, 21] := by
  have hrun : (applyAll Schedule.replay centeredTwice {}).any (fun f =>
      (Plan.make f longVector).toOption.any fun p =>
        p.reused longVector aliasing 1 == [(⟨11⟩, ⟨4⟩)] &&
          (p.segmentFusion 1).toOption.any (fun s => !decide (s.OverwritesLast [(⟨11⟩, ⟨4⟩)])) &&
            (summing.runPlan p [7]).toOption == some [14, 14] &&
              (summing.runPlanReusing p longVector aliasing [7]).toOption ==
                some [14, 21]) = true := by
    cbv
  obtain ⟨f, hf, hrun⟩ := (Option.any_eq_true _ _).1 hrun
  obtain ⟨p, hp, hrun⟩ := (Option.any_eq_true _ _).1 hrun
  simp only [Bool.and_eq_true, beq_iff_eq] at hrun
  obtain ⟨⟨⟨hpairs, hlast⟩, hplain⟩, hreusing⟩ := hrun
  obtain ⟨s, hs, hlast⟩ := (Option.any_eq_true _ _).1 hlast
  exact ⟨f, p, hf, Results.ok_of_toOption hp, hpairs, ⟨s, Results.ok_of_toOption hs,
    by simpa using hlast⟩, Results.ok_of_toOption hplain, Results.ok_of_toOption hreusing⟩

end Plans

end Meaning
end FusionCompiler
