import FusionCompiler.Proofs.Schedule.OwningStages
import FusionCompiler.Proofs.Schedule.RootMaps

/-!
# Reduction axes and what is computed from a reduction

The results of a reduction share their axes, and the last of them owns the
reduction axes in the root map: live tensors are listed in the order of their
expressions, and no tensor of another expression has one of these axes.  So a
reduction axis is kept from all that is computed from the last result.  If the
reduction is not live, the root map does not know its axes at all.

What is computed only from an earlier result of a reduction to moments is not
kept from the reduction axes.

Main results:

- Theorem `Fusion.allTensors_split`: after the last result of a live expression
  the list of tensors has no result of the expression.
- Theorem `RootMap.owner_of_live`: the last result owns the reduction axes.
- Theorem `RootMap.canMap_of_unknown`: an axis that is not known maps to itself
  only.
- Theorem `RootMap.canMap_reduced`: no reduction axis maps to another axis of a
  tensor computed from the last result of its reduction.
-/

namespace FusionCompiler
namespace Fusion

variable {f : Fusion} {u v r o : ValueId} {e : ExprId}

/-! ## Tensors in the order of their expressions -/

theorem foldl_addNew_eq {α : Type} [BEq α] [LawfulBEq α] (l acc : List α) :
    ∃ post, l.foldl addNew acc = acc ++ post ∧ ∀ x ∈ post, x ∈ l ∧ x ∉ acc := by
  induction l generalizing acc with
  | nil => exact ⟨[], by simp⟩
  | cons y l ih =>
      obtain ⟨post, heq, hpost⟩ := ih (addNew acc y)
      rw [List.foldl_cons, heq]
      by_cases hy : y ∈ acc
      · have hsame : addNew acc y = acc := if_pos (by simpa using hy)
        rw [hsame] at hpost ⊢
        exact ⟨post, rfl, fun x hx => ⟨List.mem_cons_of_mem y (hpost x hx).1, (hpost x hx).2⟩⟩
      · have hnew : addNew acc y = acc ++ [y] := if_neg (by simpa using hy)
        rw [hnew] at hpost ⊢
        refine ⟨y :: post, by simp, fun x hx => ?_⟩
        rcases List.mem_cons.1 hx with rfl | hx
        · exact ⟨List.mem_cons_self, hy⟩
        · obtain ⟨hmem, hnot⟩ := hpost x hx
          exact ⟨List.mem_cons_of_mem y hmem, fun h => hnot (List.mem_append_left _ h)⟩

/-- A result of an expression is neither an input nor met before the expression. -/
theorem not_met_before (hf : Sound f) (hw : Wired f) {before after : List ExprId}
    (hlist : f.liveExprs = before ++ e :: after) (hv : f.definition v = some e) :
    v ∉ f.inputs ++ before.flatMap fun d => (f.expr d).inputs ++ (f.expr d).outputs := by
  obtain ⟨horder, hnodup⟩ := (hw.founded hf).liveExprs_inOrder
  have hnot : e ∉ before := by
    rw [hlist, List.nodup_append] at hnodup
    exact fun hmem => hnodup.2.2 e hmem e List.mem_cons_self rfl
  intro hmem
  rcases List.mem_append.1 hmem with hinput | hmem
  · rw [(hw.inputs v hinput).2] at hv
    cases hv
  obtain ⟨d, hd, hmem⟩ := List.mem_flatMap.1 hmem
  rcases List.mem_append.1 hmem with hin | hout
  · obtain ⟨pre, post, hbefore⟩ := List.append_of_mem hd
    have hsplit : f.liveExprs = pre ++ d :: (post ++ e :: after) := by
      rw [hlist, hbefore]
      simp
    have he := horder pre d _ hsplit e ⟨v, hin, hv⟩
    exact hnot (hbefore ▸ List.mem_append_left _ he)
  · have hdef := hw.definition_eq hout
    rw [hv] at hdef
    cases hdef
    exact hnot hd

/-- After the last result of a live expression, no result of the expression is listed. -/
theorem allTensors_split (hf : Sound f) (hw : Wired f) (hlive : e ∈ f.liveExprs)
    (hnodup : (f.expr e).outputs.Nodup) (ho : (f.expr e).outputs.getLast? = some o)
    (hot : f.isTensor o = true) : ∃ pre post, f.allTensors = pre ++ o :: post ∧
      ∀ v ∈ post, v ∉ (f.expr e).outputs := by
  obtain ⟨front, hfront⟩ := List.getLast?_eq_some_iff.1 ho
  obtain ⟨before, after, hlist⟩ := List.append_of_mem hlive
  have hresult : o ∈ (f.expr e).outputs := by
    rw [hfront]
    simp
  have hdef := hw.definition_eq hresult
  let met := f.inputs ++ (before.flatMap fun d => (f.expr d).inputs ++ (f.expr d).outputs) ++
    (f.expr e).inputs ++ front
  have hnew : o ∉ met := by
    have hoperand : o ∉ (f.expr e).inputs := by
      intro hin
      obtain ⟨rank, hrank⟩ := hw.ranked
      obtain ⟨x, hx, hmem⟩ := hf.defined o e hdef
      rw [expr, hx] at hin
      exact Nat.lt_irrefl _ (hrank e x hx o hin o hmem)
    have hother : o ∉ front := by
      rw [hfront, List.nodup_append] at hnodup
      exact fun hmem => hnodup.2.2 o hmem o List.mem_cons_self rfl
    simp only [met, List.mem_append, not_or]
    have hbefore := not_met_before hf hw hlist hdef
    rw [List.mem_append, not_or] at hbefore
    exact ⟨⟨hbefore, hoperand⟩, hother⟩
  have hall : f.allTensors = ((met.filter f.isTensor) ++ o :: (after.flatMap fun d =>
      (f.expr d).inputs ++ (f.expr d).outputs).filter f.isTensor).foldl addNew [] := by
    have hflat : f.inputs ++ f.liveExprs.flatMap (fun d => (f.expr d).inputs ++ (f.expr d).outputs) =
        met ++ o :: after.flatMap fun d => (f.expr d).inputs ++ (f.expr d).outputs := by
      simp [met, hlist, hfront]
    unfold allTensors
    dsimp only
    rw [hflat, List.filter_append, List.filter_cons_of_pos hot]
  have hadd : addNew ((met.filter f.isTensor).foldl addNew []) o =
      (met.filter f.isTensor).foldl addNew [] ++ [o] := by
    refine if_neg fun hmem => hnew ?_
    have hmem : o ∈ (met.filter f.isTensor).foldl addNew [] := by simpa using hmem
    rw [mem_foldl_addNew] at hmem
    exact (List.mem_filter.1 (hmem.resolve_left (List.not_mem_nil))).1
  obtain ⟨post, heq, hpost⟩ := foldl_addNew_eq ((after.flatMap fun d =>
    (f.expr d).inputs ++ (f.expr d).outputs).filter f.isTensor)
    ((met.filter f.isTensor).foldl addNew [] ++ [o])
  refine ⟨(met.filter f.isTensor).foldl addNew [], post, ?_, fun v hv hout => ?_⟩
  · rw [hall, List.foldl_append, List.foldl_cons, hadd, heq]
    simp
  · obtain ⟨hmem, hnot⟩ := hpost v hv
    refine hnot ?_
    rw [hfront] at hout
    rcases List.mem_append.1 hout with hout | hout
    · refine List.mem_append_left _ (mem_foldl_addNew.2 (.inr (List.mem_filter.2 ⟨?_, ?_⟩)))
      · exact List.mem_append_right _ hout
      · exact (List.mem_filter.1 hmem).2
    · exact List.mem_append_right _ hout

/-- A result that takes part belongs to a live expression. -/
theorem live_of_mem_allTensors (hf : Sound f) (hw : Wired f) (hv : v ∈ f.allTensors)
    (hdef : f.definition v = some e) : e ∈ f.liveExprs := by
  obtain ⟨hmet, -⟩ := mem_allTensors.1 hv
  rcases hmet with hinput | ⟨d, hd, hin | hout⟩
  · rw [(hw.inputs v hinput).2] at hdef
    cases hdef
  · obtain ⟨horder, -⟩ := (hw.founded hf).liveExprs_inOrder
    obtain ⟨pre, post, hlist⟩ := List.append_of_mem hd
    rw [hlist]
    exact List.mem_append_left _ (horder pre d post hlist e ⟨v, hin, hdef⟩)
  · have hown := hw.definition_eq hout
    rw [hdef] at hown
    cases hown
    exact hd

/-- Values of which the first is a result are kin just if both are results of its expression. -/
theorem Kin.mem_outputs (h : f.Kin u v) (hcomputed : Computed f) (hu : u ∈ (f.expr e).outputs) :
    v ∈ (f.expr e).outputs := by
  rcases h with rfl | ⟨d, hud, hvd⟩
  · exact hu
  · rw [(hcomputed.defines u e).2 hu] at hud
    cases hud
    exact (hcomputed.defines v e).1 hvd

end Fusion

namespace RootMap

open Fusion DisjointSets

variable {f : Fusion} {a j : AxisId} {r s t o : ValueId} {e : ExprId}

/-! ## Axes that are not known -/

theorem mem_resolutions_of_resolvedClass {m : RootMap} {c : AxisId}
    (h : m.resolvedClass? a = some c) : ∃ x ∈ m.resolutions, c = m.sets.find x.2 := by
  unfold resolvedClass? at h
  dsimp only at h
  split at h
  · cases h
  case h_2 d rest hmet =>
      split at h
      · obtain rfl := Option.some.inj h
        have hmem : d ∈ ((m.sets.members a).flatMap fun x =>
            (m.resolutions.filter (·.1 == x)).map (·.2)).map m.sets.find := by
          rw [hmet]
          exact List.mem_cons_self
        obtain ⟨y, hy, rfl⟩ := List.mem_map.1 hmem
        obtain ⟨x, -, hx⟩ := List.mem_flatMap.1 hy
        obtain ⟨z, hz, rfl⟩ := List.mem_map.1 hx
        exact ⟨z, (List.mem_filter.1 hz).1, rfl⟩
      · cases h

/-- No class but its own has the name of an axis that is not known. -/
theorem find_eq_iff_of_unknown (ha : a ∉ knownAxes f) {x : AxisId} :
    (RootMap.build f).sets.find x = a ↔ x = a := by
  have hR : Equivalence fun x y : AxisId => x = y ∨ x ≠ a ∧ y ≠ a := by
    constructor
    · intro x
      exact .inl rfl
    · rintro x y (rfl | ⟨hx, hy⟩)
      · exact .inl rfl
      · exact .inr ⟨hy, hx⟩
    · rintro x y z (rfl | ⟨hx, hy⟩) (rfl | ⟨hy', hz⟩)
      · exact .inl rfl
      · exact .inr ⟨hy', hz⟩
      · exact .inr ⟨hx, hy⟩
      · exact .inr ⟨hx, hz⟩
  have hwithin : Within (fun x y => x = y ∨ x ≠ a ∧ y ≠ a) (RootMap.build f).sets := by
    refine build_within hR fun p hp _ => .inr ?_
    obtain ⟨hfirst, hsecond⟩ := known_of_mem_allPairs hp
    constructor
    · rintro rfl
      exact ha hfirst
    · rintro rfl
      exact ha hsecond
  rcases hwithin.find hR x with heq | ⟨hx, hfind⟩
  · rw [← heq]
  · exact ⟨fun h => absurd h hfind, fun h => absurd h hx⟩

theorem resolvedClass_ne_of_unknown (ha : a ∉ knownAxes f) :
    (RootMap.build f).resolvedClass? j ≠ some a := by
  intro h
  obtain ⟨x, hx, hfind⟩ := mem_resolutions_of_resolvedClass h
  have hsecond := (find_eq_iff_of_unknown ha).1 hfind.symm
  rcases mem_build_resolutions hx with hp | hp
  · exact ha (hsecond ▸ (known_of_mem_allPairs hp).2)
  · exact ha (hsecond ▸ (known_of_mem_allPairs hp).1)

/-- An axis that is not known maps to itself only. -/
theorem canMap_of_unknown (ha : a ∉ knownAxes f) (hj : j ≠ a) :
    (RootMap.build f).canMap s a t j = false ∧ (RootMap.build f).canMap t j s a = false := by
  have hfind : (RootMap.build f).sets.find a = a := (find_eq_iff_of_unknown ha).2 rfl
  have hother : (RootMap.build f).sets.find j ≠ a := fun h => hj ((find_eq_iff_of_unknown ha).1 h)
  have hbroadcast : (RootMap.build f).broadcasts.contains a = false := by
    rw [← Bool.not_eq_true, build_broadcasts]
    exact fun h => ha h.1
  have hresolved := resolvedClass_ne_of_unknown (f := f) (j := j) ha
  constructor
  · unfold canMap
    rw [if_neg hj.symm, hbroadcast, hfind]
    split
    · rfl
    · cases (RootMap.build f).broadcasts.contains j with
      | false => simp [DisjointSets.same, hfind, hj.symm, hother.symm]
      | true => simpa using hresolved
  · unfold canMap
    rw [if_neg hj, hbroadcast, hfind]
    split
    · rfl
    · cases (RootMap.build f).broadcasts.contains j with
      | false => simp [DisjointSets.same, hfind, hj, hother]
      | true => simpa using hresolved

/-! ## Reduction axes -/

/-- An axis does not map across the reduction that owns it. -/
theorem canMap_of_crossesReduction {m : RootMap} (h : m.crossesReduction a t = true) (hj : j ≠ a) :
    m.canMap s a t j = false ∧ m.canMap t j s a = false := by
  constructor
  · unfold canMap
    rw [if_neg hj.symm, h, Bool.true_or, if_pos rfl]
  · unfold canMap
    rw [if_neg hj, h, Bool.or_true, if_pos rfl]

/-- Only kin of a tensor list an axis of its root. -/
theorem kin_of_mem_tensorAxes (hown : OwnAxes f []) (ha : a ∈ (f.view r).domain.root)
    (hlisted : a ∈ tensorAxes f s) : f.Kin r s := by
  rcases mem_tensorAxes.1 hlisted with hroot | hlogical
  · exact hown.apart r s a ha hroot
  · exact hown.kin_of_mem_logical ha hlogical

/-- The last result of a live reduction owns its reduction axes. -/
theorem owner_of_live (hf : Regular f) (hown : OwnAxes f []) (hr : r ∈ (f.expr e).outputs)
    (hlive : e ∈ f.liveExprs) (hkind : (f.expr e).kind.isReduction = true)
    (ha : a ∈ (f.view r).domain.root) (hred : (f.axis a).isReduction = true)
    (ho : (f.expr e).outputs.getLast? = some o) (hot : f.isTensor o = true) :
    owner? f a = some o := by
  have hresult : o ∈ (f.expr e).outputs := List.mem_of_getLast? ho
  obtain ⟨pre, post, hall, hpost⟩ :=
    allTensors_split hf.sound hf.wired hlive (hown.computed.distinct e) ho hot
  have hlast : a ∈ ownedAxes f o := by
    have hreduction : f.isReductionTensor o = true := by
      rw [isReductionTensor, definingExpr?, hf.wired.definition_eq hresult]
      exact hkind
    have hview : f.view o = f.view r := hf.allShare.expr hr hresult
    rw [ownedAxes, hreduction, if_neg (by simp), List.mem_filter, mem_tensorAxes, hview]
    exact ⟨.inl ha, hred⟩
  have hlater : ∀ v ∈ post, a ∉ ownedAxes f v := by
    intro v hv hmem
    have hkin := kin_of_mem_tensorAxes hown ha (mem_ownedAxes hmem).1
    exact hpost v hv (hkin.mem_outputs hown.computed hr)
  have hnone : post.reverse.find? (fun v => a ∈ ownedAxes f v) = none := by
    rw [List.find?_eq_none]
    intro v hv
    simpa using hlater v (List.mem_reverse.1 hv)
  rw [owner?, hall, List.reverse_append, List.reverse_cons, List.append_assoc, List.find?_append,
    hnone]
  simp [hlast]

/-- The axes of a tensor whose expression is not live are not known. -/
theorem not_mem_knownAxes (hf : Regular f) (hown : OwnAxes f []) (hr : r ∈ (f.expr e).outputs)
    (hdead : e ∉ f.liveExprs) (ha : a ∈ (f.view r).domain.root) : a ∉ knownAxes f := by
  intro hknown
  obtain ⟨v, hv, hmem⟩ := List.mem_flatMap.1 hknown
  have hresult := (kin_of_mem_tensorAxes hown ha hmem).mem_outputs hown.computed hr
  exact hdead (live_of_mem_allTensors hf.sound hf.wired hv (hf.wired.definition_eq hresult))

/-- No reduction axis maps to another axis of a tensor computed from the last result of its
reduction. -/
theorem canMap_reduced {calls : List Call} (h : applyAll Schedule.replay calls {} = some f)
    (hdef : f.definition r = some e) (hkind : (f.expr e).kind.isReduction = true)
    (ha : a ∈ (f.view r).domain.root) (hred : (f.axis a).isReduction = true)
    (ho : (f.expr e).outputs.getLast? = some o) (hleads : f.Leads o t) (hj : j ≠ a) :
    (RootMap.build f).canMap r a t j = false ∧ (RootMap.build f).canMap t j r a = false := by
  have hf := applyAll_regular h
  have hown := applyAll_ownAxes h
  have hr := (hown.computed.defines r e).1 hdef
  by_cases hlive : e ∈ f.liveExprs
  · have hot : f.isTensor o = true := by
      obtain ⟨w, hw, -⟩ := Relation.TransGen.head'_iff.1 hleads
      exact (mem_producers.1 hw).elim fun _ hx => hx.2.2
    obtain ⟨rank, hrank⟩ := hf.wired.ranked
    have hne : o ≠ t := by
      rintro rfl
      exact Nat.lt_irrefl _ (hleads.rank_lt hrank hf.sound)
    refine canMap_of_crossesReduction (crossesReduction_build.2 ⟨o, ?_, hne, ?_⟩) hj
    · exact owner_of_live hf hown hr hlive hkind ha hred ho hot
    · exact (mem_downstream hf.sound hf.wired hot).2 hleads
  · exact canMap_of_unknown (not_mem_knownAxes hf hown hr hlive ha) hj

/-- A matrix from which the sums of its rows are subtracted. -/
def centeredBySum : List Call :=
  [.tensor [3, 4] [true, true] .float, .input ⟨0⟩, .reduce .add ⟨0⟩ [1],
    .broadcast ⟨7⟩ [false, true], .binary .sub (.value ⟨0⟩) (.value ⟨11⟩), .output ⟨14⟩]

theorem centeredBySum_canMap : ∃ f, applyAll Schedule.replay centeredBySum {} = some f ∧
    (f.view ⟨7⟩).domain.root = [⟨2⟩, ⟨3⟩] ∧ (f.view ⟨14⟩).domain.root = [⟨6⟩, ⟨7⟩] ∧
    (RootMap.build f).canMap ⟨7⟩ ⟨3⟩ ⟨14⟩ ⟨7⟩ = false ∧
    (RootMap.build f).canMap ⟨14⟩ ⟨7⟩ ⟨7⟩ ⟨3⟩ = false := by
  have hrun : (applyAll Schedule.replay centeredBySum {}).any (fun f => decide (
      f.definition ⟨7⟩ = some ⟨0⟩ ∧ (f.expr ⟨0⟩).kind.isReduction = true ∧
      (f.view ⟨7⟩).domain.root = [⟨2⟩, ⟨3⟩] ∧ (f.axis ⟨3⟩).isReduction = true ∧
      (f.expr ⟨0⟩).outputs.getLast? = some ⟨7⟩ ∧ (f.view ⟨14⟩).domain.root = [⟨6⟩, ⟨7⟩] ∧
      ⟨7⟩ ∈ f.producers ⟨11⟩ ∧ ⟨11⟩ ∈ f.producers ⟨14⟩)) = true := by
    decide +kernel
  obtain ⟨f, hf, hfacts⟩ := (Option.any_eq_true _ _).1 hrun
  obtain ⟨hdef, hkind, hroot, hred, hlast, hother, hfirst, hsecond⟩ := of_decide_eq_true hfacts
  have hleads : f.Leads ⟨7⟩ ⟨14⟩ := .tail (.single hfirst) hsecond
  have haxis : (⟨3⟩ : AxisId) ∈ (f.view ⟨7⟩).domain.root := by
    rw [hroot]
    decide
  exact ⟨f, hf, hroot, hother,
    canMap_reduced hf hdef hkind haxis hred hlast hleads (by decide)⟩

/-- A matrix from which the means of its rows are subtracted.  The mean is the first of the three
results of its expression. -/
def centeredByMean : List Call :=
  [.tensor [3, 4] [true, true] .float, .input ⟨0⟩, .welford ⟨0⟩ [1],
    .broadcast ⟨7⟩ [false, true], .binary .sub (.value ⟨0⟩) (.value ⟨13⟩), .output ⟨16⟩]

/-- The axis that the mean reduces maps to an axis of the difference, which is computed from the
mean. -/
theorem centeredByMean_canMap : ∃ f, applyAll Schedule.replay centeredByMean {} = some f ∧
    (∃ e, f.definition ⟨7⟩ = some e ∧ (f.expr e).kind.isReduction = true) ∧
    (⟨3⟩ : AxisId) ∈ (f.view ⟨7⟩).domain.root ∧ (f.axis ⟨3⟩).isReduction = true ∧
    f.Leads ⟨7⟩ ⟨16⟩ ∧ (⟨7⟩ : AxisId) ∈ (f.view ⟨16⟩).domain.root ∧
    (RootMap.build f).canMap ⟨7⟩ ⟨3⟩ ⟨16⟩ ⟨7⟩ = true ∧
    (RootMap.build f).canMap ⟨16⟩ ⟨7⟩ ⟨7⟩ ⟨3⟩ = true := by
  have hrun : (applyAll Schedule.replay centeredByMean {}).any (fun f => decide (
      f.definition ⟨7⟩ = some ⟨0⟩ ∧ (f.expr ⟨0⟩).kind.isReduction = true ∧
      (⟨3⟩ : AxisId) ∈ (f.view ⟨7⟩).domain.root ∧ (f.axis ⟨3⟩).isReduction = true ∧
      ⟨7⟩ ∈ f.producers ⟨13⟩ ∧ ⟨13⟩ ∈ f.producers ⟨16⟩ ∧
      (⟨7⟩ : AxisId) ∈ (f.view ⟨16⟩).domain.root ∧
      (RootMap.build f).canMap ⟨7⟩ ⟨3⟩ ⟨16⟩ ⟨7⟩ = true ∧
      (RootMap.build f).canMap ⟨16⟩ ⟨7⟩ ⟨7⟩ ⟨3⟩ = true)) = true := by
    decide +kernel
  obtain ⟨f, hf, hfacts⟩ := (Option.any_eq_true _ _).1 hrun
  obtain ⟨hdef, hkind, haxis, hred, hfirst, hsecond, hother, hmaps⟩ := of_decide_eq_true hfacts
  exact ⟨f, hf, ⟨⟨0⟩, hdef, hkind⟩, haxis, hred, .tail (.single hfirst) hsecond, hother, hmaps⟩

end RootMap
end FusionCompiler
