import Mathlib.Algebra.BigOperators.Group.Finset.Basic
import Mathlib.Algebra.BigOperators.Intervals
import Mathlib.Logic.Relation
import FusionCompiler.Proofs.Fusion.Ordering

/-!
# What is computed from a tensor

The search for everything downstream of a tensor keeps a list of tensors that it
has seen and a list of tensors to visit.  Every step takes one tensor off the
second list, and a tensor that is seen for the first time adds its consumers to
it.  So the steps that remain are bounded by the tensors to visit together with
the consumers of all values that have not been seen.

Main results:

- Theorem `Fusion.mem_consumers`: in a wired fusion a tensor consumes another one
  just if it has it among its producers.
- Theorem `Fusion.mem_downstream`: the tensors downstream of a tensor are those
  that are computed from it over any number of expressions.
- Theorem `Fusion.Leads.rank_lt`: the rank grows on the way.
-/

namespace FusionCompiler
namespace Fusion

variable {f : Fusion} {u v w : ValueId}

/-- The second value is computed from the first one, over any number of expressions. -/
def Leads (f : Fusion) : ValueId → ValueId → Prop :=
  Relation.TransGen fun u v => u ∈ f.producers v

/-! ## Consumers -/

theorem mem_consumers_iff : w ∈ f.consumers v ↔
    (∃ e ∈ f.uses v, w ∈ (f.expr e).outputs) ∧ f.isTensor w = true := by
  unfold consumers
  rw [mem_foldl_addNew, List.mem_filter, List.mem_flatMap]
  simp only [List.not_mem_nil, false_or, List.mem_mergeSort]

/-- The definition of a tensor reads what the tensor consumes. -/
theorem mem_consumers (hf : Sound f) (hw : Wired f) (hv : f.isTensor v = true) :
    w ∈ f.consumers v ↔ v ∈ f.producers w := by
  rw [mem_consumers_iff, mem_producers]
  constructor
  · rintro ⟨⟨e, he, hmem⟩, -⟩
    obtain ⟨x, hx, hin⟩ := hf.used v e he
    have hexpr : f.expr e = x := by
      rw [expr, hx]
      rfl
    rw [hexpr] at hmem
    refine ⟨x, ?_, hin, hv⟩
    rw [definingExpr?, hw.defines e x hx w hmem, Option.map_some, hexpr]
  · rintro ⟨x, hx, hin, -⟩
    obtain ⟨e, hdef, rfl⟩ := Option.map_eq_some_iff.1 hx
    obtain ⟨y, hy, hmem⟩ := hf.defined w e hdef
    have hexpr : f.expr e = y := by
      rw [expr, hy]
      rfl
    rw [hexpr] at hin
    refine ⟨⟨e, hw.reads e y hy v hin, hexpr ▸ hmem⟩, ?_⟩
    exact (hf.exprs e y hy).isTensor_outputs (.inl hin) hv w hmem

/-- The rank grows from the producers of a value to the value. -/
theorem Ranked.lt_of_mem_producers {rank : ValueId → Nat} (hrank : f.Ranked rank) (hf : Sound f)
    (h : u ∈ f.producers v) : rank u < rank v := by
  obtain ⟨x, hx, hin, -⟩ := mem_producers.1 h
  obtain ⟨e, hdef, rfl⟩ := Option.map_eq_some_iff.1 hx
  obtain ⟨y, hy, hmem⟩ := hf.defined v e hdef
  rw [expr, hy] at hin
  exact hrank e y hy u hin v hmem

/-- The rank grows on the way from a value to what is computed from it. -/
theorem Leads.rank_lt {rank : ValueId → Nat} (h : f.Leads u v) (hrank : f.Ranked rank)
    (hf : Sound f) : rank u < rank v := by
  induction h with
  | single h => exact hrank.lt_of_mem_producers hf h
  | tail _ h ih => exact Nat.lt_trans ih (hrank.lt_of_mem_producers hf h)

/-! ## The search -/

/-- The consumers of all values that have not been seen. -/
def pending (f : Fusion) (seen : List ValueId) : Nat :=
  ∑ i ∈ Finset.range f.values.size with ⟨i⟩ ∉ seen, (f.consumers ⟨i⟩).length

theorem consumers_of_not_hasValue (h : ¬ f.HasValue v) : f.consumers v = [] := by
  have huses : f.uses v = [] := by
    rw [uses, value_of_not_hasValue h]
    rfl
  rw [List.eq_nil_iff_forall_not_mem]
  intro w hw
  obtain ⟨⟨e, he, -⟩, -⟩ := mem_consumers_iff.1 hw
  rw [huses] at he
  cases he

/-- A value that is seen for the first time is pending no longer. -/
theorem pending_cons {seen : List ValueId} (hv : v ∉ seen) :
    (f.consumers v).length + f.pending (v :: seen) = f.pending seen := by
  unfold pending
  have herase : (Finset.range f.values.size).filter (fun i => (⟨i⟩ : ValueId) ∉ v :: seen) =
      ((Finset.range f.values.size).filter fun i => (⟨i⟩ : ValueId) ∉ seen).erase v.index := by
    ext i
    have hindex : (⟨i⟩ : ValueId) = v ↔ i = v.index := by
      cases v
      simp
    simp only [Finset.mem_filter, Finset.mem_erase, List.mem_cons, not_or, hindex, ne_eq]
    tauto
  rw [herase]
  by_cases hhas : f.HasValue v
  · exact Finset.add_sum_erase _ (fun i => (f.consumers ⟨i⟩).length)
      (Finset.mem_filter.2 ⟨Finset.mem_range.2 hhas, hv⟩)
  · rw [consumers_of_not_hasValue hhas, Finset.erase_eq_of_notMem]
    · simp
    · intro hmem
      exact hhas (Finset.mem_range.1 (Finset.mem_filter.1 hmem).1)

/-- The search has enough steps. -/
theorem pending_lt_fuel (f : Fusion) : f.pending [] < f.downstreamFuel := by
  have hfold : ∀ n c, (List.range n).foldl (fun n i => n + (f.consumers ⟨i⟩).length) c =
      c + ∑ i ∈ Finset.range n, (f.consumers ⟨i⟩).length := by
    intro n c
    induction n with
    | zero => simp
    | succ n ih =>
        rw [List.range_succ, List.foldl_append, ih, Finset.sum_range_succ]
        simp only [List.foldl_cons, List.foldl_nil]
        omega
  have hall : (Finset.range f.values.size).filter (fun i => (⟨i⟩ : ValueId) ∉ []) =
      Finset.range f.values.size := by
    simp
  rw [downstreamFuel, hfold, pending, hall]
  omega

/-- With enough steps the search sees all that it is to visit, and what consumes it. -/
theorem collectDownstream_complete {fuel : Nat} {seen work : List ValueId}
    (hfuel : work.length + f.pending seen ≤ fuel)
    (hclosed : ∀ v ∈ seen, ∀ w ∈ f.consumers v, w ∈ seen ∨ w ∈ work) :
    (∀ v, v ∈ seen ∨ v ∈ work → v ∈ f.collectDownstream fuel seen work) ∧
      ∀ v ∈ f.collectDownstream fuel seen work, ∀ w ∈ f.consumers v,
        w ∈ f.collectDownstream fuel seen work := by
  induction fuel generalizing seen work with
  | zero =>
      have hwork : work = [] := List.length_eq_zero_iff.1 (by omega)
      subst hwork
      simpa [collectDownstream] using hclosed
  | succ fuel ih =>
      cases work with
      | nil => simpa [collectDownstream] using hclosed
      | cons v work =>
          rw [List.length_cons] at hfuel
          by_cases hv : v ∈ seen
          · have hstep : f.collectDownstream (fuel + 1) seen (v :: work) =
                f.collectDownstream fuel seen work := by
              rw [collectDownstream, if_pos (by simpa using hv)]
            have hrest : ∀ w, w ∈ seen ∨ w ∈ v :: work → w ∈ seen ∨ w ∈ work := by
              rintro w (hw | hw)
              · exact .inl hw
              · rcases List.mem_cons.1 hw with rfl | hw
                · exact .inl hv
                · exact .inr hw
            have hrounds : work.length + f.pending seen ≤ fuel := by omega
            obtain ⟨hall, hnext⟩ := ih hrounds
              fun u hu w hw => hrest w (hclosed u hu w hw)
            rw [hstep]
            exact ⟨fun w hw => hall w (hrest w hw), hnext⟩
          · have hstep : f.collectDownstream (fuel + 1) seen (v :: work) =
                f.collectDownstream fuel (v :: seen) (work ++ f.consumers v) := by
              rw [collectDownstream, if_neg (by simpa using hv)]
            have hrest : ∀ w, w ∈ seen ∨ w ∈ v :: work → w ∈ v :: seen ∨ w ∈ work ++ f.consumers v := by
              intro w hw
              simp only [List.mem_cons, List.mem_append] at hw ⊢
              tauto
            have hpending := pending_cons (f := f) hv
            have hrounds : (work ++ f.consumers v).length + f.pending (v :: seen) ≤ fuel := by
              rw [List.length_append]
              omega
            obtain ⟨hall, hnext⟩ := ih hrounds fun u hu w hw => by
                rcases List.mem_cons.1 hu with rfl | hu
                · exact .inr (List.mem_append_right _ hw)
                · exact hrest w (hclosed u hu w hw)
            rw [hstep]
            exact ⟨fun w hw => hall w (hrest w hw), hnext⟩

/-- The search sees nothing but what it is to visit and what is computed from that. -/
theorem collectDownstream_sound {fuel : Nat} {seen work : List ValueId}
    (h : v ∈ f.collectDownstream fuel seen work) :
    v ∈ seen ∨ ∃ u ∈ work, Relation.ReflTransGen (fun u v => v ∈ f.consumers u) u v := by
  induction fuel generalizing seen work with
  | zero => exact .inl h
  | succ fuel ih =>
      cases work with
      | nil => exact .inl h
      | cons u work =>
          unfold collectDownstream at h
          split at h
          · rcases ih h with hv | ⟨w, hw, hpath⟩
            · exact .inl hv
            · exact .inr ⟨w, List.mem_cons_of_mem u hw, hpath⟩
          · rcases ih h with hv | ⟨w, hw, hpath⟩
            · rcases List.mem_cons.1 hv with rfl | hv
              · exact .inr ⟨v, List.mem_cons_self, .refl⟩
              · exact .inl hv
            · rcases List.mem_append.1 hw with hw | hw
              · exact .inr ⟨w, List.mem_cons_of_mem u hw, hpath⟩
              · exact .inr ⟨u, List.mem_cons_self, .head hw hpath⟩

/-- What is computed from a tensor is reached from consumer to consumer. -/
theorem leads_iff (hf : Sound f) (hw : Wired f) (hu : f.isTensor u = true) :
    f.Leads u v ↔ Relation.TransGen (fun u v => v ∈ f.consumers u) u v := by
  constructor
  · intro h
    induction h with
    | single h => exact .single ((mem_consumers hf hw hu).2 h)
    | tail _ h ih =>
        obtain ⟨-, -, -, ht⟩ := mem_producers.1 h
        exact ih.tail ((mem_consumers hf hw ht).2 h)
  · intro h
    have hboth : f.Leads u v ∧ f.isTensor v = true := by
      induction h with
      | single h => exact ⟨.single ((mem_consumers hf hw hu).1 h), (mem_consumers_iff.1 h).2⟩
      | tail _ h ih => exact ⟨ih.1.tail ((mem_consumers hf hw ih.2).1 h), (mem_consumers_iff.1 h).2⟩
    exact hboth.1

/-- The tensors downstream of a tensor are those that are computed from it. -/
theorem mem_downstream (hf : Sound f) (hw : Wired f) (hu : f.isTensor u = true) :
    v ∈ f.downstream u ↔ f.Leads u v := by
  rw [leads_iff hf hw hu, Relation.TransGen.head'_iff]
  constructor
  · intro h
    rcases collectDownstream_sound h with hv | hpath
    · cases hv
    · exact hpath
  · rintro ⟨w, hstart, hpath⟩
    have hfuel := f.pending_lt_fuel
    have hrounds : (f.consumers u).length + f.pending [] ≤
        f.downstreamFuel + (f.consumers u).length := by omega
    obtain ⟨hall, hnext⟩ := collectDownstream_complete hrounds (by simp)
    unfold downstream
    induction hpath with
    | refl => exact hall w (.inr hstart)
    | tail _ hstep ih => exact hnext _ ih _ hstep

end Fusion
end FusionCompiler
