import FusionCompiler.Proofs.Fusion.EqualScalars

/-!
# Later bindings

An evaluator is asked for values and told further ones in any order.  It keeps the
results it has found, those of intermediate scalars included, although they were
found while other scalars were still unknown.  A selection looks at one branch only,
so a kept result may even rest on an operand that has no value yet.

No kept result is ever out of date.  A scalar without a definition has no value
before it is bound, so nothing that was found rests on it, and binding it only adds
values.

Main results:

- Theorem `Fusion.valueWith_bind`: binding a free scalar keeps every value.
- Theorem `Fusion.graded_of_acyclic`: without cycles the evaluation of a scalar reads
  operands of lower rank only.
- Theorem `Fusion.answers_eq_freshAnswers`: an evaluator answers as if it had kept
  nothing but the bindings.
-/

namespace FusionCompiler
namespace Fusion

open Relation

variable {f : Fusion} {b b' : Bindings} {u v w : ValueId} {c d : Constant} {n : Nat}

/-! ## Values under more bindings -/

/-- The scalar gets its value from a binding: it is no literal, and nothing computes it. -/
structure IsFree (f : Fusion) (v : ValueId) : Prop where
  leaf : f.IsLeaf v
  undefined : f.definition v = none

/-- A free scalar has no value before it is bound. -/
theorem IsFree.valueWith_eq_none (h : f.IsFree v) (hunbound : b.get? v = none) :
    f.valueWith b n v = none := by
  have hdef : f.definingExpr? v = none := by rw [definingExpr?, h.undefined, Option.map_none]
  cases n with
  | zero => rfl
  | succ n =>
      rw [valueWith, valueFrom, hunbound, hdef]
      cases h.leaf with
      | input hkind | size hkind => rw [hkind]

/-- A scalar that has a value keeps it when its operands get more values. -/
theorem valueFrom_mono {g g' : ValueId → Option Constant} (hget : b'.get? v = b.get? v)
    (hmore : ∀ u d, g u = some d → g' u = some d) (h : f.valueFrom b g v = some c) :
    f.valueFrom b' g' v = some c := by
  unfold valueFrom at h ⊢
  rw [hget]
  cases hbound : b.get? v with
  | some d => rwa [hbound] at h
  | none =>
      rw [hbound] at h
      dsimp only at h ⊢
      cases hkind : (f.value v).kind with
      | tensor t => rwa [hkind] at h
      | scalar k =>
          rw [hkind] at h
          cases k with
          | const c => exact h
          | symbolic | tensorSize =>
              cases hdef : f.definingExpr? v with
              | none => rwa [hdef] at h
              | some e =>
                  rw [hdef] at h
                  dsimp only at h ⊢
                  cases hop : e.kind with
                  | unary op =>
                      rw [hop] at h
                      obtain ⟨x, hx, rfl⟩ := Option.map_eq_some_iff.1 h
                      simp only [hmore _ _ hx, Option.map_some]
                  | binary op =>
                      rw [hop] at h
                      obtain ⟨x, hx, h⟩ := Option.bind_eq_some_iff.1 h
                      obtain ⟨y, hy, h⟩ := Option.bind_eq_some_iff.1 h
                      simp only [hmore _ _ hx, hmore _ _ hy, Option.bind_some, h]
                  | select =>
                      rw [hop] at h
                      obtain ⟨x, hx, h⟩ := Option.bind_eq_some_iff.1 h
                      simp only [hmore _ _ hx, Option.bind_some, hmore _ _ h]
                  | _ => rwa [hop] at h

/-- Binding a free scalar keeps every value that there was without it. -/
theorem valueWith_bind (hfree : f.IsFree v) (hunbound : b.get? v = none)
    (h : f.valueWith b n w = some d) : f.valueWith (b.bind v c) n w = some d := by
  induction n generalizing w d with
  | zero => cases h
  | succ n ih =>
      by_cases hw : w = v
      · rw [hw, hfree.valueWith_eq_none hunbound] at h
        cases h
      · have hget : (b.bind v c).get? w = b.get? w := by rw [Bindings.get?_bind, if_neg hw]
        exact valueFrom_mono hget (fun _ _ => ih) h

/-! ## Operands that evaluations read -/

/-- The evaluation of a scalar reads an operand of its definition. -/
def Reads (f : Fusion) (u v : ValueId) : Prop :=
  f.isTensor v = false ∧ ∃ e, f.definingExpr? v = some e ∧ ∃ i < readOperands e.kind, e.input i = u

/-- In a sound fusion evaluations read older values only, so they never come back. -/
theorem Sound.not_transGen_reads (hf : Sound f) : ¬ TransGen f.Reads v v := by
  have holder : ∀ u w, TransGen f.Reads u w → u.index < w.index := by
    intro u w h
    have hstep : ∀ {x y}, f.Reads x y → x.index < y.index := by
      rintro x y ⟨hscalar, e, hdef, i, -, rfl⟩
      exact (hf.operand_older hscalar hdef i).2
    induction h with
    | single h => exact hstep h
    | tail _ h ih => exact Nat.lt_trans ih (hstep h)
  exact fun h => Nat.lt_irrefl _ (holder v v h)

open Classical in
/-- How many values the evaluation of a value may come upon, itself included. -/
noncomputable def reach (f : Fusion) (v : ValueId) : Nat :=
  (f.allValues.filter fun u => ReflTransGen f.Reads u v).card

/-- An operand comes upon fewer values than the result: it does not come upon the result. -/
theorem reach_lt (hacyclic : ∀ v, ¬ TransGen f.Reads v v) (h : f.Reads u v) :
    f.reach u < f.reach v := by
  classical
  have hv : f.HasValue v := by
    obtain ⟨-, e, hdef, -⟩ := h
    obtain ⟨d, hd, -⟩ := Option.map_eq_some_iff.1 hdef
    exact hasValue_of_definition hd
  apply Finset.card_lt_card
  rw [Finset.ssubset_iff_of_subset]
  · refine ⟨v, Finset.mem_filter.2 ⟨mem_allValues.2 hv, .refl⟩, fun hvu => ?_⟩
    exact hacyclic v (.tail' (Finset.mem_filter.1 hvu).2 h)
  · intro w hw
    rw [Finset.mem_filter] at hw ⊢
    exact ⟨hw.1, hw.2.tail h⟩

theorem reach_lt_size (f : Fusion) (v : ValueId) : f.reach v < f.values.size + 1 := by
  classical
  have hcard : f.allValues.card ≤ f.values.size := by
    simpa [allValues] using Finset.card_image_le (s := Finset.range f.values.size) (f := ValueId.mk)
  exact Nat.lt_succ_of_le ((Finset.card_filter_le _ _).trans hcard)

/-- Without cycles every value has a rank that grows from the operands that are read. -/
theorem graded_of_acyclic (hacyclic : ∀ v, ¬ TransGen f.Reads v v) :
    Graded f f.reach fun _ => True :=
  ⟨fun _ _ hscalar e hdef i hi => ⟨trivial, reach_lt hacyclic ⟨hscalar, e, hdef, i, hi, rfl⟩⟩⟩

/-! ## Evaluators -/

/-- What an evaluator is asked for or told. -/
inductive Request where
  | evaluate (v : ValueId)
  | bind (v : ValueId) (c : Constant)

/-- The scalars that requests bind, in order. -/
def boundBy : List Request → List ValueId
  | [] => []
  | .evaluate _ :: requests => boundBy requests
  | .bind v _ :: requests => v :: boundBy requests

/-- The answers of an evaluator that keeps what it finds. -/
def answers (f : Fusion) : Bindings → List Request → List (Option Constant)
  | _, [] => []
  | b, .bind v c :: requests => answers f (b.bind v c) requests
  | b, .evaluate v :: requests =>
    ((f.evaluate v).run b).1 :: answers f ((f.evaluate v).run b).2 requests

/-- The answers of evaluators that are made anew for each question, with the bindings so far. -/
def freshAnswers (f : Fusion) : Bindings → List Request → List (Option Constant)
  | _, [] => []
  | b, .bind v c :: requests => freshAnswers f (b.bind v c) requests
  | b, .evaluate v :: requests => ((f.evaluate v).run b).1 :: freshAnswers f b requests

/-- An evaluator that knows implied values only finds the value under the bindings, and still knows
implied values only. -/
theorem evaluate_finds (hacyclic : ∀ v, ¬ TransGen f.Reads v v) (b : Bindings) (v : ValueId) :
    Finds (f.termValue b) b (f.evaluate v) (f.termValue b v) :=
  have hg := graded_of_acyclic hacyclic
  hg.evaluateWith_finds (fun v _ => hg.valueWith_step trivial (f.reach_lt_size v)) trivial
    (f.reach_lt_size v)

theorem implied_refl (f : Fusion) (b : Bindings) : Implied (f.termValue b) b b :=
  .refl fun _ _ h => valueWith_of_get? h _

/-- What was implied before a free scalar is bound is implied afterwards. -/
theorem Implied.bindFree (h : Implied (f.termValue b) b b') (hfree : f.IsFree v)
    (hunbound : b.get? v = none) (c : Constant) :
    Implied (f.termValue (b.bind v c)) (b.bind v c) (b'.bind v c) where
  keeps w d hd := by
    rw [Bindings.get?_bind] at hd ⊢
    split at hd
    case isTrue hw => rwa [if_pos hw]
    case isFalse hw =>
      rw [if_neg hw]
      exact h.keeps w d hd
  implied w d hd := by
    by_cases hw : w = v
    · rw [Bindings.get?_bind, if_pos hw] at hd
      apply valueWith_of_get?
      rw [Bindings.get?_bind, if_pos hw, hd]
    · rw [Bindings.get?_bind, if_neg hw] at hd
      exact valueWith_bind hfree hunbound (h.implied w d hd)

/-- Started with implied values, an evaluator answers as if it started with the bindings. -/
theorem Implied.answers_eq (hacyclic : ∀ v, ¬ TransGen f.Reads v v) {requests : List Request}
    (h : Implied (f.termValue b) b b') (hfree : ∀ v ∈ boundBy requests, f.IsFree v)
    (honce : (boundBy requests).Nodup)
    (hunbound : ∀ v ∈ boundBy requests, b.get? v = none) :
    f.answers b' requests = f.freshAnswers b requests := by
  induction requests generalizing b b' with
  | nil => rfl
  | cons r requests ih =>
      cases r with
      | evaluate v =>
          have hfinds := evaluate_finds hacyclic b v
          obtain ⟨hkept, himplied⟩ := hfinds b' h
          have hfresh := (hfinds b (implied_refl f b)).1
          rw [answers, freshAnswers, hkept, hfresh, ih himplied hfree honce hunbound]
      | bind v c =>
          rw [boundBy] at hfree honce hunbound
          obtain ⟨hv, hfree⟩ := List.forall_mem_cons.1 hfree
          obtain ⟨hvb, hunbound⟩ := List.forall_mem_cons.1 hunbound
          obtain ⟨hnew, honce⟩ := List.nodup_cons.1 honce
          rw [answers, freshAnswers]
          refine ih (h.bindFree hv hvb c) hfree honce fun w hw => ?_
          have hne : w ≠ v := fun hwv => hnew (hwv ▸ hw)
          rw [Bindings.get?_bind, if_neg hne, hunbound w hw]

/-- In a fusion without cycles, whatever is asked and bound in whatever order, an evaluator that
keeps what it finds answers each question as a new one that holds the bindings made so far, if only
scalars that are no literals and have no definition are bound, each once at most. -/
theorem answers_eq_freshAnswers (hacyclic : ∀ v, ¬ TransGen f.Reads v v) {requests : List Request}
    (hfree : ∀ v ∈ boundBy requests, f.IsFree v)
    (honce : (boundBy requests).Nodup) :
    f.answers {} requests = f.freshAnswers {} requests :=
  (implied_refl f {}).answers_eq hacyclic hfree honce fun _ _ => rfl

/-- The square of a small number, and another number if it is not small. -/
def squareIfSmall : List Call :=
  [.scalar .int64, .scalar .int64, .binary .lt (.value ⟨0⟩) (.literal (.int 3)),
    .binary .mul (.value ⟨0⟩) (.value ⟨0⟩), .select (.value ⟨3⟩) (.value ⟨4⟩) (.value ⟨1⟩)]

/-- The selection is asked for before its condition is known, while the other branch is unknown, and
once everything is known. -/
def askedEarly : List Request :=
  [.evaluate ⟨5⟩, .bind ⟨0⟩ (.int 2), .evaluate ⟨5⟩, .bind ⟨1⟩ (.int 7), .evaluate ⟨5⟩, .evaluate ⟨1⟩]

theorem squareIfSmall_answers :
    ∃ f, f = performAll (squareIfSmall.map .call) {} ∧ (∀ v, ¬ TransGen f.Reads v v) ∧
      (∀ v ∈ boundBy askedEarly, f.IsFree v) ∧ (boundBy askedEarly).Nodup ∧
      f.answers {} askedEarly = [none, some (.int 4), some (.int 4), some (.int 7)] ∧
      f.answers {} askedEarly = f.freshAnswers {} askedEarly := by
  have hregular := performAll_regular (squareIfSmall.map .call) regular_empty
  have hacyclic := fun v => hregular.sound.not_transGen_reads (v := v)
  have hfree : ∀ v ∈ boundBy askedEarly,
      (performAll (squareIfSmall.map .call) {}).IsFree v := by
    simp only [askedEarly, boundBy, List.forall_mem_cons, List.not_mem_nil]
    refine ⟨⟨.input ?_, ?_⟩, ⟨.input ?_, ?_⟩, ?_⟩
    · rfl
    · rfl
    · rfl
    · rfl
    · exact fun _ h => h.elim
  have honce : (boundBy askedEarly).Nodup := by decide
  have hanswers : (performAll (squareIfSmall.map .call) {}).answers {} askedEarly =
      [none, some (.int 4), some (.int 4), some (.int 7)] := by
    rfl
  exact ⟨_, rfl, hacyclic, hfree, honce, hanswers, answers_eq_freshAnswers hacyclic hfree honce⟩

end Fusion
end FusionCompiler
