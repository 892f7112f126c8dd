import FusionCompiler.Fusion.Evaluate
import FusionCompiler.Proofs.Fusion.Soundness

/-!
# Scalars of a growing fusion

The operands of a scalar are older than the scalar, so the bound on the depth of
a recursion over definitions does not matter, and what such a recursion finds
stays the same when the fusion is extended.

Main results:

- Theorem `Fusion.Extends.constInt?`: a scalar that is known stays known, with the
  same value.
- Theorem `Fusion.Extends.sameScalar`: scalars that are found to be equal in a
  fusion are found to be equal in every extension of it.
-/

namespace FusionCompiler
namespace Fusion

variable {f f' : Fusion} {v : ValueId}

/-- The operands of a scalar are older scalars. -/
theorem Sound.operands_of_scalar (hf : Sound f) (hscalar : f.isTensor v = false) {e : Expr}
    (hdef : f.definingExpr? v = some e) :
    e.inputs ≠ [] ∧ ∀ u ∈ e.inputs, f.HasValue u ∧ f.isTensor u = false ∧ u.index < v.index := by
  obtain ⟨d, -, he, hout⟩ := hf.live_of_definingExpr? hdef
  rcases (hf.exprs d e he).kinds with htensor | ⟨w, hw, -, hne, hin⟩
  · rw [htensor v hout] at hscalar
    cases hscalar
  · rw [hw, List.mem_singleton] at hout
    subst hout
    exact ⟨hne, fun u hu => ⟨(hf.exprs d e he).inputs u hu, hin u hu⟩⟩

/-- The operand of a scalar at any position is older than it. -/
theorem Sound.operand_older (hf : Sound f) (hscalar : f.isTensor v = false) {e : Expr}
    (hdef : f.definingExpr? v = some e) (i : Nat) :
    f.HasValue (e.input i) ∧ (e.input i).index < v.index := by
  obtain ⟨hne, hin⟩ := hf.operands_of_scalar hscalar hdef
  unfold Expr.input
  rw [List.getD_eq_getElem?_getD]
  cases hget : e.inputs[i]? with
  | some u =>
      obtain ⟨hhas, -, hlt⟩ := hin u (List.mem_of_getElem? hget)
      exact ⟨hhas, hlt⟩
  | none =>
      -- a missing operand is read as the first value of the fusion
      obtain ⟨u, hu⟩ := List.exists_mem_of_ne_nil _ hne
      obtain ⟨hhas, -, hlt⟩ := hin u hu
      exact ⟨Nat.lt_of_le_of_lt (Nat.zero_le _) hhas, Nat.lt_of_le_of_lt (Nat.zero_le _) hlt⟩

/-- The value of a scalar does not depend on the bound of its recursion or on what the fusion is
extended by. -/
theorem Extends.evaluateWith (hext : Extends f f') (hf : Sound f) (hv : f.HasValue v) {m n : Nat}
    (hm : v.index < m) (hn : v.index < n) : f'.evaluateWith m v = f.evaluateWith n v := by
  induction m generalizing n v with
  | zero => cases hm
  | succ m ih =>
      cases n with
      | zero => cases hn
      | succ n =>
          unfold Fusion.evaluateWith
          dsimp only
          cases hscalar : f.isTensor v with
          | true =>
              have hscalar' : f'.isTensor v = true := (hext.isTensor v hv).trans hscalar
              cases hkind : (f.value v).kind with
              | scalar k => simp [Fusion.isTensor, Value.isTensor, Value.view?, hkind] at hscalar
              | tensor t =>
                  cases hkind' : (f'.value v).kind with
                  | scalar k => simp [Fusion.isTensor, Value.isTensor, Value.view?, hkind'] at hscalar'
                  | tensor t' => rfl
          | false =>
              have hkind := hext.kind v hv hscalar
              have hdtype : (f'.value v).dtype = (f.value v).dtype := hext.dtype v hv
              have hdefining := hext.definingExpr v hv hscalar
              rw [hkind, hdtype, hdefining]
              cases hdef : f.definingExpr? v with
              | none => rfl
              | some e =>
                  have hoperand : ∀ i, f'.evaluateWith m (e.input i) =
                      f.evaluateWith n (e.input i) := by
                    intro i
                    obtain ⟨hhas, hlt⟩ := hf.operand_older hscalar hdef i
                    exact ih hhas (by omega) (by omega)
                  simp only [hoperand]

/-- A scalar that is known stays known, with the same value. -/
theorem Extends.constInt? (hext : Extends f f') (hf : Sound f) (hv : f.HasValue v) :
    f'.constInt? v = f.constInt? v := by
  unfold Fusion.constInt? evaluateInt evaluate
  have hlt : v.index < f.values.size := hv
  have hle := hext.values
  rw [hext.evaluateWith hf hv (n := f.values.size + 1) (by omega) (by omega)]

theorem Extends.sameScalarWith (hext : Extends f f') (hf : Sound f) {a b : ValueId}
    (ha : f.HasValue a) (hb : f.HasValue b) (has : f.isTensor a = false)
    (hbs : f.isTensor b = false) {m n : Nat} (hm : a.index < m) (hn : a.index < n) :
    f'.sameScalarWith m a b = f.sameScalarWith n a b := by
  induction m generalizing n a b with
  | zero => cases hm
  | succ m ih =>
      cases n with
      | zero => cases hn
      | succ n =>
          unfold Fusion.sameScalarWith
          rw [hext.constInt? hf ha, hext.constInt? hf hb, hext.definingExpr a ha has,
            hext.definingExpr b hb hbs]
          cases hx : f.definingExpr? a with
          | none => rfl
          | some x =>
              cases hy : f.definingExpr? b with
              | none => rfl
              | some y =>
                  have hall : ((x.inputs.zip y.inputs).all fun q =>
                      f'.sameScalarWith m q.1 q.2) = (x.inputs.zip y.inputs).all fun q =>
                        f.sameScalarWith n q.1 q.2 := by
                    rw [Bool.eq_iff_iff, List.all_eq_true, List.all_eq_true]
                    refine forall₂_congr fun q hq => ?_
                    obtain ⟨hu, hv⟩ := List.of_mem_zip hq
                    obtain ⟨huv, hus, hlt⟩ := (hf.operands_of_scalar has hx).2 q.1 hu
                    obtain ⟨hvv, hvs, -⟩ := (hf.operands_of_scalar hbs hy).2 q.2 hv
                    rw [ih huv hvv hus hvs (n := n) (by omega) (by omega)]
                  dsimp only
                  simp only [hall]

/-- Scalars that are found to be equal in a fusion are found to be equal in every extension of
it. -/
theorem Extends.sameScalar (hext : Extends f f') (hf : Sound f) {a b : ValueId}
    (ha : f.IntegerScalar a) (hb : f.IntegerScalar b) : f'.sameScalar a b = f.sameScalar a b := by
  have hlt : a.index < f.values.size := ha.has
  have hle := hext.values
  exact hext.sameScalarWith hf ha.has hb.has ha.scalar hb.scalar (by omega) (by omega)

end Fusion
end FusionCompiler
