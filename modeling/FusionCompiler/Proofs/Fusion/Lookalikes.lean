import FusionCompiler.Proofs.Fusion.Remembering

/-!
# Lookalike scalars

Two scalars look alike if they are one scalar, one literal written twice, or the
same operator over operands that look alike.  Scalars that look alike have one
value, so folding of literals makes no difference between them, and the comparison
by structure finds them equal.

Main results:

- Theorem `Fusion.Lookalike.ofEvaluates`: an operator makes lookalikes of lookalikes.
- Theorem `Fusion.Lookalike.valueUnder`: scalars that look alike have one value as
  long as nothing is bound.
- Theorem `Fusion.Lookalike.sameScalar`: scalars that look alike are found to be
  equal.
-/

namespace FusionCompiler
namespace Fusion

variable {f : Fusion} {u v : ValueId}

/-- Scalars of one type with the same structure. -/
inductive Lookalike (f : Fusion) : ValueId → ValueId → Prop
  | refl (v : ValueId) : Lookalike f v v
  | literal {u v : ValueId} {c : Constant} (hu : f.const? u = some c) (hv : f.const? v = some c)
      (hdtype : f.dtype u = f.dtype v) : Lookalike f u v
  | computed {u v u₁ u₂ v₁ v₂ : ValueId} {op : BinaryOp} {x y : Expr}
      (hu : (f.value u).kind = .scalar .symbolic) (hx : f.definingExpr? u = some x)
      (hv : (f.value v).kind = .scalar .symbolic) (hy : f.definingExpr? v = some y)
      (hkind : x.kind = .binary op) (hin : x.inputs = [u₁, u₂])
      (hkind' : y.kind = .binary op) (hin' : y.inputs = [v₁, v₂])
      (hdtype : f.dtype u = f.dtype v) (h₁ : Lookalike f u₁ v₁) (h₂ : Lookalike f u₂ v₂) :
      Lookalike f u v

/-- Nothing bound, a literal has the value it stands for. -/
theorem valueUnder_of_const? (hf : Sound f) {c : Constant} (h : f.const? v = some c) :
    f.valueUnder {} v = some c := by
  rw [valueUnder_eq hf, valueFrom, kind_of_const? h]
  rfl

/-- Nothing bound, a computed scalar has the value that its operator makes of its operands. -/
theorem valueUnder_of_binary (hf : Sound f) {op : BinaryOp} {x : Expr} {u₁ u₂ : ValueId}
    (hsymbolic : (f.value v).kind = .scalar .symbolic) (hx : f.definingExpr? v = some x)
    (hkind : x.kind = .binary op) (hin : x.inputs = [u₁, u₂]) :
    f.valueUnder {} v = (f.valueUnder {} u₁).bind fun c =>
      (f.valueUnder {} u₂).bind fun d => hostBinary (f.dtype v) op c d := by
  have hfirst : x.input 0 = u₁ := by simp [Expr.input, hin]
  have hsecond : x.input 1 = u₂ := by simp [Expr.input, hin]
  rw [valueUnder_eq hf, valueFrom, hsymbolic, hx]
  simp only [hkind, hfirst, hsecond]
  rfl

/-- The integer behind a scalar is its value with nothing bound. -/
theorem constInt?_eq (hf : Sound f) (hv : f.HasValue v) :
    f.constInt? v = (f.valueUnder {} v).map (·.toInt) := by
  rw [← evaluate_eq hf hv]
  rfl

namespace Lookalike

theorem dtype (h : f.Lookalike u v) : f.dtype u = f.dtype v := by
  cases h with
  | refl => rfl
  | literal hu hv hdtype => exact hdtype
  | computed hu hx hv hy hkind hin hkind' hin' hdtype h₁ h₂ => exact hdtype

/-- A literal looks like the same literal only. -/
theorem const? (h : f.Lookalike u v) : f.const? u = f.const? v := by
  cases h with
  | refl => rfl
  | literal hu hv hdtype => rw [hu, hv]
  | computed hu hx hv hy hkind hin hkind' hin' hdtype h₁ h₂ =>
      rw [const?_of_symbolic hu, const?_of_symbolic hv]

/-- An operator makes lookalikes of lookalikes: literals are folded alike, and everything else is
computed alike. -/
theorem ofEvaluates {op : BinaryOp} {z z' x x' y y' : ValueId} (hz : f.Evaluates op z x y)
    (hz' : f.Evaluates op z' x' y') (hx : f.Lookalike x x') (hy : f.Lookalike y y') :
    f.Lookalike z z' := by
  have hdtype : f.dtype z = f.dtype z' := by
    rw [hz.dtype, hz'.dtype, hx.dtype, hy.dtype]
  by_cases hfolds : ∃ m n c, f.const? x = some (.int m) ∧ f.const? y = some (.int n) ∧
      op.evalInt m n = some c
  · obtain ⟨m, n, c, hm, hn, hc⟩ := hfolds
    have hliteral := hz.folded m n c hm hn hc
    have hliteral' := hz'.folded m n c (hx.const? ▸ hm) (hy.const? ▸ hn) hc
    rw [← hdtype] at hliteral'
    exact .literal hliteral hliteral' hdtype
  · have hnone : ∀ m n, f.const? x = some (.int m) → f.const? y = some (.int n) →
        op.evalInt m n = none := by
      intro m n hm hn
      by_contra hne
      obtain ⟨c, hc⟩ := Option.ne_none_iff_exists'.1 hne
      exact hfolds ⟨m, n, c, hm, hn, hc⟩
    have hnone' : ∀ m n, f.const? x' = some (.int m) → f.const? y' = some (.int n) →
        op.evalInt m n = none := by
      rw [← hx.const?, ← hy.const?]
      exact hnone
    obtain ⟨hsymbolic, e, he, hop, hin⟩ := hz.defined hnone
    obtain ⟨hsymbolic', e', he', hop', hin'⟩ := hz'.defined hnone'
    exact .computed hsymbolic he hsymbolic' he' hop hin hop' hin' hdtype hx hy

/-- Scalars that look alike have one value. -/
theorem valueUnder (hf : Sound f) (h : f.Lookalike u v) :
    f.valueUnder {} u = f.valueUnder {} v := by
  induction h with
  | refl => rfl
  | literal hu hv hdtype => rw [valueUnder_of_const? hf hu, valueUnder_of_const? hf hv]
  | computed hu hx hv hy hkind hin hkind' hin' hdtype h₁ h₂ ih₁ ih₂ =>
      rw [valueUnder_of_binary hf hu hx hkind hin, valueUnder_of_binary hf hv hy hkind' hin', ih₁,
        ih₂, hdtype]

theorem constInt? (hf : Sound f) (hu : f.HasValue u) (hv : f.HasValue v) (h : f.Lookalike u v) :
    f.constInt? u = f.constInt? v := by
  rw [constInt?_eq hf hu, constInt?_eq hf hv, h.valueUnder hf]

theorem sameScalarWith (hf : Sound f) (h : f.Lookalike u v) (hu : f.HasValue u)
    (hv : f.HasValue v) (hus : f.isTensor u = false) (hvs : f.isTensor v = false) {fuel : Nat}
    (hfuel : u.index < fuel) : f.sameScalarWith fuel u v = true := by
  induction h generalizing fuel with
  | refl v =>
      cases fuel with
      | zero => cases hfuel
      | succ fuel => simp [Fusion.sameScalarWith]
  | @literal u v c hc hc' hdtype =>
      obtain ⟨fuel, rfl⟩ := Nat.exists_eq_succ_of_ne_zero (Nat.ne_zero_of_lt hfuel)
      have hinteger := constInt? hf hu hv (.literal hc hc' hdtype)
      have hknown : f.constInt? v = some c.toInt := by
        rw [constInt?_eq hf hv, valueUnder_of_const? hf hc']
        rfl
      simp [Fusion.sameScalarWith, hinteger, hknown]
  | @computed u v u₁ u₂ v₁ v₂ op x y hsymbolic hx hsymbolic' hy hkind hin hkind' hin' hdtype h₁ h₂
      ih₁ ih₂ =>
      obtain ⟨fuel, rfl⟩ := Nat.exists_eq_succ_of_ne_zero (Nat.ne_zero_of_lt hfuel)
      have hinteger := constInt? hf hu hv
        (.computed hsymbolic hx hsymbolic' hy hkind hin hkind' hin' hdtype h₁ h₂)
      have holder := (hf.operands_of_scalar hus hx).2
      have holder' := (hf.operands_of_scalar hvs hy).2
      obtain ⟨hu₁, hus₁, hlt₁⟩ := holder u₁ (by simp [hin])
      obtain ⟨hu₂, hus₂, hlt₂⟩ := holder u₂ (by simp [hin])
      obtain ⟨hv₁, hvs₁, -⟩ := holder' v₁ (by simp [hin'])
      obtain ⟨hv₂, hvs₂, -⟩ := holder' v₂ (by simp [hin'])
      have hfirst : f.sameScalarWith fuel u₁ v₁ = true := ih₁ hu₁ hv₁ hus₁ hvs₁ (by omega)
      have hsecond : f.sameScalarWith fuel u₂ v₂ = true := ih₂ hu₂ hv₂ hus₂ hvs₂ (by omega)
      rw [Fusion.sameScalarWith, hinteger]
      split
      case isTrue => rfl
      have hop : (ExprKind.binary op == ExprKind.binary op) = true := by
        cases op <;> rfl
      cases f.constInt? v with
      | some n => simp
      | none => simp [hx, hy, hkind, hkind', hop, hin, hin', hfirst, hsecond]

/-- Scalars that look alike are found to be equal. -/
theorem sameScalar (hf : Sound f) (hu : f.IntegerScalar u) (hv : f.IntegerScalar v)
    (h : f.Lookalike u v) : f.sameScalar u v = true :=
  h.sameScalarWith hf hu.has hv.has hu.scalar hv.scalar (Nat.lt_succ_of_lt hu.has)

end Lookalike
end Fusion
end FusionCompiler
