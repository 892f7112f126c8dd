import FusionCompiler.Lower.LoopPlan
import FusionCompiler.Proofs.Kernel.Folding

/-!
# Substituting loop indices

A substitution replaces loop indices and folds again on the way up.  It leaves
extents as they are, since no loop index occurs in them.

An index rises under a substitution if its value is at most the one after the
substitution.  Sums of rising indices rise, and so do their products with
extents and their quotients by extents.  A remainder need not: it falls back to
zero.  A condition falls if it holds whenever it does after the substitution, as
does a bound on a rising index.

Main results:

- Theorem `Fusion.closed_ownExtent`: a substitution changes no extent.
- Theorems `Scalar.Rises.add`, `Scalar.Rises.mul` and `Scalar.Rises.div`: what
  index arithmetic makes of rising indices rises.
- Theorems `Scalar.Falls.lt` and `Scalar.Falls.all`: bounds on rising indices
  fall, and so do conjunctions of them.
-/

namespace FusionCompiler
namespace Scalar

variable {env : Env} {g : LoopId → Option Scalar} {op : BinaryOp} {a b s : Scalar} {m n r : Int}

/-! ## Cases of folding -/

/-- An operation folds two literals, simplifies, or stays as it is. -/
theorem mkBinary_cases (op : BinaryOp) (a b : Scalar) :
    (∃ m n c, a = .int m ∧ b = .int n ∧ foldInt op m n = some c ∧ mkBinary op a b = ofConstant c) ∨
    (∃ s, simplify? op a b = some s ∧ mkBinary op a b = s) ∨
    (simplify? op a b = none ∧ mkBinary op a b = .binary op a b) := by
  unfold mkBinary
  split
  case h_1 c hc =>
      unfold foldLiterals at hc
      split at hc
      case h_1 m n => exact .inl ⟨m, n, c, rfl, rfl, hc, rfl⟩
      case h_2 => cases hc
  case h_2 =>
      right
      cases hs : simplify? op a b with
      | none => exact .inr ⟨rfl, rfl⟩
      | some s => exact .inl ⟨s, rfl, rfl⟩

/-- Simplification gives an operand or a literal. -/
theorem eq_of_simplify (h : simplify? op a b = some s) : s = a ∨ s = b ∨ s.isLiteral = true := by
  cases op <;> simp only [simplify?] at h <;> grind [zero, truth, isLiteral]

/-! ## Scalars without loop indices -/

/-- No substitution changes the scalar. -/
def Closed (s : Scalar) : Prop :=
  ∀ g, s.substitute g = s

/-- A literal mentions no loop. -/
theorem closed_of_isLiteral (h : s.isLiteral = true) : Closed s := by
  cases s with
  | int v | float v | bool v => exact fun g => rfl
  | _ => cases h

/-- A constant mentions no loop. -/
theorem closed_ofConstant (c : Constant) : Closed (ofConstant c) := by
  cases c <;> exact fun g => rfl

/-- A folded binary operation over closed scalars mentions no loop. -/
theorem Closed.mkBinary (op : BinaryOp) (ha : Closed a) (hb : Closed b) :
    Closed (Scalar.mkBinary op a b) := by
  intro g
  rcases mkBinary_cases op a b with ⟨m, n, c, -, -, -, heq⟩ | ⟨s, hs, heq⟩ | ⟨-, heq⟩
  · rw [heq, closed_ofConstant]
  · rw [heq]
    rcases eq_of_simplify hs with rfl | rfl | hlit
    · exact ha g
    · exact hb g
    · exact closed_of_isLiteral hlit g
  · rw [heq, substitute, ha, hb, heq]

/-- A folded unary operation over a closed scalar mentions no loop. -/
theorem Closed.mkUnary (op : UnaryOp) (ha : Closed a) : Closed (Scalar.mkUnary op a) := by
  intro g
  unfold Scalar.mkUnary
  split
  · exact ha g
  · rfl
  case h_3 hset hneg => 
      rw [substitute, ha]
      unfold Scalar.mkUnary
      split
      · exact absurd rfl hset
      case h_2 v => exact absurd rfl (hneg v rfl)
      · rfl

/-- A folded choice among closed scalars mentions no loop. -/
theorem Closed.mkSelect {c : Scalar} (hc : Closed c) (ha : Closed a) (hb : Closed b) :
    Closed (Scalar.mkSelect c a b) := by
  intro g
  unfold Scalar.mkSelect
  split
  · exact ha g
  · exact hb g
  case h_3 htrue hfalse =>
      rw [substitute, hc, ha, hb]
      unfold Scalar.mkSelect
      split
      · exact absurd rfl htrue
      · exact absurd rfl hfalse
      · rfl

end Scalar

namespace Fusion

open Scalar

/-- Scalars of a fusion become scalars of a kernel without loops. -/
theorem closed_kernelScalarWith (f : Fusion) (fuel : Nat) (v : ValueId) :
    Closed (f.kernelScalarWith fuel v) := by
  induction fuel generalizing v with
  | zero => exact fun g => rfl
  | succ fuel ih =>
      unfold kernelScalarWith
      dsimp only
      split
      · exact closed_ofConstant _
      · exact fun g => rfl
      · exact fun g => rfl
      · split
        · exact fun g => rfl
        · split
          · exact (ih _).mkUnary _
          · exact (ih _).mkBinary _ (ih _)
          · exact (ih _).mkSelect (ih _) (ih _)
          · exact fun g => rfl

/-- A substitution changes no extent. -/
theorem closed_ownExtent (f : Fusion) (a : AxisId) : Closed (f.ownExtent a) :=
  f.closed_kernelScalarWith _ _

end Fusion

namespace Scalar

variable {env : Env} {g : LoopId → Option Scalar} {op : BinaryOp} {a b s : Scalar} {m n r : Int}

/-! ## Rising indices -/

/-- What passes the 64-bit check fits. -/
theorem fits_of_checked64 (h : checked64 m = some n) : Fits64 n := by
  unfold checked64 at h
  split at h
  case isTrue hm =>
      cases h
      exact hm
  case isFalse => cases h

/-- A sum or a product of 64-bit integers that has a value has a 64-bit one. -/
theorem fits_of_evaluate (hop : op = .add ∨ op = .mul) (ha : a.evaluate env = some (.int m))
    (hb : b.evaluate env = some (.int n)) (hm : Fits64 m) (hn : Fits64 n)
    (h : (mkBinary op a b).evaluate env = some (.int r)) : Fits64 r := by
  have hfold : ∀ m n, foldInt op m n = some (.int r) → Fits64 r := by
    intro m n hr
    rcases hop with rfl | rfl
    all_goals
      obtain ⟨k, hk, heq⟩ := Option.map_eq_some_iff.1 hr
      cases heq
      exact fits_of_checked64 hk
  rcases mkBinary_cases op a b with ⟨m', n', c, rfl, rfl, hc, heq⟩ | ⟨s, hs, heq⟩ | ⟨-, heq⟩
  · rw [heq, evaluate_ofConstant] at h
    cases h
    exact hfold m' n' hc
  · rw [heq] at h
    rcases hop with rfl | rfl
    · simp only [simplify?] at hs
      grind
    · simp only [simplify?] at hs
      have hzero : (zero).evaluate env = some (.int r) → Fits64 r := by
        intro h0
        cases h0
        decide
      grind
  · rw [heq, evaluate, ha, hb] at h
    exact hfold m n h

/-- The value of the scalar is not negative and at most the one after the substitution. -/
def Rises (env : Env) (g : LoopId → Option Scalar) (s : Scalar) : Prop :=
  ∀ c, (s.substitute g).evaluate env = some c →
    ∃ x y, c = .int y ∧ s.evaluate env = some (.int x) ∧ 0 ≤ x ∧ x ≤ y ∧ Fits64 y

/-- A scalar that mentions no loop rises, if it is a machine number that is not negative. -/
theorem Closed.rises (hs : Closed s) (h : s.evaluate env = some (.int m)) (h₀ : 0 ≤ m)
    (hm : Fits64 m) : Rises env g s := by
  intro c hc
  rw [hs, h] at hc
  cases hc
  exact ⟨m, m, rfl, h, h₀, Int.le_refl m, hm⟩

/-- Zero rises. -/
theorem rises_zero : Rises env g zero :=
  (closed_of_isLiteral rfl).rises rfl (Int.le_refl 0) (by decide)

/-- A literal that rises is a machine number that is not negative. -/
theorem Rises.of_int {k : Int} (h : Rises env g (.int k)) : 0 ≤ k ∧ Fits64 k := by
  obtain ⟨x, y, hy, hx, h₀, -, hfits⟩ := h (.int k) rfl
  cases hy
  cases hx
  exact ⟨h₀, hfits⟩

/-- A sum of rising scalars rises. -/
theorem Rises.add (ha : Rises env g a) (hb : Rises env g b) : Rises env g (a.add b) := by
  unfold Scalar.add
  rcases mkBinary_cases .add a b with ⟨m, n, c, rfl, rfl, hc, heq⟩ | ⟨s, hs, heq⟩ | ⟨-, heq⟩
  · have hm := ha.of_int
    have hn := hb.of_int
    obtain ⟨k, hk, rfl⟩ := Option.map_eq_some_iff.1 hc
    rw [heq]
    refine (closed_ofConstant _).rises rfl ?_ (fits_of_checked64 hk)
    rw [eq_of_checked64 hk]
    exact Int.add_nonneg hm.1 hn.1
  · rw [heq]
    simp only [simplify?] at hs
    grind
  · intro c hc
    rw [heq, substitute] at hc
    obtain ⟨⟨ca, hca⟩, cb, hcb⟩ := evaluate_operands_of_add hc
    obtain ⟨x, y, rfl, hx, hx₀, hxy, hy⟩ := ha ca hca
    obtain ⟨x', y', rfl, hx', hx₀', hxy', hy'⟩ := hb cb hcb
    have hexact : ∀ m n, exactInt? .add m n = some (m + n) := fun _ _ => rfl
    have hcy := evaluate_mkBinary_eq (hexact y y') hca hcb hc
    have hfits := fits_of_evaluate (.inl rfl) hca hcb hy hy' (hcy ▸ hc)
    refine ⟨x + x', y + y', hcy, ?_, by omega, by omega, hfits⟩
    rw [heq, evaluate, hx, hx']
    exact foldInt_of_fits (hexact x x') (hfits.of_le (by omega) (by omega))

/-- An operation by a positive extent that has a value has a left operand with a value. -/
theorem evaluate_left (hop : op = .mul ∨ op = .div ∨ op = .mod) (hb : b.evaluate env = some (.int n))
    (hn : 0 < n) (hone : op = .mod → b.isInt 1 = false) {c : Constant}
    (h : (mkBinary op a b).evaluate env = some c) : ∃ x, a.evaluate env = some x := by
  have hzero : ¬ b.isInt 0 = true := by
    intro h0
    rw [eq_of_isInt h0] at hb
    cases hb
    exact absurd hn (by decide)
  have hlit : ∀ k, a.isInt k = true → ∃ x, a.evaluate env = some x := by
    intro k hk
    rw [eq_of_isInt hk]
    exact ⟨_, rfl⟩
  rcases mkBinary_cases op a b with ⟨m, n', c', rfl, -⟩ | ⟨s, hs, heq⟩ | ⟨-, heq⟩
  · exact ⟨_, rfl⟩
  · rw [heq] at h
    rcases hop with rfl | rfl | rfl <;> simp only [simplify?] at hs <;> grind
  · rw [heq, evaluate] at h
    split at h
    · cases h
    case h_2 x hx => exact ⟨x, hx⟩

section Extents

variable (hclosed : Closed b) (hb : b.evaluate env = some (.int n)) (hn : 0 < n)

include hclosed hb hn

/-- A product of rising scalars rises, as far as it fits. -/
theorem Rises.mul (hfits : Fits64 n) (ha : Rises env g a) : Rises env g (a.mul b) := by
  unfold Scalar.mul
  rcases mkBinary_cases .mul a b with ⟨m, n', c, rfl, rfl, hc, heq⟩ | ⟨s, hs, heq⟩ | ⟨-, heq⟩
  · have hm := ha.of_int
    cases hb
    obtain ⟨k, hk, rfl⟩ := Option.map_eq_some_iff.1 hc
    rw [heq]
    refine (closed_ofConstant _).rises rfl ?_ (fits_of_checked64 hk)
    rw [eq_of_checked64 hk]
    exact Int.mul_nonneg hm.1 (Int.le_of_lt hn)
  · rw [heq]
    have hrises : Rises env g b := hclosed.rises hb (Int.le_of_lt hn) hfits
    have hzero : Rises env g zero := rises_zero
    simp only [simplify?] at hs
    grind
  · intro c hc
    rw [heq, substitute, hclosed] at hc
    obtain ⟨ca, hca⟩ := evaluate_left (.inl rfl) hb hn (fun h => by cases h) hc
    obtain ⟨x, y, rfl, hx, hx₀, hxy, hy⟩ := ha ca hca
    have hexact : ∀ m, exactInt? .mul m n = some (m * n) := fun _ => rfl
    have hcy := evaluate_mkBinary_eq (hexact y) hca hb hc
    have hprod := fits_of_evaluate (.inr rfl) hca hb hy hfits (hcy ▸ hc)
    have h₀ : 0 ≤ x * n := Int.mul_nonneg hx₀ (Int.le_of_lt hn)
    have hle : x * n ≤ y * n := Int.mul_le_mul_of_nonneg_right hxy (Int.le_of_lt hn)
    refine ⟨x * n, y * n, hcy, ?_, h₀, hle, hprod⟩
    rw [heq, evaluate, hx, hb]
    exact foldInt_of_fits (hexact x) (hprod.of_le h₀ hle)

/-- A quotient by a rising scalar rises. -/
theorem Rises.div (ha : Rises env g a) : Rises env g (a.div b) := by
  have hexact : ∀ m, exactInt? .div m n = some (m.tdiv n) := fun m => if_pos hn
  have hdown : ∀ {x y : Int}, 0 ≤ x → x ≤ y → Fits64 y →
      0 ≤ x.tdiv n ∧ x.tdiv n ≤ y.tdiv n ∧ Fits64 (x.tdiv n) := by
    intro x y hx hxy hy
    have hxn := Int.tdiv_nonneg hx (Int.le_of_lt hn)
    rw [Int.tdiv_eq_ediv_of_nonneg hx] at hxn ⊢
    rw [Int.tdiv_eq_ediv_of_nonneg (Int.le_trans hx hxy)]
    exact ⟨hxn, Int.ediv_le_ediv hn hxy,
      hy.of_le hxn (Int.le_trans (Int.ediv_le_self n hx) hxy)⟩
  unfold Scalar.div
  rcases mkBinary_cases .div a b with ⟨m, n', c, rfl, rfl, hc, heq⟩ | ⟨s, hs, heq⟩ | ⟨-, heq⟩
  · have hm := ha.of_int
    cases hb
    rw [heq, foldInt_eq (hexact m) hc]
    obtain ⟨h₀, -, hfit⟩ := hdown hm.1 (Int.le_refl m) hm.2
    exact (closed_ofConstant _).rises rfl h₀ hfit
  · rw [heq]
    have hzero : Rises env g zero := rises_zero
    simp only [simplify?] at hs
    grind
  · intro c hc
    rw [heq, substitute, hclosed] at hc
    obtain ⟨ca, hca⟩ := evaluate_left (.inr (.inl rfl)) hb hn (fun h => by cases h) hc
    obtain ⟨x, y, rfl, hx, hx₀, hxy, hy⟩ := ha ca hca
    obtain ⟨h₀, hle, hfit⟩ := hdown hx₀ hxy hy
    obtain ⟨-, -, hfit'⟩ := hdown (Int.le_trans hx₀ hxy) (Int.le_refl y) hy
    refine ⟨x.tdiv n, y.tdiv n, evaluate_mkBinary_eq (hexact y) hca hb hc, ?_, h₀, hle, hfit'⟩
    rw [heq, evaluate, hx, hb]
    exact foldInt_of_fits (hexact x) hfit

end Extents

/-! ## Conditions under substitution -/

/-- A condition that stays one under every substitution. -/
structure IsTest (s : Scalar) : Prop where
  condition : IsCondition s
  substituted : ∀ g, IsCondition (s.substitute g)

/-- A truth value is a test. -/
theorem IsTest.bool (t : Bool) : IsTest (.bool t) :=
  ⟨.bool t, fun _ => .bool t⟩

/-- A comparison is a test. -/
theorem IsTest.lt (a b : Scalar) : IsTest (a.lt b) := by
  have hcond := IsCondition.lt a b
  refine ⟨hcond, fun g => ?_⟩
  unfold Scalar.lt at hcond ⊢
  rcases mkBinary_cases .lt a b with ⟨m, n, c, -, -, -, heq⟩ | ⟨s, hs, heq⟩ | ⟨-, heq⟩
  · rw [heq] at hcond ⊢
    rw [closed_ofConstant]
    exact hcond
  · rw [heq]
    simp only [simplify?] at hs
    split at hs
    · cases hs
      exact .bool false
    · cases hs
  · rw [heq, substitute]
    exact .lt _ _

/-- Both of two tests. -/
theorem IsTest.and (ha : IsTest a) (hb : IsTest b) : IsTest (a.and b) := by
  have hcond := (evaluate_and_iff ha.condition hb.condition).1
  refine ⟨hcond, fun g => ?_⟩
  unfold Scalar.and
  rcases mkBinary_cases .and a b with ⟨m, n, c, rfl, -⟩ | ⟨s, hs, heq⟩ | ⟨-, heq⟩
  · exact absurd rfl (ha.condition.notInt m)
  · rw [heq]
    rcases eq_of_simplify hs with rfl | rfl | hlit
    · exact ha.substituted g
    · exact hb.substituted g
    · rw [closed_of_isLiteral hlit, ← heq]
      exact hcond
  · rw [heq, substitute]
    exact (evaluate_and_iff (ha.substituted g) (hb.substituted g)).1

/-- All of several tests. -/
theorem IsTest.all {terms : List Scalar} (h : ∀ s ∈ terms, IsTest s) : IsTest (Scalar.all terms) := by
  unfold Scalar.all
  exact List.foldlRecOn (motive := IsTest) _ _ (.bool true) fun s hs t ht => hs.and (h t ht)

/-- The condition holds if it does after the substitution. -/
def Falls (env : Env) (g : LoopId → Option Scalar) (s : Scalar) : Prop :=
  (s.substitute g).evaluate env = some (.bool true) → s.evaluate env = some (.bool true)

/-- A scalar that mentions no loop falls. -/
theorem Closed.falls (hs : Closed s) : Falls env g s := by
  intro h
  rwa [hs] at h

/-- Both of two tests that fall. -/
theorem Falls.and (hta : IsTest a) (htb : IsTest b) (ha : Falls env g a) (hb : Falls env g b) :
    Falls env g (a.and b) := by
  intro h
  have hiff := (evaluate_and_iff hta.condition htb.condition).2 env
  unfold Scalar.and at h hiff ⊢
  rcases mkBinary_cases .and a b with ⟨m, n, c, rfl, -⟩ | ⟨s, hs, heq⟩ | ⟨-, heq⟩
  · exact absurd rfl (hta.condition.notInt m)
  · rw [heq] at h ⊢
    rcases eq_of_simplify hs with rfl | rfl | hlit
    · exact ha h
    · exact hb h
    · exact (closed_of_isLiteral hlit).falls h
  · have hiff' := (evaluate_and_iff (hta.substituted g) (htb.substituted g)).2 env
    unfold Scalar.and at hiff'
    rw [heq, substitute, hiff'] at h
    rw [hiff]
    exact ⟨ha h.1, hb h.2⟩

/-- A conjunction of conditions that fall falls. -/
theorem Falls.all {terms : List Scalar} (ht : ∀ s ∈ terms, IsTest s)
    (h : ∀ s ∈ terms, Falls env g s) : Falls env g (Scalar.all terms) := by
  unfold Scalar.all
  refine (List.foldlRecOn (motive := fun s => IsTest s ∧ Falls env g s) _ _
    ⟨.bool true, (closed_of_isLiteral rfl).falls⟩ fun s hs t hmem => ?_).2
  exact ⟨hs.1.and (ht t hmem), hs.2.and hs.1 (ht t hmem) (h t hmem)⟩

/-- A comparison that holds has a left side with a value. -/
theorem evaluate_left_of_lt (h : (a.lt b).evaluate env = some (.bool true)) :
    ∃ x, a.evaluate env = some x := by
  unfold Scalar.lt at h
  rcases mkBinary_cases .lt a b with ⟨m, n, c, rfl, -⟩ | ⟨s, hs, heq⟩ | ⟨-, heq⟩
  · exact ⟨_, rfl⟩
  · rw [heq] at h
    simp only [simplify?] at hs
    split at hs
    · cases hs
      cases h
    · cases hs
  · rw [heq, evaluate] at h
    split at h
    · cases h
    case h_2 x hx => exact ⟨x, hx⟩

/-- A comparison that holds compares the values. -/
theorem lt_of_evaluate (ha : a.evaluate env = some (.int m)) (hb : b.evaluate env = some (.int n))
    (h : (a.lt b).evaluate env = some (.bool true)) : m < n := by
  unfold Scalar.lt at h
  rcases mkBinary_cases .lt a b with ⟨m', n', c, rfl, rfl, hc, heq⟩ | ⟨s, hs, heq⟩ | ⟨-, heq⟩
  · cases ha
    cases hb
    rw [heq, evaluate_ofConstant] at h
    cases hc
    simpa using h
  · rw [heq] at h
    simp only [simplify?] at hs
    split at hs
    · cases hs
      cases h
    · cases hs
  · rw [heq, evaluate, ha, hb] at h
    simpa [evalBinary, foldInt] using h

/-- A comparison holds if the values compare. -/
theorem evaluate_lt_of_lt (hfree : b.floatFree = true) (ha : a.evaluate env = some (.int m))
    (hb : b.evaluate env = some (.int n)) (h : m < n) :
    (a.lt b).evaluate env = some (.bool true) := by
  unfold Scalar.lt
  rcases mkBinary_cases .lt a b with ⟨m', n', c, rfl, rfl, hc, heq⟩ | ⟨s, hs, heq⟩ | ⟨-, heq⟩
  · cases ha
    cases hb
    cases hc
    rw [heq, evaluate_ofConstant]
    simp [h]
  · simp only [simplify?] at hs
    split at hs
    case isTrue hsame =>
        rw [eq_of_beq_floatFree (.inr hfree) hsame, hb] at ha
        cases ha
        omega
    case isFalse => cases hs
  · rw [heq, evaluate, ha, hb]
    simp [evalBinary, foldInt, h]

section Bounds

variable (hclosed : Closed b) (hb : b.evaluate env = some (.int n))

include hclosed hb

/-- A bound falls if the index is inside whenever the bound holds after the substitution. -/
theorem falls_lt_of (h : ((a.substitute g).lt b).evaluate env = some (.bool true) →
      ∃ x, a.evaluate env = some (.int x) ∧ x < n) : Falls env g (a.lt b) := by
  unfold Scalar.lt
  rcases mkBinary_cases .lt a b with ⟨m, n', c, rfl, rfl, -, heq⟩ | ⟨s, hs, heq⟩ | ⟨-, heq⟩
  · rw [heq]
    exact (closed_ofConstant c).falls
  · rw [heq]
    simp only [simplify?] at hs
    split at hs
    · cases hs
      exact (closed_of_isLiteral rfl).falls
    · cases hs
  · intro hlt
    rw [heq, substitute, hclosed] at hlt
    obtain ⟨x, hx, hlt⟩ := h hlt
    rw [heq, evaluate, hx, hb]
    simp [evalBinary, foldInt, hlt]

/-- A bound on a rising index falls. -/
theorem Falls.lt (ha : Rises env g a) : Falls env g (a.lt b) := by
  refine falls_lt_of hclosed hb fun h => ?_
  obtain ⟨c, hc⟩ := evaluate_left_of_lt h
  obtain ⟨x, y, rfl, hx, -, hxy, -⟩ := ha c hc
  exact ⟨x, hx, Int.lt_of_le_of_lt hxy (lt_of_evaluate hc hb h)⟩

/-- A remainder by an extent is always inside the extent. -/
theorem Falls.rem (hn : 0 < n) (ha : Rises env g a) : Falls env g ((a.rem b).lt b) := by
  have hexact : ∀ m, exactInt? .mod m n = some (m.tmod n) := fun m => if_pos hn
  unfold Scalar.rem
  rcases mkBinary_cases .mod a b with ⟨m, n', c, rfl, rfl, hc, heq⟩ | ⟨s, hs, heq⟩ | ⟨hnone, heq⟩
  · cases hb
    rw [heq, foldInt_eq (hexact m) hc]
    exact falls_lt_of hclosed rfl fun _ => ⟨m.tmod n, rfl, Int.tmod_lt_of_pos m hn⟩
  · have hzero : s = zero := by
      simp only [simplify?] at hs
      grind
    rw [heq, hzero]
    exact falls_lt_of hclosed hb fun _ => ⟨0, rfl, hn⟩
  · have hone : b.isInt 1 = false := by
      simp only [simplify?] at hnone
      grind
    rw [heq]
    refine falls_lt_of hclosed hb fun h => ?_
    obtain ⟨c, hc⟩ := evaluate_left_of_lt h
    rw [substitute, hclosed] at hc
    obtain ⟨ca, hca⟩ := evaluate_left (.inr (.inr rfl)) hb hn (fun _ => hone) hc
    obtain ⟨x, y, rfl, hx, hx₀, -, -⟩ := ha ca hca
    refine ⟨x.tmod n, ?_, Int.tmod_lt_of_pos x hn⟩
    rw [evaluate, hx, hb]
    exact if_neg (by omega)

end Bounds

end Scalar
end FusionCompiler
