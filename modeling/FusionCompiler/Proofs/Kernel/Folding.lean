import FusionCompiler.Kernel.Scalar
import FusionCompiler.Proofs.Words

/-!
# Folding keeps values

The constructors of kernel scalars fold literals and drop neutral operands.
Over integers this changes no value: a folded scalar stands for the exact sum,
product, quotient or remainder of its operands wherever it stands for anything,
and it does stand for it as long as the result is a 64-bit integer.

Main results:

- Theorem `Scalar.evaluate_mkBinary_eq`: what a folded operation evaluates to is
  exact.
- Theorem `Scalar.evaluate_mkBinary_of_fits`: a folded operation evaluates if its
  result fits.
- Theorem `Scalar.evaluate_all_iff`: a conjunction holds when all of its terms
  hold.
-/

namespace FusionCompiler

namespace Scalar

variable {env : Env} {op : BinaryOp} {a b : Scalar} {m n r : Int}

/-! ## Arithmetic -/

/-- The exact value of an operator of index arithmetic.  The divisor of a division is positive, and
the sum behind a rounded-up one fits. -/
def exactInt? : BinaryOp → Int → Int → Option Int
  | .add, m, n => some (m + n)
  | .mul, m, n => some (m * n)
  | .div, m, n => if 0 < n then some (m.tdiv n) else none
  | .mod, m, n => if 0 < n then some (m.tmod n) else none
  | .ceilDiv, m, n => if 0 < n ∧ Fits64 (m + n - 1) then some ((m + n - 1) / n) else none
  | _, _, _ => none

/-- A literal that is recognized. -/
theorem eq_of_isInt {k : Int} (h : a.isInt k = true) : a = .int k := by
  cases a with
  | int v =>
      have hv : v = k := by simpa [isInt] using h
      rw [hv]
  | _ => cases h

/-- A truth value that is recognized. -/
theorem eq_of_isBool {k : Bool} (h : a.isBool k = true) : a = .bool k := by
  cases a with
  | bool v =>
      have hv : v = k := by simpa [isBool] using h
      rw [hv]
  | _ => cases h

/-- A constant as a scalar has its value. -/
@[simp]
theorem evaluate_ofConstant (c : Constant) : (ofConstant c).evaluate env = some c := by
  cases c <;> rfl

/-- If folding has a result, and the operator an exact one, they are equal. -/
theorem foldInt_eq (hexact : exactInt? op m n = some r) {c : Constant}
    (h : foldInt op m n = some c) : c = .int r := by
  cases op with
  | add | mul =>
      cases hexact
      obtain ⟨k, hk, rfl⟩ := Option.map_eq_some_iff.1 h
      rw [eq_of_checked64 hk]
  | div =>
      simp only [exactInt?, Option.ite_none_right_eq_some, Option.some.injEq] at hexact
      obtain ⟨hn, rfl⟩ := hexact
      rw [foldInt, if_neg (Int.ne_of_gt hn)] at h
      obtain ⟨k, hk, rfl⟩ := Option.map_eq_some_iff.1 h
      rw [eq_of_checked64 hk]
  | mod =>
      simp only [exactInt?, Option.ite_none_right_eq_some, Option.some.injEq] at hexact
      obtain ⟨hn, rfl⟩ := hexact
      rw [foldInt] at h
      split at h
      · cases h
      · cases h
        rfl
  | ceilDiv =>
      simp only [exactInt?, Option.ite_none_right_eq_some, Option.some.injEq] at hexact
      obtain ⟨⟨hn, hsum⟩, rfl⟩ := hexact
      rw [foldInt, if_neg (Int.not_le.2 hn), BinaryOp.roundedUp_of_fits hsum] at h
      cases h
      rfl
  | _ => cases hexact

/-- An exact result that fits a machine word is the folded one. -/
theorem foldInt_of_fits (hexact : exactInt? op m n = some r) (hr : Fits64 r) :
    foldInt op m n = some (.int r) := by
  cases op with
  | add | mul =>
      cases hexact
      rw [foldInt, checked64_of_fits hr]
      rfl
  | div =>
      simp only [exactInt?, Option.ite_none_right_eq_some, Option.some.injEq] at hexact
      obtain ⟨hn, rfl⟩ := hexact
      rw [foldInt, if_neg (Int.ne_of_gt hn), checked64_of_fits hr]
      rfl
  | mod =>
      simp only [exactInt?, Option.ite_none_right_eq_some, Option.some.injEq] at hexact
      obtain ⟨hn, rfl⟩ := hexact
      rw [foldInt, if_neg]
      omega
  | ceilDiv =>
      simp only [exactInt?, Option.ite_none_right_eq_some, Option.some.injEq] at hexact
      obtain ⟨⟨hn, hsum⟩, rfl⟩ := hexact
      rw [foldInt, if_neg (Int.not_le.2 hn), BinaryOp.roundedUp_of_fits hsum]
  | _ => cases hexact

/-- Dropping a neutral operand keeps the exact value. -/
theorem evaluate_simplify (hexact : exactInt? op m n = some r)
    (ha : a.evaluate env = some (.int m)) (hb : b.evaluate env = some (.int n)) {s : Scalar}
    (h : simplify? op a b = some s) : s.evaluate env = some (.int r) := by
  have hzero : ∀ k, a.isInt k = true → m = k := by
    intro k hk
    rw [eq_of_isInt hk] at ha
    cases ha
    rfl
  have hone : ∀ k, b.isInt k = true → n = k := by
    intro k hk
    rw [eq_of_isInt hk] at hb
    cases hb
    rfl
  cases op with
  | add =>
      cases hexact
      simp only [simplify?] at h
      split at h
      case isTrue hk =>
          cases h
          rw [hb, hzero 0 hk, Int.zero_add]
      case isFalse =>
          split at h
          case isTrue hk =>
              cases h
              rw [ha, hone 0 hk, Int.add_zero]
          case isFalse => cases h
  | mul =>
      cases hexact
      simp only [simplify?] at h
      split at h
      case isTrue hk =>
          cases h
          rcases Bool.or_eq_true_iff.1 hk with hk | hk
          · rw [hzero 0 hk, Int.zero_mul]
            rfl
          · rw [hone 0 hk, Int.mul_zero]
            rfl
      case isFalse =>
          split at h
          case isTrue hk =>
              cases h
              rw [hb, hzero 1 hk, Int.one_mul]
          case isFalse =>
              split at h
              case isTrue hk =>
                  cases h
                  rw [ha, hone 1 hk, Int.mul_one]
              case isFalse => cases h
  | div =>
      simp only [exactInt?, Option.ite_none_right_eq_some, Option.some.injEq] at hexact
      obtain ⟨-, rfl⟩ := hexact
      simp only [simplify?] at h
      split at h
      case isTrue hk =>
          cases h
          rw [ha, hone 1 hk, Int.tdiv_one]
      case isFalse =>
          split at h
          case isTrue hk =>
              cases h
              rw [hzero 0 hk, Int.zero_tdiv]
              rfl
          case isFalse => cases h
  | mod =>
      simp only [exactInt?, Option.ite_none_right_eq_some, Option.some.injEq] at hexact
      obtain ⟨-, rfl⟩ := hexact
      simp only [simplify?] at h
      split at h
      case isTrue hk =>
          cases h
          rcases Bool.or_eq_true_iff.1 hk with hk | hk
          · rw [hone 1 hk, Int.tmod_one]
            rfl
          · rw [hzero 0 hk, Int.zero_tmod]
            rfl
      case isFalse => cases h
  | ceilDiv =>
      simp only [exactInt?, Option.ite_none_right_eq_some, Option.some.injEq] at hexact
      obtain ⟨-, rfl⟩ := hexact
      simp only [simplify?] at h
      split at h
      case isTrue hk =>
          cases h
          rw [ha, hone 1 hk, Int.ediv_one, Int.add_sub_cancel]
      case isFalse => cases h
  | _ => cases hexact

/-- A folded operation is the exact value or what the operator makes of its operands. -/
theorem evaluate_mkBinary_cases (hexact : exactInt? op m n = some r)
    (ha : a.evaluate env = some (.int m)) (hb : b.evaluate env = some (.int n)) :
    (mkBinary op a b).evaluate env = some (.int r) ∨
      (mkBinary op a b).evaluate env = foldInt op m n := by
  unfold mkBinary
  split
  case h_1 c hc =>
      right
      unfold foldLiterals at hc
      split at hc
      · cases ha
        cases hb
        rw [hc, evaluate_ofConstant]
      · cases hc
  case h_2 =>
      cases hs : simplify? op a b with
      | some s => exact .inl (evaluate_simplify hexact ha hb hs)
      | none =>
          right
          rw [Option.getD_none, evaluate, ha, hb]
          rfl

/-- What a folded operation evaluates to is exact. -/
theorem evaluate_mkBinary_eq (hexact : exactInt? op m n = some r)
    (ha : a.evaluate env = some (.int m)) (hb : b.evaluate env = some (.int n)) {c : Constant}
    (h : (mkBinary op a b).evaluate env = some c) : c = .int r := by
  rcases evaluate_mkBinary_cases hexact ha hb with heq | heq
  · rw [heq] at h
    exact (Option.some.inj h).symm
  · rw [heq] at h
    exact foldInt_eq hexact h

/-- A folded operation evaluates if its result fits. -/
theorem evaluate_mkBinary_of_fits (hexact : exactInt? op m n = some r)
    (ha : a.evaluate env = some (.int m)) (hb : b.evaluate env = some (.int n)) (hr : Fits64 r) :
    (mkBinary op a b).evaluate env = some (.int r) := by
  rcases evaluate_mkBinary_cases hexact ha hb with heq | heq
  · exact heq
  · rw [heq, foldInt_of_fits hexact hr]

/-- A sum that evaluates has operands that evaluate. -/
theorem evaluate_operands_of_add {c : Constant} (h : (a.add b).evaluate env = some c) :
    (∃ x, a.evaluate env = some x) ∧ ∃ y, b.evaluate env = some y := by
  unfold add mkBinary at h
  split at h
  case h_1 hc =>
      unfold foldLiterals at hc
      split at hc
      · exact ⟨⟨_, rfl⟩, _, rfl⟩
      · cases hc
  case h_2 =>
      cases hs : simplify? .add a b with
      | none =>
          rw [hs, Option.getD_none, evaluate] at h
          split at h
          · cases h
          case h_2 x hx =>
              split at h
              · cases h
              case h_2 y hy => exact ⟨⟨x, hx⟩, y, hy⟩
      | some s =>
          rw [hs, Option.getD_some] at h
          simp only [simplify?] at hs
          split at hs
          case isTrue hk =>
              cases hs
              rw [eq_of_isInt hk]
              exact ⟨⟨_, rfl⟩, c, h⟩
          case isFalse =>
              split at hs
              case isTrue hk =>
                  cases hs
                  rw [eq_of_isInt hk]
                  exact ⟨⟨c, h⟩, _, rfl⟩
              case isFalse => cases hs

/-! ## Conditions -/

/-- A scalar that stands for truth values only. -/
structure IsCondition (s : Scalar) : Prop where
  notInt : ∀ k, s ≠ .int k
  truth : ∀ env c, s.evaluate env = some c → ∃ t, c = .bool t

/-- A truth value is a condition. -/
theorem IsCondition.bool (t : Bool) : IsCondition (.bool t) := by
  refine ⟨fun k h => (by cases h), fun env c h => ?_⟩
  cases h
  exact ⟨t, rfl⟩

/-- A comparison that is not simplified away. -/
theorem IsCondition.binary (hop : op = .lt ∨ op = .eq) (a b : Scalar) :
    IsCondition (.binary op a b) := by
  refine ⟨fun k h => (by cases h), fun env c h => ?_⟩
  rw [evaluate] at h
  split at h
  · cases h
  · split at h
    · cases h
    · unfold evalBinary at h
      rcases hop with rfl | rfl
      all_goals
        split at h
        · cases h
          exact ⟨_, rfl⟩
        · cases h
          exact ⟨_, rfl⟩

/-- A comparison that is folded is a condition. -/
theorem IsCondition.mkBinary (hop : op = .lt ∨ op = .eq) (a b : Scalar) :
    IsCondition (Scalar.mkBinary op a b) := by
  unfold Scalar.mkBinary
  split
  case h_1 c hc =>
      unfold foldLiterals at hc
      split at hc
      · rcases hop with rfl | rfl
        all_goals
          cases hc
          exact .bool _
      · cases hc
  case h_2 =>
      have hbinary := IsCondition.binary hop a b
      rcases hop with rfl | rfl
      all_goals
        simp only [simplify?]
        split
        · exact .bool _
        · exact hbinary

/-- A comparison is a condition. -/
theorem IsCondition.lt (a b : Scalar) : IsCondition (a.lt b) :=
  .mkBinary (.inl rfl) a b

/-- A test for equality is a condition. -/
theorem IsCondition.eq (a b : Scalar) : IsCondition (a.eq b) :=
  .mkBinary (.inr rfl) a b

/-- Conditions are not folded as numbers. -/
theorem foldLiterals_and (ha : IsCondition a) : foldLiterals .and a b = none := by
  unfold foldLiterals
  split
  · exact absurd rfl (ha.notInt _)
  · rfl

/-- A conjunction of conditions is a condition, and it holds when both hold. -/
theorem evaluate_and_iff (ha : IsCondition a) (hb : IsCondition b) :
    IsCondition (a.and b) ∧ ∀ env, (a.and b).evaluate env = some (.bool true) ↔
      a.evaluate env = some (.bool true) ∧ b.evaluate env = some (.bool true) := by
  unfold Scalar.and mkBinary
  rw [foldLiterals_and ha]
  simp only [simplify?]
  split
  case isTrue h =>
      rw [eq_of_isBool h, Option.getD_some]
      exact ⟨hb, fun env => ⟨fun hb => ⟨rfl, hb⟩, fun h => h.2⟩⟩
  case isFalse =>
      split
      case isTrue h =>
          rw [eq_of_isBool h, Option.getD_some]
          exact ⟨ha, fun env => ⟨fun ha => ⟨ha, rfl⟩, fun h => h.1⟩⟩
      case isFalse =>
          split
          case isTrue h =>
              refine ⟨.bool _, fun env => ⟨fun hfalse => ?_, fun hboth => ?_⟩⟩
              · cases hfalse
              · rcases Bool.or_eq_true_iff.1 h with h | h
                · rw [eq_of_isBool h] at hboth
                  cases hboth.1
                · rw [eq_of_isBool h] at hboth
                  cases hboth.2
          case isFalse =>
              rw [Option.getD_none]
              refine ⟨⟨fun k h => (by cases h), fun env c h => ?_⟩, fun env => ?_⟩
              · rw [evaluate] at h
                split at h
                · cases h
                case h_2 x hx =>
                    split at h
                    · cases h
                    case h_2 y hy =>
                        obtain ⟨s, rfl⟩ := ha.truth env x hx
                        obtain ⟨t, rfl⟩ := hb.truth env y hy
                        cases h
                        exact ⟨_, rfl⟩
              · rw [evaluate]
                cases hx : a.evaluate env with
                | none => simp
                | some x =>
                    cases hy : b.evaluate env with
                    | none => simp
                    | some y =>
                        obtain ⟨s, rfl⟩ := ha.truth env x hx
                        obtain ⟨t, rfl⟩ := hb.truth env y hy
                        simp [evalBinary, Constant.toBool]

/-- All of several conditions. -/
theorem IsCondition.all {terms : List Scalar} (h : ∀ s ∈ terms, IsCondition s) :
    IsCondition (Scalar.all terms) := by
  unfold Scalar.all
  exact List.foldlRecOn (motive := IsCondition) _ _ (.bool true) fun s hs t ht =>
    (evaluate_and_iff hs (h t ht)).1

/-- A conjunction holds when all of its terms hold. -/
theorem evaluate_all_iff {terms : List Scalar} (hterms : ∀ s ∈ terms, IsCondition s) (env : Env) :
    (all terms).evaluate env = some (.bool true) ↔
      ∀ s ∈ terms, s.evaluate env = some (.bool true) := by
  have hrun : ∀ (l : List Scalar) (acc : Scalar), IsCondition acc → (∀ s ∈ l, IsCondition s) →
      ((l.foldl and acc).evaluate env = some (.bool true) ↔
        acc.evaluate env = some (.bool true) ∧ ∀ s ∈ l, s.evaluate env = some (.bool true)) := by
    intro l
    induction l with
    | nil => simp
    | cons s l ih =>
        intro acc hacc hl
        obtain ⟨hcond, hiff⟩ := evaluate_and_iff hacc (hl s List.mem_cons_self)
        rw [List.foldl_cons, ih _ hcond fun t ht => hl t (List.mem_cons_of_mem s ht), hiff]
        simp only [List.mem_cons, forall_eq_or_imp, and_assoc]
  unfold all
  rw [hrun terms truth (.bool true) hterms]
  simp [truth, evaluate]

/-! ## Equality tests -/

/-- No floating-point literal occurs in the scalar. -/
def floatFree : Scalar → Bool
  | .float _ => false
  | .unary _ x => x.floatFree
  | .binary _ a b => a.floatFree && b.floatFree
  | .select c a b => c.floatFree && a.floatFree && b.floatFree
  | _ => true

/-- The equality test is exact but on floating-point literals, where both zeros are equal. -/
theorem eq_of_beq_floatFree (hfree : a.floatFree = true ∨ b.floatFree = true)
    (h : (a == b) = true) : a = b := by
  induction b generalizing a with
  | float v =>
      cases a with
      | float w => simp [floatFree] at hfree
      | _ => cases h
  | int v | bool v | launchIndex v | launchExtent v | loop v =>
      cases a with
      | int w | bool w | launchIndex w | launchExtent w | loop w =>
          first
            | cases h
            | have h' : (w == v) = true := h
              rw [eq_of_beq h']
      | _ => cases h
  | input v t | size v t | stride v t =>
      cases a with
      | input w t' | size w t' | stride w t' =>
          first
            | cases h
            | have h' : (w == v && t' == t) = true := h
              obtain ⟨hv, ht⟩ := Bool.and_eq_true_iff.1 h'
              rw [eq_of_beq hv, eq_of_beq ht]
      | _ => cases h
  | unary op x ih =>
      cases a with
      | unary op' x' =>
          have h' : (op' == op && x' == x) = true := h
          obtain ⟨hop, hx⟩ := Bool.and_eq_true_iff.1 h'
          rw [eq_of_beq hop, ih (a := x') hfree hx]
      | _ => cases h
  | binary op x y ihx ihy =>
      cases a with
      | binary op' x' y' =>
          have h' : (op' == op && (x' == x && y' == y)) = true := h
          simp only [Bool.and_eq_true] at h'
          simp only [floatFree, Bool.and_eq_true] at hfree
          rw [eq_of_beq h'.1, ihx (hfree.imp And.left And.left) h'.2.1,
            ihy (hfree.imp And.right And.right) h'.2.2]
      | _ => cases h
  | select c x y ihc ihx ihy =>
      cases a with
      | select c' x' y' =>
          have h' : (c' == c && (x' == x && y' == y)) = true := h
          simp only [Bool.and_eq_true] at h'
          simp only [floatFree, Bool.and_eq_true] at hfree
          rw [ihc (hfree.imp (·.1.1) (·.1.1)) h'.1, ihx (hfree.imp (·.1.2) (·.1.2)) h'.2.1,
            ihy (hfree.imp And.right And.right) h'.2.2]
      | _ => cases h

/-- A scalar that compares equal to a number is this number. -/
theorem eq_int_of_beq {k : Int} (h : (a == .int k) = true) : a = .int k := by
  cases a with
  | int v =>
      have hv : (v == k) = true := h
      rw [eq_of_beq hv]
  | _ => cases h

/-- A scalar that compares equal to a size is this size. -/
theorem eq_size_of_beq {t : ValueId} {d : Nat} (h : (a == .size t d) = true) : a = .size t d := by
  cases a with
  | size t' d' =>
      have hv : (t' == t && d' == d) = true := h
      obtain ⟨ht, hd⟩ := Bool.and_eq_true_iff.1 hv
      rw [eq_of_beq ht, eq_of_beq hd]
  | _ => cases h

/-- A comparison with a literal or a size holds when the values compare. -/
theorem evaluate_lt_iff (hplain : (∃ k, b = .int k) ∨ ∃ t d, b = .size t d)
    (ha : a.evaluate env = some (.int m)) (hb : b.evaluate env = some (.int n)) :
    (a.lt b).evaluate env = some (.bool true) ↔ m < n := by
  unfold Scalar.lt mkBinary
  split
  case h_1 c hc =>
      unfold foldLiterals at hc
      split at hc
      · cases hc
        cases ha
        cases hb
        simp [ofConstant, evaluate]
      · cases hc
  case h_2 =>
      simp only [simplify?]
      split
      case isTrue heq =>
          have hab : a = b := by
            rcases hplain with ⟨k, rfl⟩ | ⟨t, d, rfl⟩
            · exact eq_int_of_beq heq
            · exact eq_size_of_beq heq
          subst hab
          rw [ha] at hb
          cases hb
          simp [evaluate]
      case isFalse =>
          rw [Option.getD_none, evaluate, ha, hb]
          simp [evalBinary, foldInt]

end Scalar
end FusionCompiler
