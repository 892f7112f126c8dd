import FusionCompiler.Proofs.Kernel.Substitution

/-!
# Integer and boolean scalars

Indices and sizes are integers, predicates are truth values, and kernel
arithmetic keeps the two apart: arithmetic and comparisons take integers,
conjunctions and disjunctions take truth values, and a selection asks a truth
value.  Over such scalars the folding constructors may be read as plain
operations: a folded scalar has the value of the operation that it stands for
wherever the operation has one.  It may have one more often, since a product
with zero does not look at its other factor.

Integers are 64-bit words.  A negation and the sum behind a quotient that is
rounded up wrap around; sums, differences and products that leave the word have no
value.

Main results:

- Theorem `Scalar.HasKind.substitute`: a substitution by integers keeps the kind
  of a scalar.
- Theorem `Scalar.keeps_mkBinary`: a folded operation has the value of the
  operation.
- Theorem `Scalar.substitute_and_folding_keep`: replacing loop indices and
  folding on the way up has the value of the scalar with the loop indices bound
  to the values of their images.
-/

namespace FusionCompiler

/-- What a scalar of index arithmetic stands for. -/
inductive Kind where
  | int
  | bool
deriving DecidableEq, Repr

/-- The kind of the elements of a type; floating-point numbers have none. -/
def DataType.kind? : DataType → Option Kind
  | .bool => some .bool
  | .int32 | .int64 => some .int
  | .half | .float | .double => none

/-- The kind of a constant; a floating-point number has none. -/
def Constant.kind? : Constant → Option Kind
  | .bool _ => some .bool
  | .int _ => some .int
  | .float _ => none

/-- The constants of integer kind. -/
theorem Constant.kind?_eq_int {c : Constant} : c.kind? = some .int ↔ ∃ n, c = .int n := by
  cases c <;> simp [Constant.kind?]

/-- The constants of Boolean kind. -/
theorem Constant.kind?_eq_bool {c : Constant} : c.kind? = some .bool ↔ ∃ t, c = .bool t := by
  cases c <;> simp [Constant.kind?]

/-- The kind that a binary operator takes. -/
def BinaryOp.takes (op : BinaryOp) : Kind :=
  if op.isLogical then .bool else .int

/-- The kind that a binary operator makes. -/
def BinaryOp.makes (op : BinaryOp) : Kind :=
  if op.yieldsBool then .bool else .int

namespace Scalar

/-- The scalar is well typed and stands for a value of the kind.  Scalar arguments have the types
listed. -/
inductive HasKind (types : ValueId → DataType) : Scalar → Kind → Prop where
  | int (n : Int) : HasKind types (.int n) .int
  | bool (b : Bool) : HasKind types (.bool b) .bool
  | input (v : ValueId) {k : Kind} (hv : (types v).kind? = some k) :
      HasKind types (.input v (types v)) k
  | size (t : ValueId) (d : Nat) : HasKind types (.size t d) .int
  | stride (t : ValueId) (d : Nat) : HasKind types (.stride t d) .int
  | launchIndex (p : ParallelType) : HasKind types (.launchIndex p) .int
  | launchExtent (p : ParallelType) : HasKind types (.launchExtent p) .int
  | loop (l : LoopId) : HasKind types (.loop l) .int
  /-- A copy and a conversion keep what they are given. -/
  | copy {op : UnaryOp} (hop : op = .set ∨ op = .cast) {x : Scalar} {k : Kind}
      (hx : HasKind types x k) : HasKind types (.unary op x) k
  | signed {op : UnaryOp} (hop : op = .neg ∨ op = .abs) {x : Scalar}
      (hx : HasKind types x .int) : HasKind types (.unary op x) .int
  | binary (op : BinaryOp) {a b : Scalar} (ha : HasKind types a op.takes)
      (hb : HasKind types b op.takes) : HasKind types (.binary op a b) op.makes
  | select {c a b : Scalar} {k : Kind} (hc : HasKind types c .bool) (ha : HasKind types a k)
      (hb : HasKind types b k) : HasKind types (.select c a b) k

/-- Scalar arguments of an integer or boolean type are given integers or truth values. -/
def Env.Respects (env : Env) (types : ValueId → DataType) : Prop :=
  ∀ v k, (types v).kind? = some k → ∀ c, env.input v = some c → c.kind? = some k

/-- The environment with every loop index that has an image bound to the value of the image. -/
def Env.extend (env : Env) (g : LoopId → Option Scalar) : Env :=
  { env with loop := fun l => match g l with
      | some s => s.evaluateInt env
      | none => env.loop l }

/-- The second scalar has the value of the first, each in its own environment, wherever the first
has one. -/
def Keeps (env : Env) (s : Scalar) (env' : Env) (t : Scalar) : Prop :=
  ∀ c, s.evaluate env = some c → t.evaluate env' = some c

variable {types : ValueId → DataType} {env env' : Env} {g : LoopId → Option Scalar}
variable {op : BinaryOp} {a b s t x : Scalar} {k : Kind} {c : Constant} {m n : Int}

/-! ## Kinds -/

/-- Scalars with a kind have no floats. -/
theorem HasKind.floatFree (h : HasKind types s k) : s.floatFree = true := by
  induction h with
  | copy _ _ ih | signed _ _ ih => exact ih
  | binary op _ _ iha ihb => simp [Scalar.floatFree, iha, ihb]
  | select _ _ _ ihc iha ihb => simp [Scalar.floatFree, ihc, iha, ihb]
  | _ => rfl

/-- The kinds of a binary operation and of its operands. -/
theorem HasKind.of_binary (h : HasKind types (.binary op a b) k) :
    k = op.makes ∧ HasKind types a op.takes ∧ HasKind types b op.takes := by
  cases h with
  | binary _ ha hb => exact ⟨rfl, ha, hb⟩

/-- An operator makes of integers what its kind says. -/
theorem kind_foldInt (h : foldInt op m n = some c) : c.kind? = some op.makes := by
  cases op with
  | add | sub | mul =>
      obtain ⟨r, -, rfl⟩ := Option.map_eq_some_iff.1 h
      rfl
  | div =>
      simp only [foldInt, Option.ite_none_left_eq_some] at h
      obtain ⟨r, -, rfl⟩ := Option.map_eq_some_iff.1 h.2
      rfl
  | mod | ceilDiv =>
      simp only [foldInt, Option.ite_none_left_eq_some, Option.some.injEq] at h
      rw [← h.2]
      rfl
  | _ =>
      cases h
      rfl

/-- A scalar evaluates to a constant of its kind. -/
theorem HasKind.kind_evaluate (h : HasKind types s k) (henv : env.Respects types)
    (hc : s.evaluate env = some c) : c.kind? = some k := by
  induction h generalizing c with
  | int | bool =>
      cases hc
      rfl
  | input v hv => exact henv v _ hv c hc
  | size | stride | launchIndex | launchExtent | loop =>
      obtain ⟨n, -, rfl⟩ := Option.map_eq_some_iff.1 hc
      rfl
  | copy hop hx ih =>
      obtain ⟨y, hy, rfl⟩ := Option.map_eq_some_iff.1 hc
      rcases hop with rfl | rfl <;> simpa [evalUnary] using ih hy
  | signed hop hx ih =>
      obtain ⟨y, hy, rfl⟩ := Option.map_eq_some_iff.1 hc
      obtain ⟨n, rfl⟩ := Constant.kind?_eq_int.1 (ih hy)
      rcases hop with rfl | rfl <;> rfl
  | @binary op a b ha hb iha ihb =>
      rw [evaluate] at hc
      split at hc
      · cases hc
      case h_2 y hy =>
          split at hc
          · cases hc
          case h_2 z hz =>
              have hky := iha hy
              have hkz := ihb hz
              by_cases hlogical : op.isLogical = true
              · rw [BinaryOp.takes, if_pos hlogical] at hky hkz
                obtain ⟨p, rfl⟩ := Constant.kind?_eq_bool.1 hky
                obtain ⟨q, rfl⟩ := Constant.kind?_eq_bool.1 hkz
                cases op with
                | and | or =>
                    cases hc
                    rfl
                | _ => cases hlogical
              · rw [BinaryOp.takes, if_neg hlogical] at hky hkz
                obtain ⟨p, rfl⟩ := Constant.kind?_eq_int.1 hky
                obtain ⟨q, rfl⟩ := Constant.kind?_eq_int.1 hkz
                exact kind_foldInt hc
  | select _ _ _ _ iha ihb =>
      rw [evaluate] at hc
      split at hc
      · cases hc
      · split at hc
        · exact iha hc
        · exact ihb hc

/-- A constant as a scalar has its own kind. -/
theorem HasKind.ofConstant (hc : c.kind? = some k) : HasKind types (ofConstant c) k := by
  cases c with
  | int n =>
      cases hc
      exact .int n
  | bool t =>
      cases hc
      exact .bool t
  | float r => cases hc

/-- An operator that simplifies to one of its operands makes what it takes. -/
theorem HasKind.simplify (ha : HasKind types a op.takes) (hb : HasKind types b op.takes)
    (h : simplify? op a b = some s) : HasKind types s op.makes := by
  have hzero : HasKind types zero .int := .int 0
  have hbool : ∀ t, HasKind types (.bool t) .bool := .bool
  have htruth : HasKind types truth .bool := .bool true
  cases op <;> simp only [simplify?] at h <;>
    simp only [BinaryOp.takes, BinaryOp.makes, BinaryOp.isLogical, BinaryOp.yieldsBool,
      BinaryOp.isComparison] at ha hb ⊢ <;> grind

/-- Folding a binary operation keeps its kind. -/
theorem HasKind.mkBinary (h : HasKind types (.binary op a b) k) :
    HasKind types (Scalar.mkBinary op a b) k := by
  obtain ⟨rfl, ha, hb⟩ := h.of_binary
  rcases mkBinary_cases op a b with ⟨m, n, c, -, -, hc, heq⟩ | ⟨s, hs, heq⟩ | ⟨-, heq⟩
  · rw [heq]
    exact .ofConstant (kind_foldInt hc)
  · rw [heq]
    exact ha.simplify hb hs
  · rw [heq]
    exact h

/-- Folding a unary operation keeps its kind. -/
theorem HasKind.mkUnary {op : UnaryOp} (h : HasKind types (.unary op x) k) :
    HasKind types (Scalar.mkUnary op x) k := by
  unfold Scalar.mkUnary
  split
  · cases h with
    | copy _ hx => exact hx
    | signed hop => simp at hop
  · cases h with
    | copy hop => simp at hop
    | signed => exact .int _
  · exact h

/-- Folding a choice keeps its kind. -/
theorem HasKind.mkSelect (h : HasKind types (.select s a b) k) :
    HasKind types (Scalar.mkSelect s a b) k := by
  cases h with
  | select hc ha hb =>
      unfold Scalar.mkSelect
      split
      · exact ha
      · exact hb
      · exact .select hc ha hb

/-- A substitution by integers keeps the kind of a scalar. -/
theorem HasKind.substitute (h : HasKind types s k)
    (hg : ∀ l t, g l = some t → HasKind types t .int) : HasKind types (s.substitute g) k := by
  induction h with
  | loop l =>
      rw [Scalar.substitute]
      cases hl : g l with
      | none => exact .loop l
      | some t => exact hg l t hl
  | copy hop hx ih => exact HasKind.mkUnary (.copy hop ih)
  | signed hop hx ih => exact HasKind.mkUnary (.signed hop ih)
  | binary op ha hb iha ihb => exact HasKind.mkBinary (.binary op iha ihb)
  | select hc ha hb ihc iha ihb => exact HasKind.mkSelect (.select ihc iha ihb)
  | int n => exact .int n
  | bool b => exact .bool b
  | input v hv => exact .input v hv
  | size t d => exact .size t d
  | stride t d => exact .stride t d
  | launchIndex p => exact .launchIndex p
  | launchExtent p => exact .launchExtent p

/-! ## Keeping a value -/

/-- A scalar has the values that it has. -/
theorem Keeps.refl (env : Env) (s : Scalar) : Keeps env s env s :=
  fun _ h => h

/-- Changes of a scalar one after another. -/
theorem Keeps.trans {r : Scalar} (h : Keeps env s env' t) (h' : Keeps env' t env' r) :
    Keeps env s env' r :=
  fun c hc => h' c (h c hc)

/-- A unary operation over a changed operand. -/
theorem Keeps.unary {y : Scalar} (op : UnaryOp) (h : Keeps env x env' y) :
    Keeps env (.unary op x) env' (.unary op y) := by
  intro c hc
  obtain ⟨r, hr, rfl⟩ := Option.map_eq_some_iff.1 hc
  rw [evaluate, h r hr]
  rfl

/-- A binary operation over changed operands. -/
theorem Keeps.binary {a' b' : Scalar} (op : BinaryOp) (ha : Keeps env a env' a')
    (hb : Keeps env b env' b') : Keeps env (.binary op a b) env' (.binary op a' b') := by
  intro c hc
  rw [evaluate] at hc
  split at hc
  · cases hc
  case h_2 y hy =>
      split at hc
      · cases hc
      case h_2 z hz =>
          rw [evaluate, ha y hy, hb z hz]
          exact hc

/-- A choice among changed operands. -/
theorem Keeps.select {s' a' b' : Scalar} (hs : Keeps env s env' s') (ha : Keeps env a env' a')
    (hb : Keeps env b env' b') : Keeps env (.select s a b) env' (.select s' a' b') := by
  intro c hc
  rw [evaluate] at hc
  split at hc
  · cases hc
  case h_2 y hy =>
      rw [evaluate, hs y hy]
      by_cases htrue : y.toBool = true
      · simp only [htrue, if_true] at hc ⊢
        exact ha c hc
      · simp only [htrue] at hc ⊢
        exact hb c hc

/-! ## Folding -/

/-- An integer literal has its own value. -/
theorem eq_of_isInt_of_evaluate {i : Int} (hi : x.isInt i = true)
    (hx : x.evaluate env = some (.int m)) : m = i := by
  rw [eq_of_isInt hi] at hx
  cases hx
  rfl

/-- A truth value as a literal has its own value. -/
theorem eq_of_isBool_of_evaluate {p q : Bool} (hp : x.isBool p = true)
    (hx : x.evaluate env = some (.bool q)) : q = p := by
  rw [eq_of_isBool hp] at hx
  cases hx
  rfl

/-- A scalar with an integer value is no truth value. -/
theorem isBool_of_evaluate_int (hx : x.evaluate env = some (.int m)) (p : Bool) :
    x.isBool p = false := by
  rw [Bool.eq_false_iff]
  intro hp
  rw [eq_of_isBool hp] at hx
  cases hx

/-- Scalars that compare equal have equal values, if they have no floating-point literals. -/
theorem eq_of_beq_of_evaluate (hfree : a.floatFree = true) (heq : (a == b) = true)
    (ha : a.evaluate env = some (.int m)) (hb : b.evaluate env = some (.int n)) : m = n := by
  rw [← eq_of_beq_floatFree (.inl hfree) heq, ha] at hb
  cases hb
  rfl

/-- An operator over integers with a neutral, an absorbing or two equal operands has the value of
the operand or the literal that it simplifies to. -/
theorem evaluate_simplify_of_foldInt
    (hfree : op.isComparison = true ∨ op = .max ∨ op = .min → a.floatFree = true)
    (ha : a.evaluate env = some (.int m)) (hb : b.evaluate env = some (.int n))
    (hc : foldInt op m n = some c) (hs : simplify? op a b = some s) :
    s.evaluate env = some c := by
  have hleft : ∀ i, a.isInt i = true → m = i := fun _ hi => eq_of_isInt_of_evaluate hi ha
  have hright : ∀ i, b.isInt i = true → n = i := fun _ hi => eq_of_isInt_of_evaluate hi hb
  have hequal : a.floatFree = true → (a == b) = true → m = n := fun hfree heq =>
    eq_of_beq_of_evaluate hfree heq ha hb
  have hzero : zero.evaluate env = some (.int 0) := rfl
  cases op with
  | add | sub | mul =>
      obtain ⟨r, hr, rfl⟩ := Option.map_eq_some_iff.1 hc
      have hval := eq_of_checked64 hr
      simp only [simplify?] at hs
      grind
  | div =>
      simp only [foldInt, Option.ite_none_left_eq_some] at hc
      obtain ⟨r, hr, rfl⟩ := Option.map_eq_some_iff.1 hc.2
      have hval := eq_of_checked64 hr
      simp only [simplify?] at hs
      split at hs
      case isTrue hone =>
          cases hs
          rw [ha, hval, hright 1 hone, Int.tdiv_one]
      case isFalse =>
          split at hs
          case isTrue hnull =>
              cases hs
              rw [hzero, hval, hleft 0 hnull, Int.zero_tdiv]
          case isFalse => cases hs
  | mod =>
      simp only [foldInt, Option.ite_none_left_eq_some, Option.some.injEq] at hc
      simp only [simplify?] at hs
      split at hs
      case isTrue htrivial =>
          cases hs
          rw [hzero, ← hc.2]
          rcases Bool.or_eq_true_iff.1 htrivial with hone | hnull
          · rw [hright 1 hone, Int.tmod_one]
          · rw [hleft 0 hnull, Int.zero_tmod]
      case isFalse => cases hs
  | ceilDiv =>
      simp only [foldInt, Option.ite_none_left_eq_some, Option.some.injEq] at hc
      simp only [simplify?] at hs
      split at hs
      case isTrue hone =>
          cases hs
          rw [ha, ← hc.2, hright 1 hone, BinaryOp.roundedUp_one]
      case isFalse => cases hs
  | max | min =>
      have hequal := hequal (hfree (by simp))
      simp only [foldInt, Option.some.injEq] at hc
      simp only [simplify?] at hs
      grind
  | lt | le | eq | ne =>
      have hequal := hequal (hfree (.inl rfl))
      simp only [foldInt, Option.some.injEq] at hc
      simp only [simplify?, truth] at hs
      grind [evaluate]
  | gt | ge => cases hs
  | and | or => simp [simplify?, isBool_of_evaluate_int ha, isBool_of_evaluate_int hb] at hs

/-- A folded operation over integers has the value of the operation, if it does not compare operands
with floating-point literals. -/
theorem evaluate_mkBinary_of_foldInt
    (hfree : op.isComparison = true ∨ op = .max ∨ op = .min → a.floatFree = true)
    (ha : a.evaluate env = some (.int m)) (hb : b.evaluate env = some (.int n))
    (hc : foldInt op m n = some c) : (mkBinary op a b).evaluate env = some c := by
  rcases mkBinary_cases op a b with ⟨m', n', c', rfl, rfl, hc', heq⟩ | ⟨s, hs, heq⟩ | ⟨-, heq⟩
  · cases ha
    cases hb
    rw [hc] at hc'
    cases hc'
    rw [heq, evaluate_ofConstant]
  · rw [heq]
    exact evaluate_simplify_of_foldInt hfree ha hb hc hs
  · rw [heq, evaluate, ha, hb]
    exact hc

/-- A folded conjunction or disjunction of truth values has the value of the operation. -/
theorem evaluate_mkBinary_of_logical (hop : op.isLogical = true) {p q : Bool}
    (ha : a.evaluate env = some (.bool p)) (hb : b.evaluate env = some (.bool q))
    (hc : evalBinary op (.bool p) (.bool q) = some c) :
    (mkBinary op a b).evaluate env = some c := by
  have hleft : ∀ t, a.isBool t = true → p = t := fun _ ht => eq_of_isBool_of_evaluate ht ha
  have hright : ∀ t, b.isBool t = true → q = t := fun _ ht => eq_of_isBool_of_evaluate ht hb
  rcases mkBinary_cases op a b with ⟨m, n, c', rfl, -⟩ | ⟨s, hs, heq⟩ | ⟨-, heq⟩
  · cases ha
  · rw [heq]
    cases op with
    | and =>
        have hval : c = .bool (p && q) := (Option.some.inj hc).symm
        simp only [simplify?] at hs
        grind [evaluate]
    | or =>
        have hval : c = .bool (p || q) := (Option.some.inj hc).symm
        simp only [simplify?, truth] at hs
        grind [evaluate]
    | _ => cases hop
  · rw [heq, evaluate, ha, hb]
    exact hc

/-- A folded operation has the value of the operation. -/
theorem keeps_mkBinary (henv : env.Respects types) (h : HasKind types (.binary op a b) k) :
    Keeps env (.binary op a b) env (mkBinary op a b) := by
  obtain ⟨-, ha, hb⟩ := h.of_binary
  intro c hc
  rw [evaluate] at hc
  split at hc
  · cases hc
  case h_2 y hy =>
      split at hc
      · cases hc
      case h_2 z hz =>
          have hky := ha.kind_evaluate henv hy
          have hkz := hb.kind_evaluate henv hz
          by_cases hlogical : op.isLogical = true
          · rw [BinaryOp.takes, if_pos hlogical] at hky hkz
            obtain ⟨p, rfl⟩ := Constant.kind?_eq_bool.1 hky
            obtain ⟨q, rfl⟩ := Constant.kind?_eq_bool.1 hkz
            exact evaluate_mkBinary_of_logical hlogical hy hz hc
          · rw [BinaryOp.takes, if_neg hlogical] at hky hkz
            obtain ⟨p, rfl⟩ := Constant.kind?_eq_int.1 hky
            obtain ⟨q, rfl⟩ := Constant.kind?_eq_int.1 hkz
            exact evaluate_mkBinary_of_foldInt (fun _ => ha.floatFree) hy hz hc

/-- A folded operation of one operand has the value of the operation. -/
theorem keeps_mkUnary (op : UnaryOp) (x : Scalar) :
    Keeps env (.unary op x) env (mkUnary op x) := by
  intro c hc
  unfold mkUnary
  split
  · obtain ⟨y, hy, rfl⟩ := Option.map_eq_some_iff.1 hc
    simpa [evalUnary] using hy
  · exact hc
  · exact hc

/-- A folded selection has the value of the selection. -/
theorem keeps_mkSelect (s a b : Scalar) : Keeps env (.select s a b) env (mkSelect s a b) := by
  intro c hc
  unfold mkSelect
  split
  · simpa [evaluate, Constant.toBool] using hc
  · simpa [evaluate, Constant.toBool] using hc
  · exact hc

/-- A folded conjunction has the value of the conjunction of its terms. -/
theorem keeps_all (henv : env.Respects types) {terms : List Scalar}
    (hterms : ∀ t ∈ terms, HasKind types t .bool) :
    Keeps env (terms.foldl (.binary .and) truth) env (all terms) := by
  -- what is folded so far has the value of what is not, and stays a truth value
  have hrun : ∀ (l : List Scalar) (u v : Scalar), (∀ t ∈ l, HasKind types t .bool) →
      HasKind types v .bool → Keeps env u env v →
      Keeps env (l.foldl (.binary .and) u) env (l.foldl Scalar.and v) := by
    intro l
    induction l with
    | nil => exact fun u v _ _ huv => huv
    | cons t l ih =>
        intro u v hl hv huv
        have ht : HasKind types t .bool := hl t List.mem_cons_self
        have hand : HasKind types (.binary .and v t) .bool := .binary .and hv ht
        apply ih
        · exact fun r hr => hl r (List.mem_cons_of_mem t hr)
        · exact hand.mkBinary
        · exact (huv.binary .and (.refl env t)).trans (keeps_mkBinary henv hand)
  exact hrun terms truth truth hterms (.bool true) (.refl env truth)

/-! ## Substitution -/

/-- A loop index that is bound to the value of its image has that value. -/
theorem keeps_loop (henv : env.Respects types) (hg : ∀ l t, g l = some t → HasKind types t .int)
    (l : LoopId) : Keeps (env.extend g) (.loop l) env ((g l).getD (.loop l)) := by
  intro c hc
  obtain ⟨n, hn, rfl⟩ := Option.map_eq_some_iff.1 hc
  simp only [Env.extend] at hn
  cases hl : g l with
  | none =>
      rw [hl] at hn
      simp [evaluate, hn]
  | some t =>
      rw [hl] at hn
      obtain ⟨y, hy, rfl⟩ := Option.map_eq_some_iff.1 hn
      obtain ⟨n, rfl⟩ := Constant.kind?_eq_int.1 ((hg l t hl).kind_evaluate henv hy)
      exact hy

/-- A substitution has the value of the scalar with the loop indices bound to the values of their
images. -/
theorem keeps_substitute (henv : env.Respects types)
    (hg : ∀ l t, g l = some t → HasKind types t .int) (h : HasKind types s k) :
    Keeps (env.extend g) s env (s.substitute g) := by
  induction h with
  | loop l => exact keeps_loop henv hg l
  | copy hop hx ih | signed hop hx ih => exact (ih.unary _).trans (keeps_mkUnary _ _)
  | binary op ha hb iha ihb =>
      have hkind : HasKind types (.binary op (Scalar.substitute g _) (Scalar.substitute g _)) _ :=
        .binary op (ha.substitute hg) (hb.substitute hg)
      exact (iha.binary op ihb).trans (keeps_mkBinary henv hkind)
  | select hc ha hb ihc iha ihb => exact (ihc.select iha ihb).trans (keeps_mkSelect _ _ _)
  | _ => exact fun c hc => hc

/-- Replacing loop indices by integers has the value of the scalar with the loop indices bound to
the values of their images, and every folding constructor has the value of what it folds. -/
theorem substitute_and_folding_keep (types : ValueId → DataType) (env : Env)
    (henv : env.Respects types) :
    (∀ g, (∀ l t, g l = some t → HasKind types t .int) → ∀ s k, HasKind types s k →
      Keeps (env.extend g) s env (s.substitute g)) ∧
    (∀ op a b k, HasKind types (.binary op a b) k →
      Keeps env (.binary op a b) env (mkBinary op a b)) ∧
    (∀ op x k, HasKind types (.unary op x) k → Keeps env (.unary op x) env (mkUnary op x)) ∧
    (∀ s a b k, HasKind types (.select s a b) k →
      Keeps env (.select s a b) env (mkSelect s a b)) ∧
    ∀ terms, (∀ t ∈ terms, HasKind types t .bool) →
      Keeps env (terms.foldl (.binary .and) truth) env (all terms) := by
  refine ⟨?_, ?_, ?_, ?_, ?_⟩
  · exact fun g hg s k hs => keeps_substitute henv hg hs
  · exact fun op a b k h => keeps_mkBinary henv h
  · exact fun op x k _ => keeps_mkUnary op x
  · exact fun s a b k _ => keeps_mkSelect s a b
  · exact fun terms hterms => keeps_all henv hterms

/-- A bound on an outer and an inner index, with the outer index replaced by its last value. -/
theorem lastRound_keeps :
    let types : ValueId → DataType := fun _ => .int64
    let env : Env :=
      { input := fun _ => some (.int 100), loop := fun l => if l.index = 1 then some 4 else none }
    let g : LoopId → Option Scalar := fun l => if l.index = 0 then some (.int 3) else none
    let bound : Scalar :=
      .binary .lt (.binary .add (.binary .mul (.loop ⟨0⟩) (.int 32)) (.loop ⟨1⟩)) (.input ⟨0⟩ .int64)
    env.Respects types ∧ HasKind types bound .bool ∧
      bound.evaluate (env.extend g) = some (.bool false) ∧
      (bound.substitute g).evaluate env = some (.bool false) := by
  intro types env g bound
  have henv : env.Respects types := by
    intro v k hk c hc
    cases hk
    cases hc
    rfl
  have hg : ∀ l t, g l = some t → HasKind types t .int := by
    intro l t ht
    obtain ⟨-, himage⟩ := Option.ite_none_right_eq_some.1 ht
    cases himage
    exact .int 3
  have hbound : HasKind types bound .bool :=
    .binary .lt (.binary .add (.binary .mul (.loop _) (.int _)) (.loop _)) (.input ⟨0⟩ rfl)
  have hvalue : bound.evaluate (env.extend g) = some (.bool false) := by rfl
  exact ⟨henv, hbound, hvalue,
    (substitute_and_folding_keep types env henv).1 g hg bound .bool hbound _ hvalue⟩

end Scalar
end FusionCompiler
