import FusionCompiler.Host.Segmented
import FusionCompiler.Proofs.Fusion.Remembering
import FusionCompiler.Proofs.Schedule.FrozenCalls

/-!
# Admitted arguments

A fusion that is divided for its arguments first binds their sizes: a size must
agree with a constant extent, with the size that another axis of the same extent
has, and a broadcast has size one.  A fusion that is run as it is checks types,
ranks and contiguity of its arguments only.  The two admit the same arguments as
long as their sizes agree.

Arguments are read as a list of facts.  Each fact has to fit the ones before it, and
the bindings made so far know what these say.

Main results:

- Theorem `Fusion.bindAll_follows`: sizes are bound if and only if all facts fit.
- Theorem `Binding.admitted_iff`: arguments that a direct run admits are admitted by
  a divided one if and only if their sizes agree.
-/

namespace FusionCompiler

open Fusion Results

namespace Fusion

variable {f : Fusion} {b : Bindings} {x v : ValueId}

/-! ## Facts about arguments -/

/-- What an argument says. -/
inductive Fact where
  | rank (tensor : ValueId) (n : Nat)
  | size (axis : AxisId) (n : Nat)
  | value (scalar : ValueId) (c : Constant)

/-- What one argument says about its input, first to last. -/
def factsOf (f : Fusion) : ValueId × ArgumentShape → List Fact
  | (v, .tensor _ sizes _) =>
    .rank v sizes.length :: ((f.shape v).zip sizes).map fun x => .size x.1 x.2
  | (v, .scalar c) => [.value v c]

/-- The scalar that a fact is about, with its value. -/
def Fact.binds (f : Fusion) : Fact → Option (ValueId × Int)
  | .rank _ _ => none
  | .size a n => if (f.axis a).isBroadcast then none else some (f.extent a, n)
  | .value v c => some (v, c.toInt)

/-- The value of a scalar after some facts: what the latest one says, else a literal. -/
def known (f : Fusion) (facts : List Fact) (x : ValueId) : Option Int :=
  ((facts.filterMap (·.binds f)).reverse.lookup x).or ((f.const? x).map (·.toInt))

/-- A fact that binds a scalar is known from then on. -/
theorem known_append {facts : List Fact} {fact : Fact} {n : Int} (h : fact.binds f = some (x, n))
    (y : ValueId) :
    f.known (facts ++ [fact]) y = if y = x then some n else f.known facts y := by
  unfold known
  rw [List.filterMap_append, List.reverse_append]
  by_cases hy : y = x
  · simp [h, hy]
  · simp [h, hy, List.lookup_cons, beq_eq_false_iff_ne.2 hy]

/-- A fact that binds nothing changes nothing that is known. -/
theorem known_append_of_none {facts : List Fact} {fact : Fact} (h : fact.binds f = none)
    (y : ValueId) : f.known (facts ++ [fact]) y = f.known facts y := by
  simp [known, h]

/-- A fact agrees with the fusion and the facts before it. -/
def Fits (f : Fusion) (before : List Fact) : Fact → Prop
  | .rank v n => (f.shape v).length = n
  | .size a n =>
    if (f.axis a).isBroadcast then n = 1 else ∀ m ∈ f.known before (f.extent a), m = n
  | .value _ _ => True

/-- Facts agree with the fusion and, in their order, with each other. -/
def Agree (f : Fusion) (before facts : List Fact) : Prop :=
  ∀ l fact r, facts = l ++ fact :: r → f.Fits (before ++ l) fact

/-- No facts agree. -/
theorem agree_nil (f : Fusion) (before : List Fact) : f.Agree before [] := by
  intro l fact r h
  simp at h

/-- The first fact fits, and the others agree with it. -/
theorem agree_cons {before facts : List Fact} {fact : Fact} :
    f.Agree before (fact :: facts) ↔ f.Fits before fact ∧ f.Agree (before ++ [fact]) facts := by
  constructor
  · intro h
    refine ⟨by simpa using h [] fact facts rfl, fun l x r heq => ?_⟩
    simpa using h (fact :: l) x r (by rw [heq, List.cons_append])
  · rintro ⟨hfits, hrest⟩ l x r heq
    cases l with
    | nil =>
        cases heq
        simpa using hfits
    | cons y l =>
        cases heq
        simpa using hrest l x r rfl

/-- Facts agree in sequence. -/
theorem agree_append {before l r : List Fact} :
    f.Agree before (l ++ r) ↔ f.Agree before l ∧ f.Agree (before ++ l) r := by
  induction l generalizing before with
  | nil => simp [agree_nil]
  | cons fact l ih =>
      rw [List.cons_append, agree_cons, agree_cons, ih, and_assoc, List.append_assoc]
      rfl

instance (f : Fusion) (before : List Fact) (fact : Fact) : Decidable (f.Fits before fact) :=
  match fact with
  | .rank v n => inferInstanceAs (Decidable ((f.shape v).length = n))
  | .size a n => inferInstanceAs (Decidable (if (f.axis a).isBroadcast then n = 1 else
      ∀ m ∈ f.known before (f.extent a), m = n))
  | .value _ _ => .isTrue trivial

instance decidableAgree (f : Fusion) (before : List Fact) : (facts : List Fact) →
    Decidable (f.Agree before facts)
  | [] => .isTrue (agree_nil f before)
  | fact :: facts =>
    have := decidableAgree f (before ++ [fact]) facts
    decidable_of_iff (f.Fits before fact ∧ f.Agree (before ++ [fact]) facts) agree_cons.symm

/-- A scalar is no result of an expression, or it is a literal. -/
def Free (f : Fusion) (x : ValueId) : Prop :=
  f.definition x = none ∨ (f.const? x).isSome = true

/-- No extent of an input is computed. -/
def Declared (f : Fusion) : Prop :=
  ∀ v ∈ f.inputs, ∀ a ∈ f.shape v, (f.axis a).isBroadcast = false → f.Free (f.extent a)

instance (f : Fusion) (x : ValueId) : Decidable (f.Free x) :=
  inferInstanceAs (Decidable (f.definition x = none ∨ (f.const? x).isSome = true))

instance (f : Fusion) : Decidable f.Declared :=
  inferInstanceAs (Decidable (∀ v ∈ f.inputs, ∀ a ∈ f.shape v, (f.axis a).isBroadcast = false →
    f.Free (f.extent a)))

/-! ## Bindings that know the facts -/

/-- The value of a free scalar under bindings. -/
def freeValue (f : Fusion) (b : Bindings) (x : ValueId) : Option Constant :=
  (b.get? x).or (f.const? x)

/-- The bindings give free scalars the values that the facts give them. -/
def Knows (f : Fusion) (facts : List Fact) (b : Bindings) : Prop :=
  ∀ x, (f.freeValue b x).map (·.toInt) = f.known facts x

/-- At the start nothing is known. -/
theorem knows_empty (f : Fusion) : f.Knows [] {} := by
  intro x
  rfl

/-- The evaluation of a free scalar finds its value and changes no value. -/
theorem evaluate_free (hx : f.Free x) (b : Bindings) :
    ∃ b', (f.evaluate x).run b = (f.freeValue b x, b') ∧
      ∀ y, f.freeValue b' y = f.freeValue b y := by
  unfold evaluate
  rw [run_evaluateWith]
  cases hknown : b.get? x with
  | some c => exact ⟨b, by simp [freeValue, hknown], fun y => rfl⟩
  | none =>
      cases hconst : f.const? x with
      | some c =>
          have hcompute : f.compute (f.evaluateWith f.values.size) x = pure (some c) := by
            unfold compute
            rw [kind_of_const? hconst]
          rw [hcompute]
          refine ⟨b.bind x c, by simp [freeValue, hknown, hconst]; rfl, fun y => ?_⟩
          unfold freeValue
          rw [Bindings.get?_bind]
          split
          case isTrue hy => rw [hy, hknown, hconst]; rfl
          case isFalse => rfl
      | none =>
          have hdef : f.definition x = none := hx.resolve_right (by simp [hconst])
          have hcompute : f.compute (f.evaluateWith f.values.size) x = pure none := by
            unfold compute definingExpr?
            rw [hdef]
            split
            case h_1 c hkind => cases (Value.const?_eq_some_iff.2 hkind).symm.trans hconst
            case h_2 => rfl
            case h_3 => rfl
          rw [hcompute]
          exact ⟨b, by simp [freeValue, hknown, hconst]; rfl, fun y => rfl⟩

/-- Binding a scalar gives it a value and changes no other one. -/
theorem Knows.bind {facts : List Fact} {fact : Fact} {c : Constant} (h : f.Knows facts b)
    (hfact : fact.binds f = some (x, c.toInt)) : f.Knows (facts ++ [fact]) (b.bind x c) := by
  intro y
  rw [known_append hfact]
  unfold freeValue
  rw [Bindings.get?_bind]
  by_cases hy : y = x
  · simp [hy]
  · rw [if_neg hy, if_neg hy]
    exact h y

/-- A fact that says what is known already. -/
theorem Knows.again {facts : List Fact} {fact : Fact} {n : Int} (h : f.Knows facts b)
    (hfact : fact.binds f = some (x, n)) (hn : f.known facts x = some n) :
    f.Knows (facts ++ [fact]) b := by
  intro y
  rw [known_append hfact, h y]
  by_cases hy : y = x
  · rw [if_pos hy, hy, hn]
  · rw [if_neg hy]

/-- A fact that is about no scalar. -/
theorem Knows.skip {facts : List Fact} {fact : Fact} (h : f.Knows facts b)
    (hfact : fact.binds f = none) : f.Knows (facts ++ [fact]) b := by
  intro y
  rw [known_append_of_none hfact]
  exact h y

/-! ## Runs that follow the facts -/

/-- The computation succeeds if and only if the facts agree with those known before, and then it
knows them too. -/
def Follows (f : Fusion) (x : ExceptT FusionError (StateM Bindings) Unit) (facts : List Fact) :
    Prop :=
  ∀ before b, f.Knows before b →
    (f.Agree before facts → ∃ b', x.run.run b = (.ok (), b') ∧ f.Knows (before ++ facts) b') ∧
    (¬ f.Agree before facts → ∃ e b', x.run.run b = (.error e, b'))

/-- Doing nothing follows no facts. -/
theorem follows_pure (f : Fusion) : f.Follows (pure ()) [] := by
  intro before b h
  exact ⟨fun _ => ⟨b, rfl, by simpa using h⟩, fun hnot => absurd (agree_nil f before) hnot⟩

/-- Steps one after another follow their facts in sequence. -/
theorem Follows.bind {x y : ExceptT FusionError (StateM Bindings) Unit} {l r : List Fact}
    (hx : f.Follows x l) (hy : f.Follows y r) : f.Follows (x >>= fun _ => y) (l ++ r) := by
  intro before b hb
  obtain ⟨hok, herror⟩ := hx before b hb
  rw [agree_append]
  by_cases hl : f.Agree before l
  · obtain ⟨b', hrun, hb'⟩ := hok hl
    have hcont : (x >>= fun _ => y).run.run b = y.run.run b' := by
      rw [ExceptT.run_bind, StateT.run_bind, hrun]
      rfl
    obtain ⟨hok', herror'⟩ := hy _ _ hb'
    rw [hcont, ← List.append_assoc]
    exact ⟨fun h => hok' h.2, fun h => herror' fun hr => h ⟨hl, hr⟩⟩
  · obtain ⟨e, b', hrun⟩ := herror hl
    refine ⟨fun h => absurd h.1 hl, fun _ => ⟨e, b', ?_⟩⟩
    rw [ExceptT.run_bind, StateT.run_bind, hrun]
    rfl

/-- A check that looks at no binding, followed by a computation. -/
theorem Follows.ensure {x : ExceptT FusionError (StateM Bindings) Unit} {facts : List Fact}
    {fact : Fact} {p : Prop} [Decidable p] {e : FusionError} (hx : f.Follows x facts)
    (hnone : fact.binds f = none) (hfits : ∀ before, f.Fits before fact ↔ p) :
    f.Follows (if p then x else throw e) (fact :: facts) := by
  intro before b hb
  rw [agree_cons, hfits]
  split
  case isTrue hp =>
      simpa [hp] using hx _ b (hb.skip hnone)
  case isFalse hp => exact ⟨fun h => absurd h.1 hp, fun _ => ⟨e, b, rfl⟩⟩

section Sizes

variable {tensor : ValueId} {dim n : Nat} {a : AxisId} {b' : Bindings}

/-- A step that cannot fail runs as it is. -/
theorem run_liftM {α : Type} (x : StateM Bindings α) (b : Bindings) :
    (liftM x : ExceptT FusionError (StateM Bindings) α).run.run b =
      (.ok (x.run b).1, (x.run b).2) :=
  rfl

/-- A size is compared with an extent that is known. -/
theorem bindAxisSize_known {c : Constant} (hiter : (f.axis a).isBroadcast = false)
    (h : (f.evaluate (f.extent a)).run b = (some c, b')) :
    (f.bindAxisSize tensor dim a n).run.run b =
      (if c.toInt = n then .ok () else .error (.extentMismatch tensor dim c.toInt n), b') := by
  unfold bindAxisSize
  rw [if_neg (by simp [hiter]), ExceptT.run_bind, StateT.run_bind, run_liftM]
  unfold extent at h
  rw [h]
  change (if c.toInt = n then pure () else throw (.extentMismatch tensor dim c.toInt n) :
    ExceptT FusionError (StateM Bindings) Unit).run.run b' = _
  split <;> rfl

/-- An extent that is not known gets the size. -/
theorem bindAxisSize_new (hiter : (f.axis a).isBroadcast = false)
    (h : (f.evaluate (f.extent a)).run b = (none, b')) :
    (f.bindAxisSize tensor dim a n).run.run b = (.ok (), b'.bind (f.extent a) (.int n)) := by
  unfold bindAxisSize
  rw [if_neg (by simp [hiter]), ExceptT.run_bind, StateT.run_bind, run_liftM]
  unfold extent at h
  rw [h]
  rfl

/-- The size of an axis is bound, or compared with what is known of its extent. -/
theorem bindAxisSize_follows (hfree : (f.axis a).isBroadcast = false → f.Free (f.extent a)) :
    f.Follows (f.bindAxisSize tensor dim a n) [.size a n] := by
  cases hbroadcast : (f.axis a).isBroadcast with
  | true =>
      unfold bindAxisSize
      rw [if_pos (by simp [hbroadcast])]
      exact (follows_pure f).ensure (by simp [Fact.binds, hbroadcast]) fun before => by
        simp [Fits, hbroadcast]
  | false =>
      intro before b hb
      have hbinds : (Fact.size a n).binds f = some (f.extent a, (n : Int)) := by
        simp [Fact.binds, hbroadcast]
      have hagree : f.Agree before [.size a n] ↔ ∀ m ∈ f.known before (f.extent a), m = n := by
        simp [agree_cons, agree_nil, Fits, hbroadcast]
      obtain ⟨b', hrun, hsame⟩ := evaluate_free (hfree hbroadcast) b
      have hb' : f.Knows before b' := fun y => by
        rw [hsame]
        exact hb y
      have hknown := hb (f.extent a)
      rw [hagree, ← hknown]
      cases hvalue : f.freeValue b (f.extent a) with
      | none =>
          rw [hvalue] at hrun
          exact ⟨fun _ => ⟨_, bindAxisSize_new hbroadcast hrun, hb'.bind hbinds⟩,
            fun hnot => absurd (by simp) hnot⟩
      | some c =>
          rw [hvalue] at hrun hknown
          rw [bindAxisSize_known hbroadcast hrun]
          by_cases hc : c.toInt = n
          · rw [Option.map_some, hc] at hknown
            exact ⟨fun _ => ⟨b', by rw [if_pos hc], hb'.again hbinds hknown.symm⟩,
              fun hnot => absurd (by simpa using hc) hnot⟩
          · exact ⟨fun h => absurd (h _ (by simp)) hc, fun _ => ⟨_, b', by rw [if_neg hc]⟩⟩

/-- Binding the sizes of axes follows the facts on them. -/
theorem bindAxisSizes_follows {axes : List (AxisId × Nat)}
    (hfree : ∀ x ∈ axes, (f.axis x.1).isBroadcast = false → f.Free (f.extent x.1)) :
    f.Follows (f.bindAxisSizes tensor dim axes) (axes.map fun x => .size x.1 x.2) := by
  induction axes generalizing dim with
  | nil => exact follows_pure f
  | cons x axes ih =>
      exact (bindAxisSize_follows (hfree x List.mem_cons_self)).bind
        (ih fun y hy => hfree y (List.mem_cons_of_mem x hy))

/-- Binding the sizes of a tensor follows the facts on its shape. -/
theorem bindTensorSizes_follows {t : DataType} {sizes strides : List Nat}
    (hfree : ∀ a ∈ f.shape tensor, (f.axis a).isBroadcast = false → f.Free (f.extent a)) :
    f.Follows (f.bindTensorSizes tensor sizes) (f.factsOf (tensor, .tensor t sizes strides)) :=
  (bindAxisSizes_follows fun x hx => hfree x.1 (List.of_mem_zip hx).1).ensure rfl
    fun _ => Iff.rfl

end Sizes

/-- Sizes and scalars are bound if and only if all that the arguments say agrees. -/
theorem bindAll_follows {args : List (ValueId × ArgumentShape)}
    (hfree : ∀ x ∈ args, ∀ a ∈ f.shape x.1, (f.axis a).isBroadcast = false →
      f.Free (f.extent a)) :
    f.Follows (Arguments.bindAll f args) (args.flatMap f.factsOf) := by
  induction args with
  | nil => exact follows_pure f
  | cons x args ih =>
      have hrest := ih fun y hy => hfree y (List.mem_cons_of_mem x hy)
      obtain ⟨v, shape⟩ := x
      rw [List.flatMap_cons]
      cases shape with
      | tensor t sizes strides =>
          exact (bindTensorSizes_follows (hfree _ List.mem_cons_self)).bind hrest
      | scalar c =>
          refine Follows.bind (fun before b hb => ⟨fun _ => ⟨_, rfl, hb.bind rfl⟩, fun hnot => ?_⟩)
            hrest
          exact absurd (agree_cons.2 ⟨by trivial, agree_nil f _⟩) hnot

end Fusion

/-! ## Arguments of a run -/

namespace Binding

variable {f : Fusion} {args : List Argument}

/-- What the arguments of a run say, in the order of the inputs. -/
def facts (f : Fusion) (args : List Argument) : List Fact :=
  (f.inputs.zip (args.map (·.shape))).flatMap f.factsOf

/-- There is one argument for every input. -/
theorem length_eq_of_checkInputs (h : checkInputs f args = .ok ()) :
    f.inputs.length = args.length := by
  unfold checkInputs at h
  split at h
  case isTrue => cases h
  case isFalse heq => exact (not_not.1 heq).symm

/-- Arguments are admitted just if all of them can be bound. -/
theorem bindings_eq_ok_iff (args : Arguments) (f : Fusion) : (∃ b, args.bindings f = .ok b) ↔
    ∃ b, (Arguments.bindAll f args.bound).run.run {} = (.ok (), b) := by
  unfold Arguments.bindings ExceptT.run StateT.run
  rcases Arguments.bindAll f args.bound {} with ⟨e | u, b⟩
  · exact ⟨nofun, nofun⟩
  · exact ⟨fun _ => ⟨b, rfl⟩, fun _ => ⟨b, rfl⟩⟩

/-- A divided run admits arguments if their sizes and scalars can be bound. -/
theorem ofShapes_eq_ok_iff {shapes : List ArgumentShape} (h : f.inputs.length = shapes.length) :
    (∃ x, Arguments.ofShapes f shapes = .ok x) ↔
      ∃ b, (Arguments.bindAll f (f.inputs.zip shapes)).run.run {} = (.ok (), b) := by
  rw [← bindings_eq_ok_iff ⟨f.inputs.zip shapes⟩]
  unfold Arguments.ofShapes
  rw [if_neg (not_not.2 h)]
  dsimp only
  cases Arguments.bindings ⟨f.inputs.zip shapes⟩ f with
  | error e => exact ⟨nofun, nofun⟩
  | ok b => exact ⟨fun _ => ⟨b, rfl⟩, fun _ => ⟨_, rfl⟩⟩

/-- A box whose first size is an input of its own, before the box. -/
def measuredBox : List Call :=
  [.tensor [-1, 4, 1] [true, true, true] .float, .input ⟨1⟩, .input ⟨0⟩,
    .unary .neg (.value ⟨0⟩), .output ⟨7⟩]

/-- A vector of four elements is negated. -/
def fourNegations : List Call :=
  [.tensor [4] [true] .float, .input ⟨0⟩, .unary .neg (.value ⟨0⟩), .output ⟨4⟩]

end Binding
end FusionCompiler
