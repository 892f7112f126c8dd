import FusionCompiler.Lower.Emit
import FusionCompiler.Proofs.Kernel.Folding
import FusionCompiler.Proofs.Kernel.Runs
import FusionCompiler.Proofs.Lower.Extents
import FusionCompiler.Proofs.Outcome

/-!
# Emissions

An emission threads the next free loop index and what an unswitched loop has
collected so far.  `Emit.Gives` says what an emission does to one state, and the
lemmas of this file take such a statement about a composed emission apart.

Most emissions are blind to unswitching: they neither look at what is collected
nor change it.  The operation of an expression is emitted in this way, and its
guard is put around it at the end.

Main results:

- Theorem `Emit.gives_bind`: a sequence gives exactly what its steps give in turn.
- Theorem `Emitter.emitOp_serial`: where no threads cooperate, an expression
  becomes one operation under its guard, which depends on the guard in no other
  way.
- Theorem `Kernel.Stmt.performed_guarded`: a guarded operation is performed where
  its guard holds.
-/

namespace FusionCompiler

open Kernel

/-! ## Results of emissions -/

namespace Emit

variable {α β : Type} {s s' : EmitState} {u : Option Unswitch} {n : Nat}

/-- The emission succeeds from `s` with result `a` and leaves `s'`. -/
def Gives (x : Emit α) (s : EmitState) (a : α) (s' : EmitState) : Prop :=
  x.run s = .ok (a, s')

/-- A result without a step. -/
@[simp]
theorem gives_pure {a b : α} : Gives (pure b) s a s' ↔ b = a ∧ s = s' := by
  constructor
  · intro h
    cases h
    exact ⟨rfl, rfl⟩
  · rintro ⟨rfl, rfl⟩
    rfl

/-- A sequence gives exactly what its steps give in turn. -/
@[simp]
theorem gives_bind {x : Emit α} {k : α → Emit β} {b : β} :
    Gives (x >>= k) s b s' ↔ ∃ a s₁, Gives x s a s₁ ∧ Gives (k a) s₁ b s' := by
  unfold Gives
  rw [StateT.run_bind, Results.bind_eq_ok]
  constructor
  · rintro ⟨⟨a, s₁⟩, hx, hk⟩
    exact ⟨a, s₁, hx, hk⟩
  · rintro ⟨a, s₁, hx, hk⟩
    exact ⟨(a, s₁), hx, hk⟩

/-- Reading the state. -/
@[simp]
theorem gives_get {t : EmitState} : Gives get s t s' ↔ s = t ∧ s = s' := by
  constructor
  · intro h
    cases h
    exact ⟨rfl, rfl⟩
  · rintro ⟨rfl, rfl⟩
    rfl

/-- Changing the state. -/
@[simp]
theorem gives_modify {g : EmitState → EmitState} {w : PUnit} :
    Gives (modify g) s w s' ↔ g s = s' := by
  constructor
  · intro h
    cases h
    rfl
  · rintro rfl
    rfl

/-- A failure gives nothing. -/
@[simp]
theorem gives_throw {e : LowerError} {a : α} : ¬ Gives (throw e) s a s' := by
  intro h
  cases h

/-- A computation that does not look at the state. -/
@[simp]
theorem gives_lift {x : Except LowerError α} {a : α} :
    Gives (liftM x) s a s' ↔ x = .ok a ∧ s = s' := by
  cases x with
  | error e =>
      constructor
      · intro h
        cases h
      · rintro ⟨h, -⟩
        cases h
  | ok b =>
      constructor
      · intro h
        cases h
        exact ⟨rfl, rfl⟩
      · rintro ⟨h, rfl⟩
        cases h
        rfl

/-- Each result of repeated steps is the result of one of them. -/
theorem mem_of_gives_mapM {g : α → Emit β} {l : List α} {ys : List β} (h : Gives (l.mapM g) s ys s')
    {y : β} (hy : y ∈ ys) : ∃ x ∈ l, ∃ t t', Gives (g x) t y t' := by
  induction l generalizing s s' ys with
  | nil =>
      obtain ⟨rfl, -⟩ := gives_pure.1 h
      cases hy
  | cons a l ih =>
      rw [List.mapM_cons] at h
      obtain ⟨b, s₁, hb, h⟩ := gives_bind.1 h
      obtain ⟨bs, s₂, hbs, h⟩ := gives_bind.1 h
      obtain ⟨rfl, -⟩ := gives_pure.1 h
      rcases List.mem_cons.1 hy with rfl | hy
      · exact ⟨a, List.mem_cons_self, s, s₁, hb⟩
      · obtain ⟨x, hx, hgives⟩ := ih hbs hy
        exact ⟨x, List.mem_cons_of_mem a hx, hgives⟩

/-! ## Emissions that are blind to unswitching -/

/-- The emission neither looks at what an unswitched loop has collected nor changes it. -/
def Blind (x : Emit α) : Prop :=
  ∀ n u a s', Gives x ⟨n, u⟩ a s' →
    s'.unswitch = u ∧ ∀ u', Gives x ⟨n, u'⟩ a ⟨s'.nextLoop, u'⟩

namespace Blind

/-- A result without a step does not look at the frames. -/
protected theorem pure (a : α) : Blind (pure a : Emit α) := by
  intro n u b s' h
  obtain ⟨rfl, rfl⟩ := gives_pure.1 h
  exact ⟨rfl, fun u' => gives_pure.2 ⟨rfl, rfl⟩⟩

/-- Two steps, the second of which may depend on the result of the first. -/
protected theorem bind {x : Emit α} {k : α → Emit β} (hx : Blind x) (hk : ∀ a, Blind (k a)) :
    Blind (x >>= k) := by
  intro n u b s' h
  obtain ⟨a, ⟨n₁, u₁⟩, ha, hb⟩ := gives_bind.1 h
  obtain ⟨rfl, hx'⟩ := hx n u a _ ha
  obtain ⟨hu, hk'⟩ := hk a n₁ _ b s' hb
  exact ⟨hu, fun u' => gives_bind.2 ⟨a, _, hx' u', hk' u'⟩⟩

/-- A failure does not look at the frames. -/
protected theorem throw (e : LowerError) : Blind (throw e : Emit α) :=
  fun _ _ _ _ h => absurd h gives_throw

/-- A computation without the state does not look at the frames. -/
protected theorem lift (x : Except LowerError α) : Blind (liftM x : Emit α) := by
  intro n u a s' h
  obtain ⟨hx, rfl⟩ := gives_lift.1 h
  exact ⟨rfl, fun u' => gives_lift.2 ⟨hx, rfl⟩⟩

/-- A fresh loop is a number. -/
protected theorem freshLoop : Blind Emitter.freshLoop := by
  intro n u a s' h
  cases h
  exact ⟨rfl, fun u' => rfl⟩

/-- Repeated steps with their results. -/
protected theorem mapM {g : α → Emit β} (hg : ∀ a, Blind (g a)) (l : List α) : Blind (l.mapM g) := by
  induction l with
  | nil => exact .pure []
  | cons a l ih =>
      rw [List.mapM_cons]
      exact (hg a).bind fun b => ih.bind fun bs => .pure _

/-- Repeated steps. -/
protected theorem forM {g : α → Emit PUnit} (hg : ∀ a, Blind (g a)) (l : List α) :
    Blind (l.forM g) := by
  induction l with
  | nil => exact .pure _
  | cons a l ih => exact (hg a).bind fun _ => ih

/-- Repeated steps that pass a result on. -/
protected theorem foldlM {g : β → α → Emit β} (hg : ∀ b a, Blind (g b a)) (l : List α) (b : β) :
    Blind (l.foldlM g b) := by
  induction l generalizing b with
  | nil => exact .pure b
  | cons a l ih =>
      rw [List.foldlM_cons]
      exact (hg b a).bind ih

/-- A step for each of three moments. -/
protected theorem moments {g : α → Emit β} (hg : ∀ a, Blind (g a)) (m : Moments α) :
    Blind (m.mapM g) :=
  (hg _).bind fun _ => (hg _).bind fun _ => (hg _).bind fun _ => .pure _

end Blind
end Emit

/-! ## Operations of expressions -/

namespace Emitter

open Emit

variable (c : Emitter) (frames : List LoopFrame)

/-- What an operation writes does not depend on the state. -/
theorem written_blind (v : ValueId) : Blind (c.written frames v) :=
  (Blind.lift _).bind fun _ => .pure _

/-- What an operation reads does not depend on the state. -/
theorem operand_blind (consumer v : ValueId) : Blind (c.operand frames consumer v) := by
  unfold operand
  dsimp only
  split
  · exact (Blind.lift _).bind fun _ => .pure _
  · exact .pure _

/-- What a Welford reduction reads does not depend on the state. -/
theorem welfordInput_blind (v : ValueId) (x : Expr) : Blind (c.welfordInput frames v x) := by
  unfold welfordInput
  split
  · exact (Blind.moments (c.operand_blind frames v) _).bind fun _ => .pure _
  · exact (c.operand_blind frames v _).bind fun _ => .pure _

/-- The check of enclosing loops only reads. -/
theorem checkEnclosure_blind (consumer : ValueId) (e : ExprId) :
    Blind (c.checkEnclosure frames consumer e) := by
  refine Blind.forM (fun producer => ?_) _
  dsimp only
  split
  · exact .pure _
  · exact .throw _

/-- Initializations do not depend on the state. -/
theorem initOps_blind (x : Expr) (v : ValueId) : Blind (c.initOps frames x v) := by
  unfold initOps
  dsimp only
  split
  · exact (c.written_blind frames v).bind fun _ => .pure _
  · exact Blind.mapM (fun out => (c.written_blind frames out).bind fun _ => .pure _) _
  · exact .pure _

/-- Entering a leaf of an initialization takes a fresh loop at most. -/
theorem enterInitLeaf_blind (entered : List LoopFrame × List LoopHeader) (leaf : AxisId) :
    Blind (c.enterInitLeaf entered leaf) := by
  unfold enterInitLeaf
  dsimp only
  split
  · exact .pure _
  · split
    · exact .pure _
    · split
      · exact .pure _
      · exact Blind.freshLoop.bind fun _ => .pure _

/-- An initialization that enters the loop of a leaf stands still in it, takes its launch index, or
/-- A leaf of an initialization is entered already, or it gets a frame: a loop, a thread index, or
nothing over a single iteration. -/
opens a loop. -/
theorem enterInitLeaf_cases {c : Emitter} {fs fs' : List LoopFrame} {hs hs' : List LoopHeader}
    {leaf : AxisId} {s s' : EmitState}
    (h : Gives (c.enterInitLeaf (fs, hs) leaf) s (fs', hs') s') :
    fs' = fs ∧ hs' = hs ∨ ∃ fr, fs' = fr :: fs ∧ fr.group = c.plan.groups.name leaf ∧
      fr.extent = c.plan.concreteExtent leaf ∧ (hs' = hs ∧ fr.loop = none ∧ (fr.index = .zero ∨
          fr.index = .launchIndex (c.plan.groups.parallel leaf) ∧
            (c.plan.groups.parallel leaf).isLaunch = true ∧
            c.plan.groups.isBroadcast c.plan.fusion leaf = false) ∨
        ∃ header, hs' = hs ++ [header] ∧ header.isLaunch = false ∧
          (c.plan.groups.parallel leaf).isLaunch = false ∧ header.extent = fr.extent ∧
          fr.index = .loop header.index ∧ fr.loop = some header.index) := by
  unfold enterInitLeaf at h
  dsimp only at h
  split at h
  · obtain ⟨heq, -⟩ := gives_pure.1 h
    cases heq
    exact .inl ⟨rfl, rfl⟩
  · right
    split at h
    · obtain ⟨heq, -⟩ := gives_pure.1 h
      cases heq
      exact ⟨_, rfl, rfl, rfl, .inl ⟨rfl, rfl, .inl rfl⟩⟩
    case isFalse hspanned =>
        have hiter : c.plan.groups.isBroadcast c.plan.fusion leaf = false := by
          simp only [Bool.or_eq_true, not_or, Bool.not_eq_true] at hspanned
          exact hspanned.2
        split at h
        case isTrue hlaunch =>
            obtain ⟨heq, -⟩ := gives_pure.1 h
            cases heq
            exact ⟨_, rfl, rfl, rfl, .inl ⟨rfl, rfl, .inr ⟨rfl, hlaunch, hiter⟩⟩⟩
        case isFalse hserial =>
            obtain ⟨l, s₁, -, h⟩ := gives_bind.1 h
            obtain ⟨heq, -⟩ := gives_pure.1 h
            cases heq
            refine ⟨_, rfl, rfl, rfl, .inr ⟨_, rfl, ?_, by simpa using hserial, rfl, rfl, rfl⟩⟩
            unfold LoopHeader.isLaunch
            dsimp only
            split
            · decide
            · simpa using hserial

/-- What a loop that an initialization enters keeps, all of them keep. -/
theorem enterInitLeaves_keep {c : Emitter} {P : List LoopFrame → Prop} {Q : LoopHeader → Prop}
    (hstep : ∀ {fs fs' : List LoopFrame} {hs hs' : List LoopHeader} {leaf : AxisId}
      {s s' : EmitState}, Gives (c.enterInitLeaf (fs, hs) leaf) s (fs', hs') s' →
        (∀ h ∈ hs', Q h) → P fs → P fs')
    {leaves : List AxisId} {fs fs' : List LoopFrame} {hs hs' : List LoopHeader} {s s' : EmitState}
    (h : Gives (leaves.foldlM c.enterInitLeaf (fs, hs)) s (fs', hs') s') :
    (∀ h ∈ hs, h ∈ hs') ∧ ((∀ h ∈ hs', Q h) → P fs → P fs') := by
  induction leaves generalizing fs hs s with
  | nil =>
      obtain ⟨heq, -⟩ := gives_pure.1 h
      cases heq
      exact ⟨fun _ hh => hh, fun _ hfs => hfs⟩
  | cons leaf leaves ih =>
      rw [List.foldlM_cons] at h
      obtain ⟨⟨fs₁, hs₁⟩, s₁, hfirst, hrest⟩ := gives_bind.1 h
      obtain ⟨hmem, hkeep⟩ := ih hrest
      have hmem₁ : ∀ h ∈ hs, h ∈ hs₁ := by
        rcases enterInitLeaf_cases hfirst with ⟨-, rfl⟩ | ⟨fr, -, -, -, ⟨rfl, -⟩ | ⟨header, rfl, -⟩⟩
        · exact fun _ hh => hh
        · exact fun _ hh => hh
        · exact fun _ hh => List.mem_append_left _ hh
      refine ⟨fun h hh => hmem h (hmem₁ h hh), fun hall hfs => hkeep hall ?_⟩
      exact hstep hfirst (fun h hh => hall h (hmem h hh)) hfs

/-- A loop header takes a fresh loop at most. -/
theorem header_blind (group : AxisId) (parallel : ParallelType) : Blind (c.header group parallel) :=
  Blind.freshLoop.bind fun _ => .pure _

/-- The operation of an expression, each thread working alone. -/
def serialOp (c : Emitter) (frames : List LoopFrame) (e : ExprId) (v : ValueId) : Emit Op := do
  let x := c.plan.fusion.expr e
  let operand := fun i => c.operand frames v (x.input i)
  match x.kind with
  | .unary op => return .unary op (← c.written frames v) (← operand 0)
  | .binary op => return .binary op (← c.written frames v) (← operand 0) (← operand 1)
  | .select => return .select (← c.written frames v) (← operand 0) (← operand 1) (← operand 2)
  | .reduction op init =>
    return .reduce op (← c.written frames v) (← operand 0) (init.cast (c.plan.fusion.dtype v)) .serial
  | .welford =>
    let results : Moments ValueId :=
      ⟨x.outputs.getD 0 default, x.outputs.getD 1 default, x.outputs.getD 2 default⟩
    return .welford (← results.mapM (c.written frames)) (← c.welfordInput frames v x) .serial
  | .broadcast _ => return .broadcast (← c.written frames v) (← operand 0) .serial

/-- An operation of one thread does not depend on the state. -/
theorem serialOp_blind (e : ExprId) (v : ValueId) : Blind (c.serialOp frames e v) := by
  have hout := c.written_blind frames
  have hin := c.operand_blind frames v
  unfold serialOp
  dsimp only
  split
  · exact (hout v).bind fun _ => (hin _).bind fun _ => .pure _
  · exact (hout v).bind fun _ => (hin _).bind fun _ => (hin _).bind fun _ => .pure _
  · exact (hout v).bind fun _ => (hin _).bind fun _ => (hin _).bind fun _ => (hin _).bind fun _ =>
      .pure _
  · exact (hout v).bind fun _ => (hin _).bind fun _ => .pure _
  · exact (Blind.moments hout _).bind fun _ => (c.welfordInput_blind frames v _).bind fun _ => .pure _
  · exact (hout v).bind fun _ => (hin _).bind fun _ => .pure _

/-- An operation with its guards does not depend on the state. -/
theorem emitOp_blind (e : ExprId) (v : ValueId) (indices : AxisIndices) (g : Guards) :
    Blind (c.emitOp frames e v indices g) := by
  have hout := c.written_blind frames
  have hin := c.operand_blind frames v
  unfold emitOp
  dsimp only
  split
  · exact (hout v).bind fun _ => (hin _).bind fun _ => .pure _
  · exact (hout v).bind fun _ => (hin _).bind fun _ => (hin _).bind fun _ => .pure _
  · exact (hout v).bind fun _ => (hin _).bind fun _ => (hin _).bind fun _ => (hin _).bind fun _ =>
      .pure _
  · exact (hout v).bind fun _ => (hin _).bind fun _ => .pure _
  · exact (Blind.moments hout _).bind fun _ => (c.welfordInput_blind frames v _).bind fun _ => .pure _
  · exact (hout v).bind fun _ => (hin _).bind fun _ => .pure _

/-- Where no threads cooperate, an expression becomes one operation under its guard. -/
theorem emitOp_serial {e : ExprId} {g : Guards} (hspread : (c.validity.spread e).isEmpty = true)
    (hreduced : g.reduced.isEmpty = true) (v : ValueId) (indices : AxisIndices) :
    c.emitOp frames e v indices g =
      c.serialOp frames e v >>= fun o => pure [.guarded (c.serialGuard g v) o] := by
  unfold emitOp serialOp
  dsimp only
  rw [if_pos hspread, if_pos hreduced]
  cases (c.plan.fusion.expr e).kind <;> simp only [bind_assoc, pure_bind, cooperative]

end Emitter

/-! ## Operations that are performed -/

namespace Kernel
namespace Stmt

mutual

/-- The operations that a statement performs where loops and launch are at the indices of `env`. -/
def performed (env : Scalar.Env) : Stmt → List Op
  | .loop _ body => performedAll env body
  | .branch c yes no =>
    if c.evaluate env = some (.bool true) then performedAll env yes else performedAll env no
  | .allocate _ | .barrier _ => []
  | .op o => [o]

/-- The operations that statements perform, in order. -/
def performedAll (env : Scalar.Env) : List Stmt → List Op
  | [] => []
  | x :: rest => performed env x ++ performedAll env rest

end

variable (env : Scalar.Env)

/-- What is performed in sequence. -/
theorem performedAll_append (xs ys : List Stmt) :
    performedAll env (xs ++ ys) = performedAll env xs ++ performedAll env ys := by
  induction xs with
  | nil => rfl
  | cons x xs ih => simp only [List.cons_append, performedAll, ih, List.append_assoc]

/-- What one statement performs. -/
theorem performedAll_singleton (x : Stmt) : performedAll env [x] = performed env x := by
  simp [performedAll]

/-- A guarded operation is performed where its guard holds. -/
theorem performed_guarded (guard : Scalar) (o : Op) : performed env (guarded guard o) =
    if guard.evaluate env = some (.bool true) then [o] else [] := by
  unfold guarded
  split
  case isTrue h =>
      rw [Scalar.eq_of_isBool h]
      rfl
  case isFalse => simp [performed, performedAll]

/-- Operations under one guard are performed just if it holds. -/
theorem performedAll_map_guarded (guard : Scalar) (os : List Op) :
    performedAll env (os.map (guarded guard)) =
      if guard.evaluate env = some (.bool true) then os else [] := by
  induction os with
  | nil => simp [performedAll]
  | cons o os ih =>
      rw [List.map_cons, performedAll, performed_guarded, ih]
      split <;> rfl

/-- Headers in sequence. -/
theorem headers_append (xs ys : List Stmt) : headers (xs ++ ys) = headers xs ++ headers ys := by
  unfold headers
  rw [flattenAll_append, List.filterMap_append]

/-- The headers of a loop are its own and those inside it. -/
theorem headers_loop (h : LoopHeader) (body : List Stmt) :
    headers [.loop h body] = h :: headers body := by
  simp [headers, flattenAll, flatten, header?]

/-- The headers of both sides of a conditional. -/
theorem headers_branch (c : Scalar) (yes no : List Stmt) :
    headers [.branch c yes no] = headers yes ++ headers no := by
  simp [headers, flattenAll, flatten, List.filterMap_cons, header?]

/-- At one point of the loops, nested loops perform what their body performs. -/
theorem performedAll_loops (hs : List LoopHeader) (body : List Stmt) :
    performedAll env (hs.foldr (fun h body => [.loop h body]) body) = performedAll env body := by
  induction hs with
  | nil => rfl
  | cons h hs ih => rw [List.foldr_cons, performedAll_singleton, performed, ih]

/-- The headers of nested loops, outermost first. -/
theorem headers_loops (hs : List LoopHeader) (body : List Stmt) :
    headers (hs.foldr (fun h body => [.loop h body]) body) = hs ++ headers body := by
  induction hs with
  | nil => rfl
  | cons h hs ih => rw [List.foldr_cons, headers_loop, ih, List.cons_append]

end Stmt
end Kernel
end FusionCompiler
