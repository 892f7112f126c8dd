import FusionCompiler.Proofs.Lower.Emission
import FusionCompiler.Proofs.Lower.Hoisting
import FusionCompiler.Proofs.Lower.Promotion

/-!
# Unswitched loops

An unswitched loop has a body without bounds checks under one condition.  The
condition joins the bounds of all operations inside, each taken at the last index
of the loops in between.  Where the condition holds, every bound that was dropped
holds at each index, as long as these bounds fall.

Main results:

- Theorem `Emitter.emitTrees_unswitches`: without bounds checks, statements
  perform what they perform with them wherever the collected conditions hold.
- Theorem `Emitter.emitUnswitched_performs`: an unswitched loop performs what its
  fully guarded body performs.
-/

namespace FusionCompiler

open Kernel

/-! ## Collected conditions -/

namespace Scalar

variable {env : Env} {a b : Scalar}

/-- The condition holds, and no floating-point literal occurs in it. -/
structure Holds (env : Env) (s : Scalar) : Prop where
  truth : s.evaluate env = some (.bool true)
  floatFree : s.floatFree = true

/-- Both of two conditions hold. -/
theorem Holds.and (ha : IsCondition a) (hb : IsCondition b) (h : Holds env (a.and b)) :
    Holds env a ∧ Holds env b := by
  obtain ⟨ha', hb'⟩ := ((evaluate_and_iff ha hb).2 env).1 h.truth
  have hfree := h.floatFree
  unfold Scalar.and at hfree
  rcases mkBinary_cases .and a b with ⟨m, n, c, rfl, -⟩ | ⟨s, hs, heq⟩ | ⟨-, heq⟩
  · exact absurd rfl (ha.notInt m)
  · have hfalse : ∀ {s : Scalar}, s.isBool false = true → s.evaluate env ≠ some (.bool true) := by
      intro s hs h
      rw [eq_of_isBool hs] at h
      cases h
    have hlit : ∀ {s : Scalar}, s.isBool true = true → s.floatFree = true := by
      intro s hs
      rw [eq_of_isBool hs]
      rfl
    rw [heq] at hfree
    simp only [simplify?] at hs
    refine ⟨⟨ha', ?_⟩, hb', ?_⟩ <;> grind
  · rw [heq, Scalar.floatFree, Bool.and_eq_true] at hfree
    exact ⟨⟨ha', hfree.1⟩, hb', hfree.2⟩

/-- If all conditions hold together, each holds. -/
theorem Holds.all {terms : List Scalar} (hterms : ∀ s ∈ terms, IsCondition s)
    (h : Holds env (Scalar.all terms)) : ∀ s ∈ terms, Holds env s := by
  have hrun : ∀ (l : List Scalar) (acc : Scalar), IsCondition acc → (∀ s ∈ l, IsCondition s) →
      Holds env (l.foldl Scalar.and acc) → Holds env acc ∧ ∀ s ∈ l, Holds env s := by
    intro l
    induction l with
    | nil => exact fun acc _ _ h => ⟨h, fun s hs => by cases hs⟩
    | cons s l ih =>
        intro acc hacc hl h
        have hs := hl s List.mem_cons_self
        obtain ⟨hand, hrest⟩ := ih _ (evaluate_and_iff hacc hs).1
          (fun t ht => hl t (List.mem_cons_of_mem s ht)) h
        obtain ⟨hacc', hs'⟩ := Holds.and hacc hs hand
        exact ⟨hacc', by simpa using ⟨hs', hrest⟩⟩
  exact (hrun terms _ (.bool true) hterms h).2

end Scalar

/-! ## Loops and launch at run time -/

/-- The index of a loop is below its extent, unless the loop is implied by the launch. -/
def Kernel.LoopHeader.Placed (env : Scalar.Env) (h : LoopHeader) : Prop :=
  h.isLaunch = true ∨ ∃ i, (Scalar.loop h.index).evaluate env = some (.int i) ∧
    ∃ n, h.extent.evaluate env = some (.int n) ∧ 0 ≤ i ∧ i < n ∧ Fits64 n

instance (env : Scalar.Env) (h : LoopHeader) : Decidable (h.Placed env) :=
  inferInstanceAs (Decidable (_ ∨ ∃ i, _ ∧ ∃ n, _ ∧ 0 ≤ i ∧ i < n ∧ Fits64 n))

namespace Emitter

open Emit

variable {c : Emitter} {scope : List ExprId} {env : Scalar.Env} {frames : List LoopFrame}
  {e : ExprId}

/-- Bounds may be hoisted for every tensor that the expressions compute. -/
def HoistSafe (c : Emitter) (scope : List ExprId) : Prop :=
  ∀ e ∈ scope, ∀ v ∈ c.plan.fusion.loopTensor? e, c.plan.HoistSafe v

instance (c : Emitter) (scope : List ExprId) : Decidable (c.HoistSafe scope) :=
  inferInstanceAs (Decidable (∀ e ∈ scope, ∀ v ∈ c.plan.fusion.loopTensor? e, c.plan.HoistSafe v))

/-- Launch, enclosing loops and the sizes of the tensors that expressions compute are as in a run.
-/
structure Ready (c : Emitter) (scope : List ExprId) (env : Scalar.Env) (frames : List LoopFrame) :
    Prop where
  launched : ∀ t : ParallelType, t.isLaunch = true →
    ∃ i, (Scalar.launchIndex t).evaluate env = some (.int i) ∧ 0 ≤ i ∧ Fits64 i
  placed : ∀ fr ∈ frames, fr.Placed env
  measured : ∀ e ∈ scope, ∀ v ∈ c.plan.fusion.loopTensor? e, c.plan.Measured env v

/-- Entering a loop at the place at which it is. -/
theorem Ready.enter {fr : LoopFrame} (h : c.Ready scope env frames) (hfr : fr.Placed env) :
    c.Ready scope env (fr :: frames) :=
  ⟨h.launched, List.forall_mem_cons.2 ⟨hfr, h.placed⟩, h.measured⟩

/-- Loops that are passed over stay at zero. -/
theorem Ready.zero_placed (group : AxisId) (extent : Scalar) :
    LoopFrame.Placed env ⟨group, .zero, extent, none⟩ :=
  .fixed (fun _ => rfl) rfl (Int.le_refl 0) (by decide)

/-- Loops over the launch are where their thread is. -/
theorem Ready.launch_placed (h : c.Ready scope env frames) {t : ParallelType}
    (ht : t.isLaunch = true) (group : AxisId) (extent : Scalar) :
    LoopFrame.Placed env ⟨group, .launchIndex t, extent, none⟩ := by
  obtain ⟨i, hi, h₀, hfits⟩ := h.launched t ht
  exact .fixed (fun _ => rfl) hi h₀ hfits

/-- The frame in which the body of a loop is emitted. -/
def frameOf (h : LoopHeader) (group : AxisId) : LoopFrame :=
  ⟨group, h.indexValue, h.extent, if h.isLaunch then none else some h.index⟩

/-- The frame of a loop that runs is placed. -/
theorem Ready.loop_placed (h : c.Ready scope env frames) {header : LoopHeader}
    (hplaced : header.Placed env) (group : AxisId) : (frameOf header group).Placed env := by
  unfold frameOf LoopHeader.indexValue
  split
  case isTrue hlaunch => exact h.launch_placed hlaunch group _
  case isFalse hloop =>
      obtain hlaunch | ⟨i, hi, n, hn, h₀, hlt, hfits⟩ := hplaced
      · exact absurd hlaunch hloop
      · exact .loop hi hn h₀ hlt hfits

/-! ## Emission without bounds checks -/

/-- What is collected only grows, and consists of conditions. -/
structure Grown (u u' : Unswitch) : Prop where
  conditions : ∀ s ∈ u.conditions, s ∈ u'.conditions
  tests : (∀ s ∈ u.conditions, s.IsCondition) → ∀ s ∈ u'.conditions, s.IsCondition
  collective : u'.hasCollective = false → u.hasCollective = false

/-- Nothing is added to what is tested before a loop. -/
theorem Grown.refl (u : Unswitch) : Grown u u :=
  ⟨fun _ h => h, fun h => h, fun h => h⟩

/-- Additions one after another. -/
theorem Grown.trans {u u' u'' : Unswitch} (h : Grown u u') (h' : Grown u' u'') : Grown u u'' :=
  ⟨fun s hs => h'.conditions s (h.conditions s hs), fun hs => h'.tests (h.tests hs),
    fun hn => h.collective (h'.collective hn)⟩

/-- What is collected holds. -/
def AllHold (env : Scalar.Env) (u : Unswitch) : Prop :=
  ∀ s ∈ u.conditions, s.Holds env

/-- If all conditions hold, those that were there before hold. -/
theorem AllHold.of_grown {u u' : Unswitch} (h : AllHold env u') (hgrown : Grown u u') :
    AllHold env u :=
  fun s hs => h s (hgrown.conditions s hs)

/-- Without bounds checks the emitted statements perform what they perform with them, wherever the
collected conditions hold and no threads cooperate. -/
def Unswitches (c : Emitter) (scope : List ExprId) (frames : List LoopFrame)
    (x : Emit (List Stmt)) : Prop :=
  ∀ n u fast s', Gives x ⟨n, some u⟩ fast s' →
    ∃ u', s'.unswitch = some u' ∧ Grown u u' ∧
      (u'.hasCollective = false → ∃ full, Gives x ⟨n, none⟩ full ⟨s'.nextLoop, none⟩ ∧
        ∀ env, c.Ready scope env frames → (∀ h ∈ Stmt.headers fast, h.Placed env) → AllHold env u' →
          Stmt.performedAll env fast = Stmt.performedAll env full)

namespace Unswitches

variable {x y : Emit (List Stmt)}

/-- Statements that do not look for bounds. -/
protected theorem pure (xs : List Stmt) : c.Unswitches scope frames (pure xs) := by
  intro n u fast s' h
  obtain ⟨rfl, rfl⟩ := gives_pure.1 h
  exact ⟨u, rfl, .refl u, fun _ => ⟨xs, gives_pure.2 ⟨rfl, rfl⟩, fun _ _ _ _ => rfl⟩⟩

/-- What is blind to unswitching may come first. -/
protected theorem bind {α : Type} {z : Emit α} {k : α → Emit (List Stmt)} (hz : Blind z)
    (hk : ∀ {n u a s}, Gives z ⟨n, u⟩ a s → c.Unswitches scope frames (k a)) :
    c.Unswitches scope frames (z >>= k) := by
  intro n u fast s' h
  obtain ⟨a, ⟨n₁, u₁⟩, ha, h⟩ := gives_bind.1 h
  obtain ⟨rfl, hz'⟩ := hz n _ a _ ha
  obtain ⟨u', hu', hgrown, hfull⟩ := hk ha n₁ u fast s' h
  refine ⟨u', hu', hgrown, fun hno => ?_⟩
  obtain ⟨full, hgives, hsame⟩ := hfull hno
  exact ⟨full, gives_bind.2 ⟨a, _, hz' none, hgives⟩, hsame⟩

/-- Two parts that are emitted one after the other. -/
protected theorem append (hx : c.Unswitches scope frames x) (hy : c.Unswitches scope frames y) :
    c.Unswitches scope frames (x >>= fun xs => y >>= fun ys => pure (xs ++ ys)) := by
  intro n u fast s' h
  obtain ⟨xs, ⟨n₁, u₁⟩, hxs, h⟩ := gives_bind.1 h
  obtain ⟨ys, s₂, hys, h⟩ := gives_bind.1 h
  obtain ⟨rfl, rfl⟩ := gives_pure.1 h
  obtain ⟨u₁, rfl, hgrown, hfull⟩ := hx n u xs _ hxs
  obtain ⟨u₂, hu₂, hgrown', hfull'⟩ := hy n₁ u₁ ys _ hys
  refine ⟨u₂, hu₂, hgrown.trans hgrown', fun hno => ?_⟩
  obtain ⟨xs', hxs', hsame⟩ := hfull (hgrown'.collective hno)
  obtain ⟨ys', hys', hsame'⟩ := hfull' hno
  refine ⟨xs' ++ ys', ?_, fun env hready hplaced hhold => ?_⟩
  · exact gives_bind.2 ⟨xs', _, hxs', gives_bind.2 ⟨ys', _, hys', gives_pure.2 ⟨rfl, rfl⟩⟩⟩
  · rw [Stmt.headers_append] at hplaced
    rw [Stmt.performedAll_append, Stmt.performedAll_append,
      hsame env hready (fun h hh => hplaced h (List.mem_append_left _ hh)) (hhold.of_grown hgrown'),
      hsame' env hready (fun h hh => hplaced h (List.mem_append_right _ hh)) hhold]

/-- Statements are emitted for each of a list in order. -/
protected theorem flatten {α : Type} {g : α → Emit (List Stmt)} {l : List α}
    (hg : ∀ a ∈ l, c.Unswitches scope frames (g a)) :
    c.Unswitches scope frames (l.mapM g >>= fun xs => pure xs.flatten) := by
  induction l with
  | nil => exact .pure []
  | cons a l ih =>
      have hcons : (a :: l).mapM g >>= (fun xs => pure xs.flatten) =
          g a >>= fun xs => (l.mapM g >>= fun ys => pure ys.flatten) >>= fun ys => pure (xs ++ ys) := by
        simp only [List.mapM_cons, bind_assoc, pure_bind, List.flatten_cons]
      rw [hcons]
      exact (hg a List.mem_cons_self).append (ih fun b hb => hg b (List.mem_cons_of_mem a hb))

/-- What stands around the statements must perform the same if they do, and have their loops run. -/
protected theorem wrap {inner : List LoopFrame} {g : List Stmt → List Stmt}
    (hx : c.Unswitches scope inner x)
    (henter : ∀ env xs, c.Ready scope env frames → (∀ h ∈ Stmt.headers (g xs), h.Placed env) →
      c.Ready scope env inner ∧ ∀ h ∈ Stmt.headers xs, h.Placed env)
    (hsame : ∀ env xs, Stmt.performedAll env (g xs) = Stmt.performedAll env xs) :
    c.Unswitches scope frames (x >>= fun xs => pure (g xs)) := by
  intro n u fast s' h
  obtain ⟨xs, s₁, hxs, h⟩ := gives_bind.1 h
  obtain ⟨rfl, rfl⟩ := gives_pure.1 h
  obtain ⟨u', hu', hgrown, hfull⟩ := hx n u xs _ hxs
  refine ⟨u', hu', hgrown, fun hno => ?_⟩
  obtain ⟨full, hgives, hperf⟩ := hfull hno
  refine ⟨g full, gives_bind.2 ⟨full, _, hgives, gives_pure.2 ⟨rfl, rfl⟩⟩, ?_⟩
  intro env hready hplaced hhold
  obtain ⟨hinner, hheaders⟩ := henter env xs hready hplaced
  rw [hsame, hsame, hperf env hinner hheaders hhold]

end Unswitches

/-! ## Expressions and initializations -/

/-- A test for the first thread is a condition. -/
theorem zeroGuard_isCondition (types : ParallelSet) : (zeroGuard types).IsCondition := by
  refine .all fun t ht => ?_
  obtain ⟨type, -, rfl⟩ := List.mem_map.1 ht
  exact .eq _ _

/-- A test for the bounds of the launch is a condition. -/
theorem launchBounds_isCondition (p : LoopPlan) (launch : LaunchExtents) (v : ValueId)
    (withReductions : Bool) : (p.launchBounds launch v withReductions).IsCondition := by
  refine .all fun t ht => ?_
  obtain ⟨a, -, ht⟩ := List.mem_filterMap.1 ht
  dsimp only at ht
  split at ht
  · cases ht
  · cases ht
    exact .lt _ _

/-- Outside unswitched loops the bounds stay. -/
theorem boundsGuard_none (frames : List LoopFrame) (bounds : Scalar) (n : Nat) :
    Gives (boundsGuard frames bounds) ⟨n, none⟩ bounds ⟨n, none⟩ :=
  rfl

/-- Inside an unswitched loop the bounds at the last iteration are collected. -/
theorem boundsGuard_some {bounds guard : Scalar} {n : Nat} {u : Unswitch} {s' : EmitState}
    (htest : bounds.IsTest) (h : Gives (boundsGuard frames bounds) ⟨n, some u⟩ guard s') :
    guard = .truth ∧ ∃ u', s' = ⟨n, some u'⟩ ∧ Grown u u' ∧ u'.hasCollective = u.hasCollective ∧
      ∃ inner, (∀ fr ∈ inner, fr ∈ frames) ∧ ∀ env, AllHold env u' →
        (bounds.substitute (lastIndex inner)).evaluate env = some (.bool true) := by
  unfold boundsGuard at h
  obtain ⟨t, t', hget, h⟩ := gives_bind.1 h
  obtain ⟨rfl, rfl⟩ := gives_get.1 hget
  dsimp only at h
  generalize hinner : frames.take (frames.length - u.depth) = inner at h
  have hmem : ∀ fr ∈ inner, fr ∈ frames := by
    rw [← hinner]
    exact fun fr hfr => List.mem_of_mem_take hfr
  split at h
  case isTrue hnew =>
      obtain ⟨w, s₁, hmodify, h⟩ := gives_bind.1 h
      obtain ⟨rfl, rfl⟩ := gives_pure.1 h
      cases gives_modify.1 hmodify
      refine ⟨rfl, _, rfl, ⟨fun s hs => List.mem_append_left _ hs, fun hu s hs => ?_, id⟩, rfl,
        inner, hmem, fun env hhold => (hhold _ (List.mem_append_right _ List.mem_cons_self)).truth⟩
      rcases List.mem_append.1 hs with hs | hs
      · exact hu s hs
      · cases List.mem_singleton.1 hs
        exact htest.substituted _
  case isFalse hold =>
      obtain ⟨rfl, rfl⟩ := gives_pure.1 h
      refine ⟨rfl, u, rfl, .refl u, rfl, inner, hmem, fun env hhold => ?_⟩
      by_cases htrue : (bounds.substitute (lastIndex inner)).isTrue = true
      · rw [Scalar.eq_of_isBool htrue]
        rfl
      · have hcontains : u.conditions.contains (bounds.substitute (lastIndex inner)) = true := by
          simpa [htrue] using hold
        obtain ⟨s, hs, hbeq⟩ := List.contains_iff_exists_mem_beq.1 hcontains
        have hs' := hhold s hs
        rw [Scalar.eq_of_beq_floatFree (.inr hs'.floatFree) hbeq]
        exact hs'.truth

/-- Bounds that hold may be left out of a guard. -/
theorem evaluate_guard_iff {bounds launch zero : Scalar} (hb : bounds.IsCondition)
    (hl : launch.IsCondition) (hz : zero.IsCondition)
    (htrue : bounds.evaluate env = some (.bool true)) :
    ((Scalar.truth.and launch).and zero).evaluate env = some (.bool true) ↔
      ((bounds.and launch).and zero).evaluate env = some (.bool true) := by
  obtain ⟨hcond, hiff⟩ := Scalar.evaluate_and_iff hb hl
  obtain ⟨hcond', hiff'⟩ := Scalar.evaluate_and_iff (.bool true) hl
  rw [(Scalar.evaluate_and_iff hcond hz).2, hiff]
  unfold Scalar.truth
  rw [(Scalar.evaluate_and_iff hcond' hz).2, hiff']
  simp [htrue, Scalar.evaluate]

/-- The loop that an initialization enters is placed if its head is. -/
theorem enterInitLeaf_ready (scope : List ExprId) {fs fs' : List LoopFrame}
    {hs hs' : List LoopHeader} {leaf : AxisId} {s s' : EmitState}
    (h : Gives (c.enterInitLeaf (fs, hs) leaf) s (fs', hs') s')
    (hplaced : ∀ header ∈ hs', header.Placed env) (hready : c.Ready scope env fs) :
    c.Ready scope env fs' := by
  rcases enterInitLeaf_cases h with ⟨rfl, -⟩ | ⟨⟨group, index, extent, l⟩, rfl, -, -, hloop⟩
  · exact hready
  · refine hready.enter ?_
    dsimp only at hloop
    rcases hloop with ⟨-, rfl, rfl | ⟨rfl, hlaunch, -⟩⟩ | ⟨header, rfl, hserial, -, rfl, rfl, rfl⟩
    · exact Ready.zero_placed _ _
    · exact hready.launch_placed hlaunch _ _
    · rcases hplaced _ (List.mem_append_right _ List.mem_cons_self) with
        hlaunch | ⟨i, hi, n, hn, h₀, hlt, hfits⟩
      · rw [hserial] at hlaunch
        cases hlaunch
      · exact .loop hi hn h₀ hlt hfits

/-- Under collected bounds operations are performed where they are under their own. -/
theorem Unswitches.bounded {v : ValueId} {indices : AxisIndices} {ops : Emit (List Op)}
    {zero : Scalar} (hsafe : c.plan.HoistSafe v)
    (hmeasured : ∀ env, c.Ready scope env frames → c.plan.Measured env v)
    (hok : c.plan.consumerIndices v frames = .ok indices) (hops : Blind ops)
    (hzero : zero.IsCondition) (withReductions : Bool) :
    c.Unswitches scope frames (boundsGuard frames (c.plan.bounds v indices withReductions) >>=
      fun b => ops >>= fun os => pure (os.map (Stmt.guarded
        ((b.and (c.plan.launchBounds c.launch v withReductions)).and zero)))) := by
  intro n u fast s' h
  have htest := c.plan.bounds_isTest v indices withReductions
  obtain ⟨guard, s₁, hguard, h⟩ := gives_bind.1 h
  obtain ⟨rfl, u', rfl, hgrown, -, inner, hinner, hbounds⟩ := boundsGuard_some htest hguard
  obtain ⟨os, ⟨n₂, u₂⟩, hos, h⟩ := gives_bind.1 h
  obtain ⟨rfl, rfl⟩ := gives_pure.1 h
  obtain ⟨rfl, hblind⟩ := hops n _ os _ hos
  refine ⟨u', rfl, hgrown, fun _ => ⟨_, gives_bind.2 ⟨_, _, boundsGuard_none _ _ n,
    gives_bind.2 ⟨os, _, hblind none, gives_pure.2 ⟨rfl, rfl⟩⟩⟩, ?_⟩⟩
  intro env hready _ hhold
  have hfall := LoopPlan.bounds_fall hsafe (hmeasured env hready) hready.placed hinner hok withReductions
  have hiff := evaluate_guard_iff htest.condition
    (launchBounds_isCondition c.plan c.launch v withReductions) hzero (hfall (hbounds env hhold))
  rw [Stmt.performedAll_map_guarded, Stmt.performedAll_map_guarded]
  simp only [hiff]

/-- Where threads cooperate, nothing more is asked of the emission. -/
theorem Unswitches.collective {bounds : Scalar} (htest : bounds.IsTest)
    {k : Scalar → Emit (List Stmt)} (hk : ∀ b, Blind (k b)) :
    c.Unswitches scope frames (boundsGuard frames bounds >>= fun b =>
      noteCollective >>= fun _ => k b) := by
  intro n u fast s' h
  obtain ⟨guard, s₁, hguard, h⟩ := gives_bind.1 h
  obtain ⟨rfl, u', rfl, hgrown, -⟩ := boundsGuard_some htest hguard
  obtain ⟨w, s₂, hnote, h⟩ := gives_bind.1 h
  cases gives_modify.1 hnote
  obtain ⟨hu, -⟩ := hk _ n _ fast s' h
  exact ⟨_, hu, hgrown.trans ⟨fun _ hs => hs, fun hs => hs, fun h => by cases h⟩, fun h => by cases h⟩

section Emission

variable (hsafe : c.HoistSafe scope)

include hsafe

/-- Without its bounds an operation is performed where it is with them. -/
theorem emitExpr_unswitches (he : e ∈ scope) : c.Unswitches scope frames (c.emitExpr frames e) := by
  unfold emitExpr
  split
  case h_1 => exact .pure []
  case h_2 v hv =>
      refine .bind (c.checkEnclosure_blind frames v e) fun _ =>
        .bind (.lift _) fun {n u indices s} hindices => ?_
      have hok := (gives_lift.1 hindices).1
      dsimp only
      generalize hreduced : (if (c.plan.fusion.expr e).kind.isReduction then
        c.plan.groups.reducedTypes c.plan.fusion v else ∅) = reduced
      split
      case isTrue =>
          exact .collective (c.plan.bounds_isTest v indices true)
            fun b => c.emitOp_blind frames e v indices _
      case isFalse hserial =>
          obtain ⟨hempty, hspread⟩ : reduced.isEmpty = true ∧ (c.validity.spread e).isEmpty = true := by
            simpa using hserial
          have hserialOp : ∀ b : Scalar, c.emitOp frames e v indices
              ⟨b.and (c.plan.launchBounds c.launch v true), c.validity.expr e, reduced⟩ =
              (c.serialOp frames e v >>= fun o => pure [o]) >>= fun os => pure (os.map (Stmt.guarded
                ((b.and (c.plan.launchBounds c.launch v true)).and (zeroGuard
                  ((c.validity.expr e).union (c.plan.redundantTypes c.launch v false)))))) := by
            intro b
            rw [c.emitOp_serial frames hspread hempty]
            simp only [bind_assoc, pure_bind]
            rfl
          simp only [hserialOp]
          exact .bounded (hsafe e he v hv) (fun env hready => hready.measured e he v hv) hok
            ((c.serialOp_blind frames e v).bind fun o => .pure _) (zeroGuard_isCondition _) true

/-- Without its bounds an initialization is performed where it is with them. -/
theorem emitInit_unswitches (he : e ∈ scope) : c.Unswitches scope frames (c.emitInit frames e) := by
  unfold emitInit
  dsimp only
  split
  case h_1 => exact .pure []
  case h_2 v hv =>
      split
      case h_1 => exact .pure []
      case h_2 first hfirst =>
          refine .bind (.foldlM c.enterInitLeaf_blind _ _) fun {n u entered s} hentered => ?_
          obtain ⟨fs, hs⟩ := entered
          have hready := fun env => (enterInitLeaves_keep (P := c.Ready scope env)
            (Q := LoopHeader.Placed env) (enterInitLeaf_ready scope) hentered).2
          refine .bind (.lift _) fun {n u indices s} hindices => ?_
          have hbounded : c.Unswitches scope fs _ := .bounded (hsafe e he v hv)
            (fun env hready => hready.measured e he v hv) (gives_lift.1 hindices).1
            (c.initOps_blind fs (c.plan.fusion.expr e) v)
            (zeroGuard_isCondition (c.plan.redundantTypes c.launch v true)) false
          have hwrap : c.Unswitches scope frames _ :=
            hbounded.wrap (g := hs.foldr fun h body => [.loop h body]) (fun env xs hframes hplaced => ?_)
              fun env xs => Stmt.performedAll_loops env hs xs
          · simpa only [bind_assoc, pure_bind] using hwrap
          · rw [Stmt.headers_loops] at hplaced
            exact ⟨hready env (fun h hh => hplaced h (List.mem_append_left _ hh)) hframes,
              fun h hh => hplaced h (List.mem_append_right _ hh)⟩

/-- Initializations are unswitched like what they initialize. -/
theorem emitInits_unswitches (group : AxisId) {exprs : List ExprId} (hscope : exprs ⊆ scope) :
    c.Unswitches scope frames (c.emitInits frames group exprs) := by
  refine .flatten fun e he => emitInit_unswitches hsafe (hscope ?_)
  obtain ⟨⟨g, e'⟩, hmem, rfl⟩ := List.mem_map.1 he
  have hhere := (List.mem_filter.1 hmem).2
  simp only [Bool.and_eq_true, List.contains_iff_mem] at hhere
  exact hhere.2

end Emission

/-! ## Loops -/

/-- Allocations perform nothing. -/
theorem performedAll_allocations (vs : List ValueId) :
    Stmt.performedAll env (vs.map c.allocation) = [] := by
  induction vs with
  | nil => rfl
  | cons v vs ih =>
      rw [List.map_cons, Stmt.performedAll, ih]
      rfl

/-- The allocations of a loop perform nothing. -/
theorem performedAll_allocationsAt (c : Emitter) (group : AxisId) (exprs : List ExprId) :
    Stmt.performedAll env (c.allocationsAt group exprs) = [] := by
  have hmap : ∀ here : List (AxisId × ValueId),
      here.map (fun x => c.allocation x.2) = (here.map (·.2)).map c.allocation := by simp
  unfold allocationsAt
  dsimp only
  rw [hmap, performedAll_allocations]

/-- Allocations in front perform nothing. -/
theorem Unswitches.allocations {x : Emit (List Stmt)} (hx : c.Unswitches scope frames x)
    (group : AxisId) (exprs : List ExprId) :
    c.Unswitches scope frames (x >>= fun xs => pure (c.allocationsAt group exprs ++ xs)) := by
  refine hx.wrap (fun env xs hframes hplaced => ⟨hframes, ?_⟩) fun env xs => ?_
  · rw [Stmt.headers_append] at hplaced
    exact fun h hh => hplaced h (List.mem_append_right _ hh)
  · rw [Stmt.performedAll_append, performedAll_allocationsAt, List.nil_append]

section Loops

variable (h : LoopHeader) (group : AxisId) (exprs : List ExprId)
  {body : List LoopFrame → Emit (List Stmt)}
  (hbody : ∀ frames, c.Unswitches scope frames (body frames))

include hbody

/-- The body of a loop is unswitched like its parts. -/
theorem emitLoop_unswitches :
    c.Unswitches scope (frameOf h group :: frames) (c.emitLoop frames h group exprs body) :=
  (hbody _).allocations group exprs

/-- A loop is unswitched like its body. -/
theorem Unswitches.loop : c.Unswitches scope frames
    (c.emitLoop frames h group exprs body >>= fun inner => pure [.loop h inner]) := by
  refine (emitLoop_unswitches h group exprs hbody).wrap (fun env xs hframes hplaced => ?_)
    fun env xs => ?_
  · rw [Stmt.headers_loop, List.forall_mem_cons] at hplaced
    exact ⟨hframes.enter (hframes.loop_placed hplaced.1 group), hplaced.2⟩
  · rw [Stmt.performedAll_singleton, Stmt.performed]

/-- A broadcast has no loop of its own. -/
theorem Unswitches.unlooped : c.Unswitches scope frames
    (body (⟨group, .zero, .one, none⟩ :: frames) >>= fun inner =>
      pure (c.allocationsAt group exprs ++ inner)) := by
  refine Unswitches.allocations ?_ group exprs
  have hinner : c.Unswitches scope frames _ := (hbody (⟨group, .zero, .one, none⟩ :: frames)).wrap
    (g := id) (fun env xs hframes hplaced => ⟨hframes.enter (Ready.zero_placed _ _), hplaced⟩)
    fun env xs => rfl
  simpa using hinner

end Loops
end Emitter

namespace LoopTree

mutual

/-- No loop of the tree is unswitched. -/
def plain (p : LoopPlan) : LoopTree → Bool
  | .expr _ => true
  | .loop group children => p.groups.parallel group != .unswitch && plainAll p children

/-- No loop of the trees is unswitched. -/
def plainAll (p : LoopPlan) : List LoopTree → Bool
  | [] => true
  | t :: rest => plain p t && plainAll p rest

end
end LoopTree

namespace Emitter

open Emit

variable {c : Emitter} {scope : List ExprId}

mutual

/-- The statements of a loop tree perform the same without bounds checks. -/
theorem emitTree_unswitches (hsafe : c.HoistSafe scope) :
    ∀ (t : LoopTree) (frames : List LoopFrame), t.exprs ⊆ scope → t.plain c.plan = true →
      c.Unswitches scope frames (c.emitTree frames t)
  | .expr e, frames, hscope, _ => by
      rw [emitTree]
      exact emitExpr_unswitches hsafe (hscope List.mem_cons_self)
  | .loop group children, frames, hscope, hplain => by
      obtain ⟨hserial, hplain⟩ : c.plan.groups.parallel group ≠ .unswitch ∧
          LoopTree.plainAll c.plan children = true := by simpa [LoopTree.plain] using hplain
      rw [LoopTree.exprs] at hscope
      have hbody := fun frames => emitTrees_unswitches hsafe children frames hscope hplain
      have hinits : c.Unswitches scope frames _ := emitInits_unswitches hsafe group hscope
      rw [emitTree]
      dsimp only
      split
      case isTrue =>
          have hinner : c.Unswitches scope frames _ :=
            .unlooped group (LoopTree.exprsAll children) hbody
          simpa only [bind_assoc, pure_bind, List.append_assoc] using hinits.append hinner
      case isFalse =>
          have hne : (c.plan.groups.parallel group == .unswitch) = false := by simpa using hserial
          simp only [hne, Bool.false_eq_true, if_false]
          have hloop : c.Unswitches scope frames _ :=
            .bind (c.header_blind group (c.plan.groups.parallel group)) fun {n u h s} _ =>
              .loop h group (LoopTree.exprsAll children) hbody
          simpa only [bind_assoc, pure_bind] using hinits.append hloop

/-- The statements of loop trees perform the same without bounds checks. -/
theorem emitTrees_unswitches (hsafe : c.HoistSafe scope) :
    ∀ (ts : List LoopTree) (frames : List LoopFrame), LoopTree.exprsAll ts ⊆ scope →
      LoopTree.plainAll c.plan ts = true → c.Unswitches scope frames (c.emitTrees frames ts)
  | [], frames, _, _ => by
      rw [emitTrees]
      exact .pure []
  | t :: ts, frames, hscope, hplain => by
      rw [LoopTree.exprsAll, List.append_subset] at hscope
      rw [LoopTree.plainAll, Bool.and_eq_true] at hplain
      rw [emitTrees]
      exact (emitTree_unswitches hsafe t frames hscope.1 hplain.1).append
        (emitTrees_unswitches hsafe ts frames hscope.2 hplain.2)

end

/-! ## Unswitched loops -/

section Switch

variable {frames : List LoopFrame} {group : AxisId} {exprs : List ExprId} {n : Nat} {stmt : Stmt}
  {s' : EmitState}

/-- An unswitched loop is emitted without bounds checks first.  It is fully guarded all the same, has
no bounds to check, or has a condition; there is no second body if no loop repeats. -/
theorem emitUnswitched_cases {body : List LoopFrame → Emit (List Stmt)}
    (h : Gives (c.emitUnswitched frames group exprs body) ⟨n, none⟩ stmt s') :
    ∃ header fast n₁ n₂ collected,
      Gives (c.header group .serial) ⟨n, none⟩ header ⟨n₁, none⟩ ∧
      Gives (c.emitLoop frames header group exprs body)
        ⟨n₁, some { depth := frames.length + 1 }⟩ fast ⟨n₂, collected⟩ ∧
      ((∃ full, stmt = .loop header full ∧
          Gives (c.emitLoop frames header group exprs body) ⟨n₂, none⟩ full s') ∨
        (stmt = .loop header fast ∧ s' = ⟨n₂, none⟩ ∧
          ∀ u ∈ collected, u.hasCollective = false ∧ (Scalar.all u.conditions).isTrue = true) ∨
        ∃ u slow, collected = some u ∧ u.hasCollective = false ∧
          stmt = .loop header [.branch (.all u.conditions) fast slow] ∧
          (slow = [] ∧ s' = ⟨n₂, none⟩ ∧ header.repeats = false ∧
              (∀ h ∈ Stmt.headers fast, h.repeats = false) ∨
            Gives (c.emitLoop frames header group exprs body) ⟨n₂, none⟩ slow s')) := by
  unfold emitUnswitched at h
  obtain ⟨header, ⟨n₁, u₁⟩, hheader, h⟩ := gives_bind.1 h
  obtain ⟨rfl, -⟩ := c.header_blind group .serial n _ header _ hheader
  obtain ⟨w, s₁, hset, h⟩ := gives_bind.1 h
  cases gives_modify.1 hset
  obtain ⟨fast, ⟨n₂, collected⟩, hfast, h⟩ := gives_bind.1 h
  obtain ⟨t, t', hget, h⟩ := gives_bind.1 h
  obtain ⟨rfl, rfl⟩ := gives_get.1 hget
  obtain ⟨w', s₂, hset', h⟩ := gives_bind.1 h
  cases gives_modify.1 hset'
  refine ⟨header, fast, n₁, n₂, collected, hheader, hfast, ?_⟩
  cases collected with
  | none =>
      obtain ⟨rfl, rfl⟩ := gives_pure.1 h
      exact .inr (.inl ⟨rfl, rfl, fun u hu => by cases hu⟩)
  | some u =>
      dsimp only at h
      split at h
      case isTrue =>
          obtain ⟨full, s₃, hfull, h⟩ := gives_bind.1 h
          obtain ⟨rfl, rfl⟩ := gives_pure.1 h
          exact .inl ⟨full, rfl, hfull⟩
      case isFalse hno =>
          rw [Bool.not_eq_true] at hno
          split at h
          case isTrue htrue =>
              obtain ⟨rfl, rfl⟩ := gives_pure.1 h
              refine .inr (.inl ⟨rfl, rfl, fun u' hu' => ?_⟩)
              cases hu'
              exact ⟨hno, htrue⟩
          case isFalse =>
              refine .inr (.inr ?_)
              split at h
              case isTrue honce =>
                  rw [pure_bind] at h
                  obtain ⟨rfl, rfl⟩ := gives_pure.1 h
                  refine ⟨u, [], rfl, hno, rfl, .inl ⟨rfl, rfl, ?_⟩⟩
                  obtain ⟨hextent, hinner⟩ := Bool.and_eq_true_iff.1 honce
                  refine ⟨?_, fun h hh => by simpa using List.all_eq_true.1 hinner h hh⟩
                  rw [LoopHeader.repeats, hextent, Bool.not_true, Bool.and_false]
              case isFalse =>
                  obtain ⟨slow, s₃, hslow, h⟩ := gives_bind.1 h
                  obtain ⟨rfl, rfl⟩ := gives_pure.1 h
                  exact ⟨u, slow, rfl, hno, rfl, .inr hslow⟩

end Switch

/-- The body of a loop with every bounds check in place, its own loops numbered from `n` on. -/
def GuardedBody (c : Emitter) (frames : List LoopFrame) (h : LoopHeader) (group : AxisId)
    (children : List LoopTree) (n : Nat) (body : List Stmt) : Prop :=
  ∃ s', Gives (c.emitLoop frames h group (LoopTree.exprsAll children)
    fun frames => c.emitTrees frames children) ⟨n, none⟩ body s'

/-- Where the condition that was collected on the way holds, the body without bounds checks performs
what the guarded one does. -/
theorem bareBody_performs {frames : List LoopFrame} {header : LoopHeader} {group : AxisId}
    {children : List LoopTree} {n n' depth : Nat} {fast : List Stmt} {collected : Option Unswitch}
    {env : Scalar.Env} (hsafe : c.HoistSafe (LoopTree.exprsAll children))
    (hplain : LoopTree.plainAll c.plan children = true)
    (hfast : Gives (c.emitLoop frames header group (LoopTree.exprsAll children)
      fun frames => c.emitTrees frames children) ⟨n, some { depth := depth }⟩ fast ⟨n', collected⟩)
    (hready : c.Ready (LoopTree.exprsAll children) env frames) (hheader : header.Placed env)
    (hplaced : ∀ h ∈ Stmt.headers fast, h.Placed env)
    (hcond : ∀ u ∈ collected, u.hasCollective = false ∧ (Scalar.all u.conditions).Holds env) :
    ∃ m full, c.GuardedBody frames header group children m full ∧
      Stmt.performedAll env fast = Stmt.performedAll env full := by
  have hbody := fun frames => emitTrees_unswitches hsafe children frames (fun _ he => he) hplain
  obtain ⟨u, hu, hgrown, hfull⟩ := emitLoop_unswitches header group _ hbody _ _ _ _ hfast
  obtain ⟨hno, hholds⟩ := hcond u hu
  obtain ⟨full, hgives, hperf⟩ := hfull hno
  have htests := hgrown.tests (fun s hs => by cases hs)
  exact ⟨n, full, ⟨_, hgives⟩, hperf env (hready.enter (hready.loop_placed hheader group)) hplaced
    (Scalar.Holds.all htests hholds)⟩

/-- The condition of an unswitched loop that has one, with both bodies. -/
def switch? : Stmt → Option (Scalar × List Stmt × List Stmt)
  | .loop _ [.branch cond fast slow] => some (cond, fast, slow)
  | _ => none

/-- No floating-point literal occurs in the condition of an unswitched loop. -/
def floatFreeSwitch (stmt : Stmt) : Bool :=
  (switch? stmt).all fun s => s.1.floatFree

/-- An unswitched loop performs what its fully guarded body performs at the same indices.  Only if
no loop repeats may it perform nothing instead, where a bound of some operation inside fails. -/
theorem emitUnswitched_performs {frames : List LoopFrame} {group : AxisId}
    {children : List LoopTree} {n : Nat} {stmt : Stmt} {s' : EmitState}
    (hsafe : c.HoistSafe (LoopTree.exprsAll children))
    (hplain : LoopTree.plainAll c.plan children = true)
    (h : Gives (c.emitUnswitched frames group (LoopTree.exprsAll children)
      fun frames => c.emitTrees frames children) ⟨n, none⟩ stmt s') :
    ∃ header body, stmt = .loop header body ∧ (floatFreeSwitch stmt = true →
      ∀ env, c.Ready (LoopTree.exprsAll children) env frames →
        (∀ h ∈ Stmt.headers [stmt], h.Placed env) →
          (∃ m full, c.GuardedBody frames header group children m full ∧
            Stmt.performedAll env body = Stmt.performedAll env full) ∨
          (Stmt.performedAll env body = [] ∧ ∀ h ∈ Stmt.headers [stmt], h.repeats = false)) := by
  obtain ⟨header, fast, n₁, n₂, collected, -, hfast, hcases⟩ := emitUnswitched_cases h
  rcases hcases with ⟨full, rfl, hguarded⟩ | ⟨rfl, -, hcollected⟩ | ⟨u, slow, hu, hno, rfl, hslow⟩
  · exact ⟨header, full, rfl, fun _ env _ _ => .inl ⟨n₂, full, ⟨s', hguarded⟩, rfl⟩⟩
  · refine ⟨header, fast, rfl, fun _ env hready hplaced => .inl ?_⟩
    rw [Stmt.headers_loop, List.forall_mem_cons] at hplaced
    refine bareBody_performs hsafe hplain hfast hready hplaced.1 hplaced.2 fun u hu => ?_
    obtain ⟨hno, htrue⟩ := hcollected u hu
    rw [Scalar.eq_of_isBool htrue]
    exact ⟨hno, rfl, rfl⟩
  · refine ⟨header, _, rfl, fun hfree env hready hplaced => ?_⟩
    rw [Stmt.headers_loop, Stmt.headers_branch, List.forall_mem_cons,
      List.forall_mem_append] at hplaced
    rw [Stmt.performedAll_singleton, Stmt.performed]
    split
    case isTrue hcond =>
        refine .inl (bareBody_performs hsafe hplain hfast hready hplaced.1 hplaced.2.1 ?_)
        intro u' hu'
        cases hu.symm.trans hu'
        exact ⟨hno, hcond, hfree⟩
    case isFalse =>
        rcases hslow with ⟨rfl, -, honce, hinner⟩ | hguarded
        · refine .inr ⟨rfl, ?_⟩
          rw [Stmt.headers_loop, Stmt.headers_branch, List.forall_mem_cons, List.forall_mem_append]
          exact ⟨honce, hinner, fun h hh => by cases hh⟩
        · exact .inl ⟨n₂, slow, ⟨s', hguarded⟩, rfl⟩

/-- The emitter of a plan. -/
def ofPlan (p : LoopPlan) : Emitter :=
  make p p.launchExtents (.build p)

end Emitter

namespace Lowered

open Emitter Fusion

/-- Negation of twelve elements in blocks of five; the loop over the blocks is unswitched. -/
def negatedBlocks : List Call :=
  [.tensor [2, 6] [true, true] .float, .input ⟨0⟩, .unary .neg (.value ⟨0⟩), .output ⟨7⟩,
    .merge ⟨7⟩ 0 1, .split ⟨7⟩ 0 (.const 5) true, .parallelize ⟨7⟩ 0 .unswitch]

/-- The loop over the elements of a block. -/
def blockTrees : List LoopTree :=
  [.loop ⟨6⟩ [.expr ⟨0⟩]]

/-- The fourth element of the first block. -/
def fourthElement : Scalar.Env where
  launchIndex := fun _ => some 0
  loop := fun l => if l.index = 0 then some 0 else some 3

/-- Negated blocks perform what their guarded body performs. -/
theorem negatedBlocks_performs :
    ∃ f p header body s, applyAll Schedule.replay negatedBlocks {} = some f ∧ planOf f = .ok p ∧
      Emit.Gives ((ofPlan p).emitUnswitched [] ⟨5⟩ (LoopTree.exprsAll blockTrees)
        fun frames => (ofPlan p).emitTrees frames blockTrees) {} (.loop header body) s ∧
      ∃ m full, (ofPlan p).GuardedBody [] header ⟨5⟩ blockTrees m full ∧
        Stmt.performedAll fourthElement body = Stmt.performedAll fourthElement full ∧
        (Stmt.performedAll fourthElement body).isEmpty = false := by
  have hrun : ((applyAll Schedule.replay negatedBlocks {}).any fun f =>
      (planOf f).toOption.any fun p =>
        (((ofPlan p).emitUnswitched [] ⟨5⟩ (LoopTree.exprsAll blockTrees)
          fun frames => (ofPlan p).emitTrees frames blockTrees).run {}).toOption.any fun (r : Stmt × EmitState) =>
            decide ((ofPlan p).HoistSafe (LoopTree.exprsAll blockTrees) ∧
              LoopTree.plainAll p blockTrees = true ∧
              (∀ e ∈ LoopTree.exprsAll blockTrees, ∀ v ∈ p.fusion.loopTensor? e,
                p.Measured fourthElement v) ∧
              floatFreeSwitch r.1 = true ∧ (∀ h ∈ Stmt.headers [r.1], h.Placed fourthElement) ∧
              (r.1.performed fourthElement).isEmpty = false)) = true := by
    decide +kernel
  obtain ⟨f, hf, hrun⟩ := (Option.any_eq_true _ _).1 hrun
  obtain ⟨p, hp, hrun⟩ := (Option.any_eq_true _ _).1 hrun
  obtain ⟨⟨stmt, s⟩, hgives, hchecks⟩ := (Option.any_eq_true _ _).1 hrun
  obtain ⟨hsafe, hplain, hmeasured, hfree, hplaced, hperforms⟩ := of_decide_eq_true hchecks
  have hready : (ofPlan p).Ready (LoopTree.exprsAll blockTrees) fourthElement [] :=
    ⟨fun t _ => ⟨0, rfl, by decide, by decide⟩, fun fr hfr => (by cases hfr), hmeasured⟩
  obtain ⟨header, body, rfl, hsame⟩ :=
    emitUnswitched_performs hsafe hplain (Results.ok_of_toOption hgives)
  rcases hsame hfree fourthElement hready hplaced with ⟨m, full, hguarded, hsame⟩ | ⟨hnone, -⟩
  · exact ⟨f, p, header, body, s, hf, Results.ok_of_toOption hp, Results.ok_of_toOption hgives, m, full,
      hguarded, hsame, hperforms⟩
  · rw [Stmt.performed, hnone] at hperforms
    cases hperforms

/-- Negation of two rows of six elements, in column blocks of four.  The positions in the column
blocks of both rows are walked together, three at a time; the loop over these is unswitched. -/
def negatedColumnBlocks : List Call :=
  [.tensor [2, 6] [true, true] .float, .input ⟨0⟩, .unary .neg (.value ⟨0⟩), .output ⟨7⟩,
    .split ⟨7⟩ 1 (.const 4) true, .merge ⟨7⟩ 0 2, .split ⟨7⟩ 0 (.const 3) true,
    .reorder ⟨7⟩ [(2, 0)], .parallelize ⟨7⟩ 1 .unswitch]

/-- The last position of the first row in the second column block, outside the row. -/
def behindFirstRow : Scalar.Env where
  loop := fun l => if l.index ≤ 1 then some 1 else some 0

/-- Columns with a bound that is not monotone: the fast path is taken, and it performs something
else. -/
theorem negatedColumnBlocks_not_performs :
    ∃ f l, applyAll Schedule.replay negatedColumnBlocks {} = some f ∧ make f = .ok l ∧
      (∀ h ∈ Stmt.headers l.kernel.body, h.Placed behindFirstRow) ∧
      ∃ stmt ∈ Stmt.flattenAll l.kernel.body, ∃ cond fast slow,
        switch? stmt = some (cond, fast, slow) ∧
          cond.evaluate behindFirstRow = some (.bool true) ∧
          (Stmt.performedAll behindFirstRow fast).isEmpty = false ∧
          (Stmt.performedAll behindFirstRow slow).isEmpty = true := by
  have hrun : ((applyAll Schedule.replay negatedColumnBlocks {}).any fun f =>
      (make f).toOption.any fun (l : Lowered) =>
        decide (∀ h ∈ Stmt.headers l.kernel.body, h.Placed behindFirstRow) &&
          (Stmt.flattenAll l.kernel.body).any fun stmt =>
            (switch? stmt).any fun s => decide (s.1.evaluate behindFirstRow = some (.bool true) ∧
              (Stmt.performedAll behindFirstRow s.2.1).isEmpty = false ∧
              (Stmt.performedAll behindFirstRow s.2.2).isEmpty = true)) = true := by
    decide +kernel
  obtain ⟨f, hf, hrun⟩ := (Option.any_eq_true _ _).1 hrun
  obtain ⟨l, hl, hrun⟩ := (Option.any_eq_true _ _).1 hrun
  obtain ⟨hplaced, hrun⟩ := Bool.and_eq_true_iff.1 hrun
  obtain ⟨stmt, hmem, hrun⟩ := List.any_eq_true.1 hrun
  obtain ⟨⟨cond, fast, slow⟩, hswitch, hchecks⟩ := (Option.any_eq_true _ _).1 hrun
  exact ⟨f, l, hf, Results.ok_of_toOption hl, of_decide_eq_true hplaced, stmt, hmem, cond, fast, slow,
    hswitch, of_decide_eq_true hchecks⟩

end Lowered
end FusionCompiler
