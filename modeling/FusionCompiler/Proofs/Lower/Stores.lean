import FusionCompiler.Proofs.Lower.Barriers
import FusionCompiler.Proofs.Lower.LoopIndices
import FusionCompiler.Proofs.Lower.RootBounds
import FusionCompiler.Proofs.Lower.Unswitching

/-!
# Stores to global memory

An operation is emitted under a guard: the bounds of its tensor, the bounds on
launch indices, and index zero of the launch types along which its result is
redundant.  A reduction across threads carries the same bounds in its write
condition, so where either holds and the operation stores, the index of every
stored axis is inside its extent.  A broadcast along launch types has its bounds
in its read condition only and is left out.

Main results:

- Theorem `LoopPlan.Confined.reaches`: where the bounds of a tensor hold, it is
  indexed inside its extents.
- Theorem `Emitter.emitOp_cases`: an expression becomes one operation, guarded or
  with a write condition.
- Theorem `Emitter.emitOp_inside`: an operation stores inside its tensors.
- Theorem `Emitter.emitTrees_shelters`: so do all statements of loop trees, except in
  the fast paths of unswitched loops.
-/

namespace FusionCompiler

open Fusion Kernel

namespace LoopPlan

variable {p : LoopPlan} {u v : ValueId} {e : AxisId → Int} {env : Scalar.Env}
  {width : ParallelType → Int} {frames : List LoopFrame} {leaves : AxisIndices}

/-! ## Addresses -/

/-- A tensor whose guard keeps its indices inside: its loops run over its own extents, and index
arithmetic cannot overflow. -/
structure Confined (p : LoopPlan) (v : ValueId) (e : AxisId → Int) (width : ParallelType → Int) :
    Prop where
  upright : p.Upright v e
  fits : ∀ a ∈ p.fusion.axesOf v,
    Fits64 (reach e (p.limit e width) ((p.fusion.history v).map p.fusion.transform) a)

instance (p : LoopPlan) (v : ValueId) (e : AxisId → Int) (width : ParallelType → Int) :
    Decidable (p.Confined v e width) :=
  decidable_of_iff (p.Upright v e ∧ ∀ a ∈ p.fusion.axesOf v,
      Fits64 (reach e (p.limit e width) ((p.fusion.history v).map p.fusion.transform) a))
    ⟨fun h => ⟨h.1, h.2⟩, fun h => ⟨h.upright, h.fits⟩⟩

section Addresses

variable {f : Fusion} (hbuild : LoopGroups.build f = .ok p.groups) (hf : Sound p.fusion)
  (hlaunched : p.Launched env width) (hserves : ∀ fr ∈ frames, p.Serves env fr)

include hbuild hf hlaunched hserves

/-- Where its bounds hold, a tensor is indexed inside its extents. -/
theorem Confined.reaches (h : p.Confined v e width)
    (hsized : p.fusion.Sized env (p.fusion.axesOf v) e)
    (hleaves : p.leafIndices v frames = .ok leaves) {withReductions : Bool}
    (hbounds : (p.bounds v (p.backward v leaves) withReductions).evaluate env = some (.bool true))
    (hlaunch : (p.launchBounds p.launchExtents v withReductions).evaluate env = some (.bool true)) :
    ∀ a ∈ p.fusion.shape v, Reaches env (p.backward v leaves) e a := by
  have hb := h.upright.balanced
  have hpos := h.upright.sizes.pos hf hb hsized
  have hown : ∀ a ∈ p.fusion.axesOf v, p.concreteExtent a = p.fusion.ownExtent a :=
    fun _ => h.upright.concreteExtent_eq
  have haxes : ∀ a ∈ p.fusion.leaf v, a ∈ p.fusion.axesOf v := fun a => hb.leaf_mem_axes
  have hkept : ∀ a ∈ p.fusion.leaf v, (p.carried v leaves).get? a = leaves.get? a := by
    intro a ha
    refine carriedBack_get?_of_not_mem fun hin => ?_
    exact (List.nodup_append.1 (hb.perm.nodup_iff.1 hb.nodup)).2.2 a ha a hin rfl
  have hbelow : ∀ a ∈ p.fusion.axesOf v, Below env (p.carried v leaves)
      (reach e (p.limit e width) ((p.fusion.history v).map p.fusion.transform) a) a := by
    refine carriedBack_below hf hb hown hsized hpos h.fits fun a ha => ?_
    obtain ⟨s, hget, hs⟩ := leafIndices_get? hleaves a ha
    obtain ⟨i, hi, h₀, hlimit, -⟩ := leafIndex_below hbuild hlaunched hserves (hown a (haxes a ha))
      (hsized a (haxes a ha)) (hpos a (haxes a ha)) hs
    exact ⟨s, i, hget, hi, h₀, hlimit⟩
  have hinside := rootIndex_inside hf h.upright hsized (fun a ha => ?_)
    (fun a ha => ?_) (fun a ha hkind => ?_) hbounds
  · intro a ha
    obtain ⟨hroot, -⟩ := h.upright.mem_root ha
    have hget := backward_get? p v leaves a
    by_cases hbroadcast : (p.fusion.axis a).isBroadcast = true
    · rw [if_pos ⟨hroot, hbroadcast⟩] at hget
      refine ⟨valued_pointOf hget rfl, hinside a ha, ?_⟩
      rw [pointOf_eq hget rfl]
      decide
    · rw [if_neg fun h => hbroadcast h.2] at hget
      have hmem : a ∈ p.fusion.axesOf v := List.mem_append_left _ hroot
      obtain ⟨s, n, hs, hn, h₀, hlt⟩ := hbelow a hmem
      refine ⟨valued_pointOf (hget.trans hs) hn, hinside a ha, ?_⟩
      rw [pointOf_eq (hget.trans hs) hn]
      exact (h.fits a hmem).of_le h₀ (Int.le_of_lt hlt)
  · obtain ⟨s, n, hs, hn, -⟩ := hbelow a ha
    exact valued_pointOf hs hn
  · obtain ⟨s, n, hs, hn, h₀, -⟩ := hbelow a (haxes a ha)
    rw [pointOf_eq hs hn]
    exact h₀
  · obtain ⟨s, hget, hs⟩ := leafIndices_get? hleaves a ha
    obtain ⟨i, hi, hin⟩ := leafIndex_inside hbuild hlaunched hserves (hown a (haxes a ha))
      (hsized a (haxes a ha)) (hpos a (haxes a ha)) hs withReductions hlaunch ha hkind
      (h.upright.floatFree a (haxes a ha))
    rw [Inside, pointOf_eq ((hkept a ha).trans hget) hi]
    exact hin

end Addresses

/-! ## Elements that are stored -/

/-- Results with one domain are indexed alike. -/
theorem leafIndices_of_domain (hdomain : (p.fusion.view u).domain = (p.fusion.view v).domain)
    (h : p.leafIndices u frames = .ok leaves) : p.leafIndices v frames = .ok leaves := by
  have hleaf : p.fusion.leaf u = p.fusion.leaf v := congrArg TensorDomain.leaf hdomain
  have hindex : ∀ a s, p.leafIndex u frames a = .ok s → p.leafIndex v frames a = .ok s := by
    intro a s hs
    unfold leafIndex at hs ⊢
    split at hs
    · exact hs
    · split at hs
      case isTrue hbroadcast => rwa [if_pos hbroadcast]
      case isFalse => cases hs
  unfold leafIndices at h ⊢
  rw [hleaf] at h
  generalize p.fusion.leaf v = axes at h
  generalize AxisIndices.empty = m at h ⊢
  induction axes generalizing m with
  | nil => exact h
  | cons a axes ih =>
      rw [List.foldlM_cons] at h ⊢
      obtain ⟨m₁, hstep, h⟩ := Results.bind_eq_ok.1 h
      obtain ⟨s, hs, hstep⟩ := Results.bind_eq_ok.1 hstep
      exact Results.bind_eq_ok.2 ⟨m₁, Results.bind_eq_ok.2 ⟨s, hindex a s hs, hstep⟩, ih m₁ h⟩

theorem backward_of_domain (hdomain : (p.fusion.view u).domain = (p.fusion.view v).domain)
    (leaves : AxisIndices) : p.backward u leaves = p.backward v leaves := by
  unfold backward carried history
  dsimp only
  rw [hdomain]

/-- The address is that of an element of the tensor. -/
def Addresses (p : LoopPlan) (e : AxisId → Int) (env : Scalar.Env) (x : Element) : Prop :=
  ∃ m, p.globalIndex x.tensor m = .ok x.index ∧ ∀ a ∈ p.fusion.shape x.tensor, Reaches env m e a

end LoopPlan

/-! ## Operations that are emitted -/

namespace Kernel.Op

/-- Whether the operation stores what it computes: where threads cooperate, its write condition must
hold. -/
def storesAt (env : Scalar.Env) : Op → Bool
  | .reduce _ _ _ _ (.across _ _ _ writes) | .welford _ _ (.across _ _ _ writes)
  | .broadcast _ _ (.across _ _ _ writes) => decide (writes.evaluate env = some (.bool true))
  | _ => true

theorem evaluate_of_storesAt {env : Scalar.Env} {o : Op} {scope : Scope} {types : ParallelSet}
    {reads writes : Scalar} (h : o.storesAt env = true)
    (hhow : o.collective? = some (.across scope types reads writes)) :
    writes.evaluate env = some (.bool true) := by
  cases o with
  | reduce op out x init how | welford out x how | broadcast out x how =>
      cases hhow
      exact of_decide_eq_true h
  | unary | binary | select | init => cases hhow

end Kernel.Op

namespace Emitter

open Emit

variable {c : Emitter} {frames : List LoopFrame} {e : ExprId} {v : ValueId} {g : Guards}
  {indices : AxisIndices} {s s' : EmitState}

/-- The operation writes results of the expression, at the indices of the enclosing loops. -/
def Writes (c : Emitter) (frames : List LoopFrame) (e : ExprId) (o : Op) : Prop :=
  ∀ x ∈ o.outputs, x.tensor ∈ (c.plan.fusion.expr e).outputs ∧
    c.plan.consumerIndex x.tensor frames = .ok x.index

theorem written_cases {x : Element} (h : Gives (c.written frames v) s x s') :
    x.tensor = v ∧ c.plan.consumerIndex v frames = .ok x.index := by
  obtain ⟨index, s₁, hindex, h⟩ := gives_bind.1 h
  obtain ⟨rfl, -⟩ := gives_pure.1 h
  exact ⟨rfl, (gives_lift.1 hindex).1⟩

/-- An operation with one result writes it. -/
theorem Writes.single {x : Element} (hv : v ∈ (c.plan.fusion.expr e).outputs)
    (h : Gives (c.written frames v) s x s') {o : Op} (ho : o.outputs = [x]) :
    c.Writes frames e o := by
  obtain ⟨rfl, hindex⟩ := written_cases h
  intro y hy
  rw [ho, List.mem_singleton] at hy
  subst hy
  exact ⟨hv, hindex⟩

/-- The statements of an expression are one operation: under its guard where each thread works
alone, and else with the write condition of a reduction or a broadcast. -/
theorem emitOp_cases {xs : List Stmt} (hv : v ∈ (c.plan.fusion.expr e).outputs)
    (harity : ((c.plan.fusion.expr e).kind == .welford) = true →
      (c.plan.fusion.expr e).outputs.length = 3)
    (h : Gives (c.emitOp frames e v indices g) s xs s') :
    ∃ o, c.Writes frames e o ∧ (xs = [.guarded (c.serialGuard g v) o] ∨
      xs = [.op o] ∧ (o.collective? = some (c.reduction g v indices) ∨
        (c.validity.spread e).isEmpty = false)) := by
  unfold emitOp at h
  dsimp only at h
  cases hkind : (c.plan.fusion.expr e).kind with
  | unary op =>
      rw [hkind] at h
      obtain ⟨out, s₁, hout, h⟩ := gives_bind.1 h
      obtain ⟨x, s₂, -, h⟩ := gives_bind.1 h
      obtain ⟨rfl, -⟩ := gives_pure.1 h
      exact ⟨_, .single hv hout rfl, .inl rfl⟩
  | binary op =>
      rw [hkind] at h
      obtain ⟨out, s₁, hout, h⟩ := gives_bind.1 h
      obtain ⟨x, s₂, -, h⟩ := gives_bind.1 h
      obtain ⟨y, s₃, -, h⟩ := gives_bind.1 h
      obtain ⟨rfl, -⟩ := gives_pure.1 h
      exact ⟨_, .single hv hout rfl, .inl rfl⟩
  | select =>
      rw [hkind] at h
      obtain ⟨out, s₁, hout, h⟩ := gives_bind.1 h
      obtain ⟨x, s₂, -, h⟩ := gives_bind.1 h
      obtain ⟨y, s₃, -, h⟩ := gives_bind.1 h
      obtain ⟨z, s₄, -, h⟩ := gives_bind.1 h
      obtain ⟨rfl, -⟩ := gives_pure.1 h
      exact ⟨_, .single hv hout rfl, .inl rfl⟩
  | reduction op init =>
      rw [hkind] at h
      obtain ⟨out, s₁, hout, h⟩ := gives_bind.1 h
      obtain ⟨x, s₂, -, h⟩ := gives_bind.1 h
      obtain ⟨rfl, -⟩ := gives_pure.1 h
      split
      · exact ⟨_, .single hv hout rfl, .inl rfl⟩
      · exact ⟨_, .single hv hout rfl, .inr ⟨rfl, .inl rfl⟩⟩
  | welford =>
      rw [hkind] at h
      obtain ⟨out, s₁, hout, h⟩ := gives_bind.1 h
      obtain ⟨x, s₂, -, h⟩ := gives_bind.1 h
      obtain ⟨rfl, -⟩ := gives_pure.1 h
      have hmem : ∀ i < 3, (c.plan.fusion.expr e).outputs.getD i default ∈
          (c.plan.fusion.expr e).outputs := by
        intro i hi
        have hlength := harity (by rw [hkind]; rfl)
        rw [List.getD_eq_getElem _ _ (hlength ▸ hi)]
        exact List.getElem_mem _
      have hwrites : ∀ how, c.Writes frames e (.welford out x how) := by
        obtain ⟨avg, t₁, havg, hout⟩ := gives_bind.1 hout
        obtain ⟨varSum, t₂, hvarSum, hout⟩ := gives_bind.1 hout
        obtain ⟨count, t₃, hcount, hout⟩ := gives_bind.1 hout
        obtain ⟨rfl, -⟩ := gives_pure.1 hout
        intro how y hy
        simp only [Op.outputs, Moments.toList, List.mem_cons, List.not_mem_nil, or_false] at hy
        rcases hy with rfl | rfl | rfl
        · obtain ⟨htensor, hindex⟩ := written_cases havg
          exact ⟨htensor ▸ hmem 0 (by decide), htensor ▸ hindex⟩
        · obtain ⟨htensor, hindex⟩ := written_cases hvarSum
          exact ⟨htensor ▸ hmem 1 (by decide), htensor ▸ hindex⟩
        · obtain ⟨htensor, hindex⟩ := written_cases hcount
          exact ⟨htensor ▸ hmem 2 (by decide), htensor ▸ hindex⟩
      split
      · exact ⟨_, hwrites _, .inl rfl⟩
      · exact ⟨_, hwrites _, .inr ⟨rfl, .inl rfl⟩⟩
  | broadcast flags =>
      rw [hkind] at h
      obtain ⟨out, s₁, hout, h⟩ := gives_bind.1 h
      obtain ⟨x, s₂, -, h⟩ := gives_bind.1 h
      obtain ⟨rfl, -⟩ := gives_pure.1 h
      split
      · exact ⟨_, .single hv hout rfl, .inl rfl⟩
      case isFalse hspread =>
          exact ⟨_, .single hv hout rfl, .inr ⟨rfl, .inr (by simpa using hspread)⟩⟩

/-- An initialization writes the results of its expression. -/
theorem initOps_cases {ops : List Op} (hv : v ∈ (c.plan.fusion.expr e).outputs)
    (h : Gives (c.initOps frames (c.plan.fusion.expr e) v) s ops s') :
    ∀ o ∈ ops, c.Writes frames e o := by
  unfold initOps at h
  dsimp only at h
  split at h
  · obtain ⟨x, s₁, hx, h⟩ := gives_bind.1 h
    obtain ⟨rfl, -⟩ := gives_pure.1 h
    intro o ho
    rw [List.mem_singleton.1 ho]
    exact .single hv hx rfl
  · intro o ho
    obtain ⟨u, hu, t, t', hgives⟩ := mem_of_gives_mapM h ho
    obtain ⟨x, t₁, hx, hgives⟩ := gives_bind.1 hgives
    obtain ⟨rfl, -⟩ := gives_pure.1 hgives
    exact .single hu hx rfl
  · obtain ⟨rfl, -⟩ := gives_pure.1 h
    simp

/-! ## Guarded stores -/

variable {ext : AxisId → Int} {width : ParallelType → Int} {env : Scalar.Env}
  {scope : List ExprId}

/-- An expression whose stores to global memory are guarded: its results are indexed alike, and it
is no broadcast along launch types. -/
structure Confines (c : Emitter) (ext : AxisId → Int) (width : ParallelType → Int) (e : ExprId)
    (v : ValueId) : Prop where
  arity : ((c.plan.fusion.expr e).kind == .welford) = true →
    (c.plan.fusion.expr e).outputs.length = 3
  stored : (∃ u ∈ (c.plan.fusion.expr e).outputs, c.plan.fusion.memoryOf u = .global) →
    c.plan.Confined v ext width ∧ (c.validity.spread e).isEmpty = true ∧
      ∀ u ∈ (c.plan.fusion.expr e).outputs,
        (c.plan.fusion.view u).domain = (c.plan.fusion.view v).domain

instance (c : Emitter) (ext : AxisId → Int) (width : ParallelType → Int) (e : ExprId)
    (v : ValueId) : Decidable (c.Confines ext width e v) :=
  decidable_of_iff ((((c.plan.fusion.expr e).kind == .welford) = true →
      (c.plan.fusion.expr e).outputs.length = 3) ∧
    ((∃ u ∈ (c.plan.fusion.expr e).outputs, c.plan.fusion.memoryOf u = .global) →
      c.plan.Confined v ext width ∧ (c.validity.spread e).isEmpty = true ∧
        ∀ u ∈ (c.plan.fusion.expr e).outputs,
          (c.plan.fusion.view u).domain = (c.plan.fusion.view v).domain))
    ⟨fun h => ⟨h.1, h.2⟩, fun h => ⟨h.arity, h.stored⟩⟩

/-- What the guards of expressions rely on at run time: loop groups as they are built, confined
tensors, and launch indices and sizes that belong to the launch. -/
structure Secure (c : Emitter) (ext : AxisId → Int) (width : ParallelType → Int)
    (scope : List ExprId) (env : Scalar.Env) : Prop where
  built : ∃ f, LoopGroups.build f = .ok c.plan.groups
  sound : Sound c.plan.fusion
  launch : c.launch = c.plan.launchExtents
  confines : ∀ e ∈ scope, ∀ v ∈ c.plan.fusion.loopTensor? e, c.Confines ext width e v
  launched : c.plan.Launched env width
  sized : ∀ e ∈ scope, ∀ v ∈ c.plan.fusion.loopTensor? e,
    c.plan.fusion.Sized env (c.plan.fusion.axesOf v) ext

end Emitter

namespace LoopPlan

/-- What the operation stores to global memory it stores inside the tensor. -/
def StoresInside (p : LoopPlan) (ext : AxisId → Int) (env : Scalar.Env) (o : Op) : Prop :=
  o.storesAt env = true → ∀ x ∈ o.outputs, p.fusion.memoryOf x.tensor = .global → p.Addresses ext env x

end LoopPlan

namespace Emitter

open Emit

variable {c : Emitter} {frames : List LoopFrame} {e : ExprId} {v : ValueId} {g : Guards}
  {indices : AxisIndices} {s s' : EmitState} {ext : AxisId → Int} {width : ParallelType → Int}
  {env : Scalar.Env} {scope : List ExprId}

/-- Both bounds of a guard that holds hold. -/
theorem evaluate_bounds_of_guard {zero : Scalar} (hzero : zero.IsCondition) (withReductions : Bool)
    (h : (((c.plan.bounds v indices withReductions).and
      (c.plan.launchBounds c.launch v withReductions)).and zero).evaluate env = some (.bool true)) :
    (c.plan.bounds v indices withReductions).evaluate env = some (.bool true) ∧
      (c.plan.launchBounds c.launch v withReductions).evaluate env = some (.bool true) := by
  obtain ⟨hcond, hiff⟩ := Scalar.evaluate_and_iff
    (c.plan.bounds_isTest v indices withReductions).condition
    (launchBounds_isCondition c.plan c.launch v withReductions)
  exact (hiff env).1 (((Scalar.evaluate_and_iff hcond hzero).2 env).1 h).1

section Operations

variable (hsecure : c.Secure ext width scope env) (he : e ∈ scope)
  (hv : c.plan.fusion.loopTensor? e = some v) (hserves : ∀ fr ∈ frames, c.plan.Serves env fr)
  (hindices : c.plan.consumerIndices v frames = .ok indices)

include hsecure he hv hserves hindices

/-- Where the bounds of its tensor hold, an operation stores inside its results. -/
theorem Writes.inside {o : Op} (hwrites : c.Writes frames e o) (withReductions : Bool)
    (hbounds : (c.plan.bounds v indices withReductions).evaluate env = some (.bool true))
    (hlaunchBounds : (c.plan.launchBounds c.launch v withReductions).evaluate env =
      some (.bool true)) {x : Element} (hx : x ∈ o.outputs)
    (hglobal : c.plan.fusion.memoryOf x.tensor = .global) : c.plan.Addresses ext env x := by
  obtain ⟨hmem, hindex⟩ := hwrites x hx
  obtain ⟨hconfined, -, hdomain⟩ := (hsecure.confines e he v hv).stored ⟨x.tensor, hmem, hglobal⟩
  replace hdomain := hdomain x.tensor hmem
  unfold LoopPlan.consumerIndex at hindex
  rw [hglobal] at hindex
  obtain ⟨m, hm, hindex⟩ := Results.bind_eq_ok.1 hindex
  obtain ⟨leaves, hleaves, hm⟩ := Results.bind_eq_ok.1 hm
  cases hm
  obtain ⟨leaves', hleaves', hm⟩ := Results.bind_eq_ok.1 hindices
  cases hm
  rw [LoopPlan.leafIndices_of_domain hdomain hleaves] at hleaves'
  cases hleaves'
  rw [hsecure.launch] at hlaunchBounds
  obtain ⟨f, hbuild⟩ := hsecure.built
  refine ⟨_, hindex, fun a ha => ?_⟩
  rw [LoopPlan.backward_of_domain hdomain]
  refine hconfined.reaches hbuild hsecure.sound hsecure.launched hserves (hsecure.sized e he v hv)
    (LoopPlan.leafIndices_of_domain hdomain hleaves) hbounds hlaunchBounds a ?_
  unfold Fusion.shape at ha ⊢
  rwa [hdomain] at ha

/-- The operation of an expression stores inside its results. -/
theorem emitOp_inside {xs : List Stmt} {valid reduced : ParallelSet}
    (h : Gives (c.emitOp frames e v indices ⟨(c.plan.bounds v indices true).and
      (c.plan.launchBounds c.launch v true), valid, reduced⟩) s xs s') :
    ∀ o ∈ Stmt.performedAll env xs, c.plan.StoresInside ext env o := by
  have hconf := hsecure.confines e he v hv
  obtain ⟨o, hwrites, rfl | ⟨rfl, hhow⟩⟩ :=
    emitOp_cases (List.mem_of_find?_eq_some hv) hconf.arity h
  · intro o' ho' _ x hx hglobal
    rw [Stmt.performedAll_singleton, Stmt.performed_guarded] at ho'
    split at ho'
    case isFalse => cases ho'
    case isTrue hguard =>
        cases List.mem_singleton.1 ho'
        obtain ⟨hbounds, hlaunchBounds⟩ :=
          evaluate_bounds_of_guard (zeroGuard_isCondition _) true hguard
        exact hwrites.inside hsecure he hv hserves hindices true hbounds hlaunchBounds hx hglobal
  · intro o' ho' hstores x hx hglobal
    rw [Stmt.performedAll_singleton, Stmt.performed] at ho'
    cases List.mem_singleton.1 ho'
    rcases hhow with hhow | hspread
    · obtain ⟨hbounds, hlaunchBounds⟩ := evaluate_bounds_of_guard (zeroGuard_isCondition _) false
        (Op.evaluate_of_storesAt hstores hhow)
      exact hwrites.inside hsecure he hv hserves hindices false hbounds hlaunchBounds hx hglobal
    · obtain ⟨-, hnone, -⟩ := hconf.stored ⟨x.tensor, (hwrites x hx).1, hglobal⟩
      rw [hnone] at hspread
      cases hspread

end Operations

/-! ## Fast paths -/

/-- Statements that are emitted for the loop of an unswitched group without bounds checks. -/
def Bare (c : Emitter) (body : List Stmt) : Prop :=
  ∃ frames header group children n u s', c.plan.groups.parallel group = .unswitch ∧
    Gives (c.emitLoop frames header group (LoopTree.exprsAll children)
      fun frames => c.emitTrees frames children) ⟨n, some u⟩ body s'

/-- At the indices of `env`, an operation is performed in the fast path of an unswitched loop. -/
inductive InFastPath (c : Emitter) (env : Scalar.Env) (o : Op) : List Stmt → Prop where
  /-- There is no condition where all bounds are known to hold. -/
  | bare {h : LoopHeader} {body : List Stmt} (hbare : c.Bare body)
      (ho : o ∈ Stmt.performedAll env body) : InFastPath c env o [.loop h body]
  | taken {h : LoopHeader} {cond : Scalar} {body slow : List Stmt} (hbare : c.Bare body)
      (hcond : cond.evaluate env = some (.bool true)) (ho : o ∈ Stmt.performedAll env body) :
      InFastPath c env o [.loop h [.branch cond body slow]]
  | loop {h : LoopHeader} {body : List Stmt} (hbody : InFastPath c env o body) :
      InFastPath c env o [.loop h body]
  | slow {cond : Scalar} {fast body : List Stmt} (hcond : cond.evaluate env ≠ some (.bool true))
      (hbody : InFastPath c env o body) : InFastPath c env o [.branch cond fast body]
  | left {xs : List Stmt} (ys : List Stmt) (hxs : InFastPath c env o xs) :
      InFastPath c env o (xs ++ ys)
  | right (xs : List Stmt) {ys : List Stmt} (hys : InFastPath c env o ys) :
      InFastPath c env o (xs ++ ys)

/-- Loops around statements change nothing about fast paths. -/
theorem InFastPath.loops {o : Op} {xs : List Stmt} (h : c.InFastPath env o xs)
    (hs : List LoopHeader) : c.InFastPath env o (hs.foldr (fun h body => [.loop h body]) xs) := by
  induction hs with
  | nil => exact h
  | cons _ _ ih => exact .loop ih

/-- Without unswitched groups there are no fast paths. -/
theorem not_inFastPath (h : ∀ group, c.plan.groups.parallel group ≠ .unswitch) {o : Op}
    {xs : List Stmt} : ¬ c.InFastPath env o xs := by
  intro hfast
  induction hfast with
  | bare hbare _ | taken hbare _ _ =>
      obtain ⟨_, _, group, _, _, _, _, hgroup, -⟩ := hbare
      exact h group hgroup
  | loop _ ih | slow _ _ ih | left _ _ ih | right _ _ ih => exact ih

/-! ## Emission -/

/-- Outside the fast paths of unswitched loops, what the emitted statements store to global memory
they store inside its tensors. -/
def Shelters (c : Emitter) (ext : AxisId → Int) (env : Scalar.Env) (frames : List LoopFrame)
    (x : Emit (List Stmt)) : Prop :=
  ∀ n xs s', Gives x ⟨n, none⟩ xs s' → s'.unswitch = none ∧
    ((∀ fr ∈ frames, c.plan.Serves env fr) → (∀ h ∈ Stmt.headers xs, h.Placed env) →
      ∀ o ∈ Stmt.performedAll env xs, c.plan.StoresInside ext env o ∨ c.InFastPath env o xs)

namespace Shelters

variable {x y : Emit (List Stmt)}

/-- No statements store nothing. -/
protected theorem nil : c.Shelters ext env frames (pure []) := by
  intro n xs s' h
  obtain ⟨rfl, rfl⟩ := gives_pure.1 h
  exact ⟨rfl, fun _ _ o ho => by cases ho⟩

/-- What is blind to unswitching may come first. -/
protected theorem bind {α : Type} {z : Emit α} {k : α → Emit (List Stmt)} (hz : Blind z)
    (hk : ∀ {n a s}, Gives z ⟨n, none⟩ a s → c.Shelters ext env frames (k a)) :
    c.Shelters ext env frames (z >>= k) := by
  intro n xs s' h
  obtain ⟨a, ⟨n₁, u₁⟩, ha, h⟩ := gives_bind.1 h
  obtain ⟨rfl, -⟩ := hz n _ a _ ha
  exact hk ha n₁ xs s' h

/-- Statements one after another. -/
protected theorem append (hx : c.Shelters ext env frames x) (hy : c.Shelters ext env frames y) :
    c.Shelters ext env frames (x >>= fun xs => y >>= fun ys => pure (xs ++ ys)) := by
  intro n zs s' h
  obtain ⟨xs, ⟨n₁, u₁⟩, hxs, h⟩ := gives_bind.1 h
  obtain ⟨ys, s₂, hys, h⟩ := gives_bind.1 h
  obtain ⟨rfl, rfl⟩ := gives_pure.1 h
  obtain ⟨rfl, hinside⟩ := hx n xs _ hxs
  obtain ⟨hu, hinside'⟩ := hy n₁ ys _ hys
  refine ⟨hu, fun hserves hplaced => ?_⟩
  rw [Stmt.headers_append, List.forall_mem_append] at hplaced
  rw [Stmt.performedAll_append, List.forall_mem_append]
  exact ⟨fun o ho => (hinside hserves hplaced.1 o ho).imp_right (.left ys),
    fun o ho => (hinside' hserves hplaced.2 o ho).imp_right (.right xs)⟩

/-- Statements are emitted for each of a list in order. -/
protected theorem flatten {α : Type} {g : α → Emit (List Stmt)} {l : List α}
    (hg : ∀ a ∈ l, c.Shelters ext env frames (g a)) :
    c.Shelters ext env frames (l.mapM g >>= fun xs => pure xs.flatten) := by
  induction l with
  | nil => exact .nil
  | cons a l ih =>
      have hcons : (a :: l).mapM g >>= (fun xs => pure xs.flatten) =
          g a >>= fun xs => (l.mapM g >>= fun ys => pure ys.flatten) >>= fun ys => pure (xs ++ ys) := by
        simp only [List.mapM_cons, bind_assoc, pure_bind, List.flatten_cons]
      rw [hcons]
      exact (hg a List.mem_cons_self).append (ih fun b hb => hg b (List.mem_cons_of_mem a hb))

/-- What stands around the statements must perform the same, have their loops run, and lead to their
fast paths. -/
protected theorem wrap {inner : List LoopFrame} {g : List Stmt → List Stmt}
    (hx : c.Shelters ext env inner x)
    (henter : ∀ xs, (∀ fr ∈ frames, c.plan.Serves env fr) →
      (∀ h ∈ Stmt.headers (g xs), h.Placed env) →
      (∀ fr ∈ inner, c.plan.Serves env fr) ∧ ∀ h ∈ Stmt.headers xs, h.Placed env)
    (hsame : ∀ xs, Stmt.performedAll env (g xs) = Stmt.performedAll env xs)
    (hfast : ∀ xs o, c.InFastPath env o xs → c.InFastPath env o (g xs)) :
    c.Shelters ext env frames (x >>= fun xs => pure (g xs)) := by
  intro n zs s' h
  obtain ⟨xs, s₁, hxs, h⟩ := gives_bind.1 h
  obtain ⟨rfl, rfl⟩ := gives_pure.1 h
  obtain ⟨hu, hinside⟩ := hx n xs _ hxs
  refine ⟨hu, fun hserves hplaced o ho => ?_⟩
  obtain ⟨hinner, hheaders⟩ := henter xs hserves hplaced
  rw [hsame] at ho
  exact (hinside hinner hheaders o ho).imp_right (hfast xs o)

end Shelters

theorem boundsGuard_outside {bounds guard : Scalar} {n : Nat}
    (h : Gives (boundsGuard frames bounds) ⟨n, none⟩ guard s') : guard = bounds ∧ s' = ⟨n, none⟩ := by
  cases h
  exact ⟨rfl, rfl⟩

/-- The head of the loop of a group. -/
theorem header_cases {group : AxisId} {parallel : ParallelType} {h : LoopHeader}
    (hgives : Gives (c.header group parallel) s h s') :
    h.extent = c.plan.concreteExtent group ∧ h.parallel = parallel := by
  obtain ⟨l, s₁, -, hgives⟩ := gives_bind.1 hgives
  obtain ⟨rfl, -⟩ := gives_pure.1 hgives
  exact ⟨rfl, rfl⟩

/-- The frame of a loop that runs serves the leaves of its group.  The loop of an unswitched group
runs like any other. -/
theorem frameOf_serves {group : AxisId} {h : LoopHeader} (hplaced : h.Placed env)
    (hextent : h.extent = c.plan.concreteExtent group)
    (hparallel : h.parallel =
      if c.plan.groups.parallel group == .unswitch then .serial else c.plan.groups.parallel group)
    (hiter : c.plan.groups.isBroadcast c.plan.fusion group = false) :
    c.plan.Serves env (frameOf h group) := by
  have hlaunch : h.parallel.isLaunch = (c.plan.groups.parallel group).isLaunch := by
    rw [hparallel]
    cases c.plan.groups.parallel group <;> rfl
  unfold frameOf LoopHeader.indexValue LoopHeader.isLaunch
  split
  case isTrue hbound =>
      have hsame : h.parallel = c.plan.groups.parallel group := by
        rw [hparallel]
        rw [hlaunch] at hbound
        revert hbound
        cases c.plan.groups.parallel group <;> decide
      rw [hsame]
      exact .launch (hlaunch ▸ hbound) hiter
  case isFalse hserial =>
      rcases hplaced with hbound | ⟨i, hi, n, hn, h₀, hlt, -⟩
      · exact absurd hbound hserial
      · rw [hlaunch] at hserial
        exact .loop (by simpa using hserial) hi (hextent ▸ hn) h₀ hlt

/-- The loop that an initialization enters serves the leaves of its group. -/
theorem enterInitLeaf_serves {f : Fusion} (hbuild : LoopGroups.build f = .ok c.plan.groups)
    {fs fs' : List LoopFrame} {hs hs' : List LoopHeader} {leaf : AxisId}
    (h : Gives (c.enterInitLeaf (fs, hs) leaf) s (fs', hs') s')
    (hplaced : ∀ header ∈ hs', header.Placed env) (hserves : ∀ fr ∈ fs, c.plan.Serves env fr) :
    ∀ fr ∈ fs', c.plan.Serves env fr := by
  have hparallel := LoopGroups.parallel_name hbuild leaf
  have hconcrete := LoopGroups.concrete_name hbuild leaf
  rcases enterInitLeaf_cases h with ⟨rfl, -⟩ | ⟨⟨group, index, extent, l⟩, rfl, rfl, rfl, hloop⟩
  · exact hserves
  · refine List.forall_mem_cons.2 ⟨?_, hserves⟩
    dsimp only at hloop
    rcases hloop with ⟨-, rfl, rfl | ⟨rfl, hlaunch, hiter⟩⟩ |
      ⟨header, rfl, hserial, hbound, hextent, rfl, rfl⟩
    · exact .zero
    · rw [← hparallel] at hlaunch ⊢
      refine .launch hlaunch ?_
      unfold LoopGroups.isBroadcast at hiter ⊢
      rwa [hconcrete]
    · rcases hplaced _ (List.mem_append_right _ List.mem_cons_self) with
        hlaunch | ⟨i, hi, n, hn, h₀, hlt, -⟩
      · rw [hserial] at hlaunch
        cases hlaunch
      · refine .loop (hparallel ▸ hbound) hi ?_ h₀ hlt
        rw [hextent] at hn
        unfold LoopPlan.concreteExtent at hn ⊢
        rwa [hconcrete]

section Emission

variable (hsecure : c.Secure ext width scope env)

include hsecure

theorem emitExpr_shelters (he : e ∈ scope) : c.Shelters ext env frames (c.emitExpr frames e) := by
  unfold emitExpr
  split
  case h_1 => exact .nil
  case h_2 v hv =>
      refine .bind (c.checkEnclosure_blind frames v e) fun _ =>
        .bind (.lift _) fun {n indices s} hindices => ?_
      have hok := (gives_lift.1 hindices).1
      intro n xs s' h
      dsimp only at h
      obtain ⟨bounds, s₁, hbounds, h⟩ := gives_bind.1 h
      obtain ⟨rfl, rfl⟩ := boundsGuard_outside hbounds
      generalize (if (c.plan.fusion.expr e).kind.isReduction then
        c.plan.groups.reducedTypes c.plan.fusion v else ∅) = reduced at h
      have hop : Gives (c.emitOp frames e v indices ⟨(c.plan.bounds v indices true).and
          (c.plan.launchBounds c.launch v true), c.validity.expr e, reduced⟩) ⟨n, none⟩ xs s' := by
        split at h
        · obtain ⟨w, s₂, hnote, h⟩ := gives_bind.1 h
          cases gives_modify.1 hnote
          exact h
        · exact h
      refine ⟨(c.emitOp_blind frames e v indices _ n none xs s' hop).1, fun hserves _ o ho => ?_⟩
      exact .inl (emitOp_inside hsecure he hv hserves hok hop o ho)

theorem emitInit_shelters (he : e ∈ scope) : c.Shelters ext env frames (c.emitInit frames e) := by
  unfold emitInit
  dsimp only
  split
  case h_1 => exact .nil
  case h_2 v hv =>
      split
      case h_1 => exact .nil
      case h_2 first hfirst =>
          refine .bind (.foldlM c.enterInitLeaf_blind _ _) fun {n entered s} hentered => ?_
          obtain ⟨fs, hs⟩ := entered
          obtain ⟨f, hbuild⟩ := hsecure.built
          have hserves := (enterInitLeaves_keep (P := fun fs => ∀ fr ∈ fs, c.plan.Serves env fr)
            (Q := LoopHeader.Placed env) (enterInitLeaf_serves hbuild) hentered).2
          refine .bind (.lift _) fun {n indices s} hindices => ?_
          have hops : c.Shelters ext env fs (boundsGuard fs (c.plan.bounds v indices false) >>=
              fun b => c.initOps fs (c.plan.fusion.expr e) v >>= fun ops => pure (ops.map
                (Stmt.guarded ((b.and (c.plan.launchBounds c.launch v false)).and
                  (zeroGuard (c.plan.redundantTypes c.launch v true)))))) := by
            intro n xs s' h
            obtain ⟨bounds, s₁, hbounds, h⟩ := gives_bind.1 h
            obtain ⟨rfl, rfl⟩ := boundsGuard_outside hbounds
            obtain ⟨ops, s₂, hops, h⟩ := gives_bind.1 h
            obtain ⟨rfl, rfl⟩ := gives_pure.1 h
            refine ⟨(c.initOps_blind fs _ v n none ops _ hops).1,
              fun hserves _ o ho => .inl fun _ x hx hglobal => ?_⟩
            rw [Stmt.performedAll_map_guarded] at ho
            split at ho
            case isFalse => cases ho
            case isTrue hguard =>
                obtain ⟨hbounds, hlaunchBounds⟩ :=
                  evaluate_bounds_of_guard (zeroGuard_isCondition _) false hguard
                exact (initOps_cases (List.mem_of_find?_eq_some hv) hops o ho).inside hsecure he hv
                  hserves (gives_lift.1 hindices).1 false hbounds hlaunchBounds hx hglobal
          have hwrap : c.Shelters ext env frames _ :=
            hops.wrap (g := hs.foldr fun h body => [.loop h body]) (fun xs hframes hplaced => ?_)
              (fun xs => Stmt.performedAll_loops env hs xs) fun xs o h => h.loops hs
          · simpa only [bind_assoc, pure_bind] using hwrap
          · rw [Stmt.headers_loops, List.forall_mem_append] at hplaced
            exact ⟨hserves hplaced.1 hframes, hplaced.2⟩

theorem emitInits_shelters (group : AxisId) {exprs : List ExprId} (hscope : exprs ⊆ scope) :
    c.Shelters ext env frames (c.emitInits frames group exprs) := by
  refine .flatten fun e he => emitInit_shelters hsecure (hscope ?_)
  obtain ⟨⟨g, e'⟩, hmem, rfl⟩ := List.mem_map.1 he
  have hhere := (List.mem_filter.1 hmem).2
  simp only [Bool.and_eq_true, List.contains_iff_mem] at hhere
  exact hhere.2

end Emission

section Loops

variable (group : AxisId) (exprs : List ExprId) {body : List LoopFrame → Emit (List Stmt)}
  (hbody : ∀ frames, c.Shelters ext env frames (body frames))

include hbody

/-- The body of a loop, with allocations in front. -/
theorem Shelters.allocations : c.Shelters ext env frames
    (body frames >>= fun inner => pure (c.allocationsAt group exprs ++ inner)) := by
  refine (hbody frames).wrap (fun xs hframes hplaced => ⟨hframes, ?_⟩) (fun xs => ?_)
    fun xs o h => .right _ h
  · rw [Stmt.headers_append, List.forall_mem_append] at hplaced
    exact hplaced.2
  · rw [Stmt.performedAll_append, performedAll_allocationsAt, List.nil_append]

/-- The body of a loop that runs, from inside the loop. -/
theorem Shelters.inner {h : LoopHeader} {xs : List Stmt} {n : Nat} {s' : EmitState}
    (hextent : h.extent = c.plan.concreteExtent group)
    (hparallel : h.parallel =
      if c.plan.groups.parallel group == .unswitch then .serial else c.plan.groups.parallel group)
    (hiter : c.plan.groups.isBroadcast c.plan.fusion group = false)
    (hgives : Gives (c.emitLoop frames h group exprs body) ⟨n, none⟩ xs s') :
    s'.unswitch = none ∧ ((∀ fr ∈ frames, c.plan.Serves env fr) → h.Placed env →
      (∀ h ∈ Stmt.headers xs, h.Placed env) →
        ∀ o ∈ Stmt.performedAll env xs, c.plan.StoresInside ext env o ∨ c.InFastPath env o xs) := by
  have hinner : c.Shelters ext env (frameOf h group :: frames)
      (c.emitLoop frames h group exprs body) := Shelters.allocations group exprs hbody
  obtain ⟨hu, hinside⟩ := hinner n xs s' hgives
  exact ⟨hu, fun hframes hheader => hinside
    (List.forall_mem_cons.2 ⟨frameOf_serves hheader hextent hparallel hiter, hframes⟩)⟩

/-- A loop around a body. -/
theorem Shelters.loop {h : LoopHeader} (hextent : h.extent = c.plan.concreteExtent group)
    (hparallel : h.parallel =
      if c.plan.groups.parallel group == .unswitch then .serial else c.plan.groups.parallel group)
    (hiter : c.plan.groups.isBroadcast c.plan.fusion group = false) :
    c.Shelters ext env frames
      (c.emitLoop frames h group exprs body >>= fun inner => pure [.loop h inner]) := by
  intro n zs s' hgives
  obtain ⟨xs, s₁, hxs, hgives⟩ := gives_bind.1 hgives
  obtain ⟨rfl, rfl⟩ := gives_pure.1 hgives
  obtain ⟨hu, hinside⟩ := Shelters.inner group exprs hbody hextent hparallel hiter hxs
  refine ⟨hu, fun hframes hplaced o ho => ?_⟩
  rw [Stmt.headers_loop, List.forall_mem_cons] at hplaced
  rw [Stmt.performedAll_singleton, Stmt.performed] at ho
  exact (hinside hframes hplaced.1 hplaced.2 o ho).imp_right .loop

/-- An unswitched loop stores inside where its slow path is taken, or where it has no other. -/
theorem Shelters.unswitched
    (hbare : ∀ {fs h n u xs s'},
      Gives (c.emitLoop fs h group exprs body) ⟨n, some u⟩ xs s' → c.Bare xs)
    (hswitch : c.plan.groups.parallel group = .unswitch)
    (hiter : c.plan.groups.isBroadcast c.plan.fusion group = false) :
    c.Shelters ext env frames
      (c.emitUnswitched frames group exprs body >>= fun stmt => pure [stmt]) := by
  intro n zs s' hgives
  obtain ⟨stmt, s₁, hstmt, hgives⟩ := gives_bind.1 hgives
  obtain ⟨rfl, rfl⟩ := gives_pure.1 hgives
  obtain ⟨header, fast, n₁, n₂, collected, hheader, hfast, hcases⟩ := emitUnswitched_cases hstmt
  obtain ⟨hextent, hserial⟩ := header_cases hheader
  have hparallel : header.parallel = if c.plan.groups.parallel group == .unswitch then .serial
      else c.plan.groups.parallel group := by
    rw [hserial, hswitch]
    rfl
  have hinner {xs s'} (hgives : Gives (c.emitLoop frames header group exprs body) ⟨n₂, none⟩ xs s') :=
    Shelters.inner group exprs hbody hextent hparallel hiter hgives
  rcases hcases with ⟨full, rfl, hfull⟩ | ⟨rfl, rfl, -⟩ | ⟨u, slow, -, -, rfl, hslow⟩
  · obtain ⟨hu, hinside⟩ := hinner hfull
    refine ⟨hu, fun hframes hplaced o ho => ?_⟩
    rw [Stmt.headers_loop, List.forall_mem_cons] at hplaced
    rw [Stmt.performedAll_singleton, Stmt.performed] at ho
    exact (hinside hframes hplaced.1 hplaced.2 o ho).imp_right .loop
  · refine ⟨rfl, fun _ _ o ho => .inr ?_⟩
    rw [Stmt.performedAll_singleton, Stmt.performed] at ho
    exact .bare (hbare hfast) ho
  · have hunswitch : s₁.unswitch = none := by
      rcases hslow with ⟨-, rfl, -⟩ | hslow
      · rfl
      · exact (hinner hslow).1
    refine ⟨hunswitch, fun hframes hplaced o ho => ?_⟩
    rw [Stmt.performedAll_singleton, Stmt.performed, Stmt.performedAll_singleton,
      Stmt.performed] at ho
    split at ho
    case isTrue hcond => exact .inr (.taken (hbare hfast) hcond ho)
    case isFalse hcond =>
        rcases hslow with ⟨rfl, -⟩ | hslow
        · cases ho
        · rw [Stmt.headers_loop, Stmt.headers_branch, List.forall_mem_cons,
            List.forall_mem_append] at hplaced
          exact ((hinner hslow).2 hframes hplaced.1 hplaced.2.2 o ho).imp_right
            fun h => .loop (.slow hcond h)

/-- A broadcast has no loop of its own. -/
theorem Shelters.unlooped : c.Shelters ext env frames
    (body (⟨group, .zero, .one, none⟩ :: frames) >>= fun inner =>
      pure (c.allocationsAt group exprs ++ inner)) := by
  have hinner : c.Shelters ext env (⟨group, .zero, .one, none⟩ :: frames) _ :=
    Shelters.allocations group exprs hbody
  have hwrap : c.Shelters ext env frames _ := hinner.wrap (g := id)
    (fun xs hframes hplaced => ⟨List.forall_mem_cons.2 ⟨.zero, hframes⟩, hplaced⟩) (fun xs => rfl)
    fun xs o h => h
  simpa using hwrap

end Loops

mutual

/-- The statements of a loop tree store inside, except in fast paths. -/
theorem emitTree_shelters (hsecure : c.Secure ext width scope env) :
    ∀ (t : LoopTree) (frames : List LoopFrame), t.exprs ⊆ scope →
      c.Shelters ext env frames (c.emitTree frames t)
  | .expr e, frames, hscope => by
      rw [emitTree]
      exact emitExpr_shelters hsecure (hscope List.mem_cons_self)
  | .loop group children, frames, hscope => by
      rw [LoopTree.exprs] at hscope
      have hbody := fun frames => emitTrees_shelters hsecure children frames hscope
      have hinits : c.Shelters ext env frames _ :=
        emitInits_shelters hsecure group hscope
      rw [emitTree]
      dsimp only
      split
      case isTrue =>
          have hinner : c.Shelters ext env frames _ :=
            .unlooped group (LoopTree.exprsAll children) hbody
          simpa only [bind_assoc, pure_bind, List.append_assoc] using hinits.append hinner
      case isFalse hiter =>
          have hiter : c.plan.groups.isBroadcast c.plan.fusion group = false := by simpa using hiter
          by_cases hswitch : c.plan.groups.parallel group = .unswitch
          · have hloop : c.Shelters ext env frames _ :=
              .unswitched group (LoopTree.exprsAll children) hbody
                (fun hgives => ⟨_, _, group, children, _, _, _, hswitch, hgives⟩) hswitch hiter
            simp only [hswitch, beq_self_eq_true, if_true]
            intro n xs s' h
            obtain ⟨inits, ⟨n₁, u₁⟩, hgives, h⟩ := gives_bind.1 h
            obtain ⟨rfl, -⟩ := hinits n inits _ hgives
            obtain ⟨_, _, hget, h⟩ := gives_bind.1 h
            obtain ⟨rfl, rfl⟩ := gives_get.1 hget
            refine hinits.append hloop n xs s' (gives_bind.2 ⟨inits, _, hgives, ?_⟩)
            simpa only [bind_assoc, pure_bind, Option.isNone_none, if_true] using h
          · have hne : (c.plan.groups.parallel group == .unswitch) = false := by simpa using hswitch
            simp only [hne, Bool.false_eq_true, if_false]
            have hloop : c.Shelters ext env frames _ :=
              .bind (c.header_blind group (c.plan.groups.parallel group)) fun {n h s} hheader =>
                .loop group (LoopTree.exprsAll children) hbody (header_cases hheader).1
                  (by rw [(header_cases hheader).2, hne]; rfl) hiter
            simpa only [bind_assoc, pure_bind] using hinits.append hloop

/-- The statements of loop trees store inside, except in fast paths. -/
theorem emitTrees_shelters (hsecure : c.Secure ext width scope env) :
    ∀ (ts : List LoopTree) (frames : List LoopFrame), LoopTree.exprsAll ts ⊆ scope →
      c.Shelters ext env frames (c.emitTrees frames ts)
  | [], frames, _ => by
      rw [emitTrees]
      exact .nil
  | t :: ts, frames, hscope => by
      rw [LoopTree.exprsAll, List.append_subset] at hscope
      rw [emitTrees]
      exact (emitTree_shelters hsecure t frames hscope.1).append
        (emitTrees_shelters hsecure ts frames hscope.2)

end

end Emitter
end FusionCompiler
