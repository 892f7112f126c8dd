import FusionCompiler.Lower.Guard
import FusionCompiler.Lower.LoopTree

/-!
# Emitting statements

The loop tree becomes a body of statements.  Each loop opens with the register
tensors inlined at it, the result of a reduction is initialized just before its
first reduction loop, and each expression becomes one guarded operation.

An unswitched loop is emitted twice: once without bounds checks under a single
hoisted condition, and once fully guarded.
-/

namespace FusionCompiler

open Kernel

/-! ## State -/

/-- What is collected while the body of an unswitched loop is emitted without bounds checks. -/
structure Unswitch where
  /-- Number of loops around the body. -/
  depth : Nat
  /-- The hoisted bounds checks, each once. -/
  conditions : List Scalar := []
  /-- Whether threads cooperate inside. -/
  hasCollective : Bool := false
deriving Repr, Inhabited

/-- The state of an emission. -/
structure EmitState where
  nextLoop : Nat := 0
  unswitch : Option Unswitch := none
deriving Repr, Inhabited

/-- An emission may fail and then leaves nothing behind. -/
abbrev Emit := StateT EmitState (Except LowerError)

/-- What an emission looks things up in. -/
structure Emitter where
  plan : LoopPlan
  launch : LaunchExtents
  validity : ThreadValidity
  /-- Reductions with the loop group before which their result is initialized. -/
  inits : List (AxisId × ExprId)
  /-- Register tensors with the loop group at whose head they are allocated. -/
  registers : List (AxisId × ValueId)
  /-- Tensors allocated before all loops. -/
  topLevel : List ValueId

namespace Fusion

/-- The position of the first reduction leaf of a tensor. -/
def firstReductionLeaf? (f : Fusion) (v : ValueId) : Option Nat :=
  (f.leaf v).findIdx? fun a => (f.axis a).isReduction

end Fusion

namespace Emitter

/-- The loop group before which the result of a reduction is initialized. -/
def initGroup? (p : LoopPlan) (e : ExprId) : Option AxisId := do
  let v ← if (p.fusion.expr e).kind.isReduction then p.fusion.loopTensor? e else none
  let i ← p.fusion.firstReductionLeaf? v
  let leaf ← (p.fusion.leaf v)[i]?
  return p.groups.name leaf

/-- The tensors that an expression computes into storage of the kernel's own. -/
def allocatedBy (p : LoopPlan) (e : ExprId) : List ValueId :=
  (p.fusion.tensorOutputs e).filter fun v =>
    !p.fusion.isOutput v && p.fusion.memoryOf v != .global

/-- The loop group at whose head a tensor is allocated; a shared tensor, and a register tensor
that is not inlined, has none. -/
def allocationGroup? (p : LoopPlan) (v : ValueId) : Option AxisId :=
  match p.fusion.memoryOf v, (p.fusion.view v).computeAt with
  | .local, n + 1 => ((p.fusion.leaf v)[n]?).map p.groups.name
  | _, _ => none

/-- Decides where results are initialized and tensors allocated. -/
def make (p : LoopPlan) (launch : LaunchExtents) (validity : ThreadValidity) : Emitter :=
  let exprs := p.fusion.tensorExprs
  let allocated := exprs.flatMap (allocatedBy p)
  { plan := p, launch, validity
    inits := exprs.filterMap fun e => (initGroup? p e).map (·, e)
    registers := allocated.filterMap fun v => (allocationGroup? p v).map (·, v)
    topLevel := allocated.filter fun v => (allocationGroup? p v).isNone }

/-! ## Pieces -/

/-- A loop index that is not in use. -/
def freshLoop : Emit LoopId :=
  modifyGet fun s => (⟨s.nextLoop⟩, { s with nextLoop := s.nextLoop + 1 })

/-- The allocation of a tensor. -/
def allocation (c : Emitter) (v : ValueId) : Stmt :=
  .allocate {
    tensor := v, memory := c.plan.fusion.memoryOf v, dtype := c.plan.fusion.dtype v
    size := c.plan.allocationSize v }

/-- The allocations at the head of a loop, for tensors that the given expressions compute. -/
def allocationsAt (c : Emitter) (group : AxisId) (exprs : List ExprId) : List Stmt :=
  let here := c.registers.filter fun (g, v) =>
    g == group && (c.plan.fusion.definition v).any exprs.contains
  here.map fun (_, v) => c.allocation v

/-- The last index of each of the given loops. -/
def lastIndex (frames : List LoopFrame) (l : LoopId) : Option Scalar :=
  (frames.find? (·.loop == some l)).map fun frame => frame.extent.sub .one

/-- The bounds check that stays with an operation.  Inside an unswitched loop the check moves to the
condition of that loop, taken at the last iteration of every loop in between. -/
def boundsGuard (frames : List LoopFrame) (bounds : Scalar) : Emit Scalar := do
  match (← get).unswitch with
  | none => return bounds
  | some u =>
    let hoisted := bounds.substitute (lastIndex (frames.take (frames.length - u.depth)))
    if !hoisted.isTrue && !u.conditions.contains hoisted then
      modify ({ · with unswitch := some { u with conditions := u.conditions ++ [hoisted] } })
    return .truth

/-- Notes that threads cooperate inside the unswitched loop, if there is one. -/
def noteCollective : Emit Unit :=
  modify fun s => { s with unswitch := s.unswitch.map ({ · with hasCollective := true }) }

/-- The loops that a producer is inlined into must enclose its consumer. -/
def checkEnclosure (c : Emitter) (frames : List LoopFrame) (consumer : ValueId) (e : ExprId) :
    Emit Unit :=
  (c.plan.fusion.tensorInputs e).forM fun producer =>
    let view := c.plan.fusion.view producer
    let groups := (view.leaf.take view.computeAt).map c.plan.groups.name
    if groups.all fun g => frames.any (·.group == g) then pure ()
    else throw (.loopNestMismatch producer consumer)

/-- The element of a tensor that is written. -/
def written (c : Emitter) (frames : List LoopFrame) (v : ValueId) : Emit Element := do
  return ⟨v, c.plan.fusion.dtype v, ← c.plan.consumerIndex v frames⟩

/-- An operand of the expression of `consumer`. -/
def operand (c : Emitter) (frames : List LoopFrame) (consumer v : ValueId) :
    Emit Kernel.Operand := do
  let f := c.plan.fusion
  if f.isTensor v then return .element ⟨v, f.dtype v, ← c.plan.producerIndex v consumer frames⟩
  else return .scalar (f.kernelScalar v) (f.dtype v)

/-- Cooperation along launch types: across blocks if one of the types is a block type. -/
def cooperation (types : ParallelSet) (reads writes : Scalar) : Collective :=
  .across (if types.any (·.isBlock) then .grid else .block) types reads writes

/-! ## Operations -/

/-- The guards of one expression. -/
structure Guards where
  /-- Bounds on everything that is read. -/
  read : Scalar
  /-- Types along which the operands are only valid at index zero. -/
  valid : ParallelSet
  /-- Launch types that are reduced over. -/
  reduced : ParallelSet

/-- The guard of an operation that each thread does alone. -/
def serialGuard (c : Emitter) (g : Guards) (v : ValueId) : Scalar :=
  g.read.and (zeroGuard (g.valid.union (c.plan.redundantTypes c.launch v false)))

/-- How a reduction over launch types is carried out. -/
def reduction (c : Emitter) (g : Guards) (v : ValueId) (indices : AxisIndices) : Collective :=
  let redundant := c.plan.redundantTypes c.launch v true
  let writes := ((c.plan.bounds v indices false).and (c.plan.launchBounds c.launch v false)).and
    (zeroGuard (g.valid.union redundant))
  cooperation g.reduced (g.read.and (zeroGuard g.valid)) writes

/-- How a broadcast along launch types is carried out. -/
def spreading (c : Emitter) (g : Guards) (v : ValueId) (spread : ParallelSet) : Collective :=
  cooperation spread (g.read.and (zeroGuard (g.valid.diff spread)))
    (zeroGuard (c.plan.redundantTypes c.launch v false))

/-- An operation that can cooperate: guarded when serial, else with the guards inside. -/
def cooperative (c : Emitter) (g : Guards) (v : ValueId) (how : Option Collective)
    (op : Collective → Op) : List Stmt :=
  match how with
  | some how => [.op (op how)]
  | none => [.guarded (c.serialGuard g v) (op .serial)]

/-- What a statistics expression takes in. -/
def welfordInput (c : Emitter) (frames : List LoopFrame) (v : ValueId) (x : Expr) :
    Emit WelfordInput := do
  if x.isWelfordCombine then
    let parts : Moments ValueId := ⟨x.input 0, x.input 1, x.input 2⟩
    return .moments (← parts.mapM (c.operand frames v))
  else return .sample (← c.operand frames v (x.input 0))

/-- The statements of the operation of an expression under its guards. -/
def emitOp (c : Emitter) (frames : List LoopFrame) (e : ExprId) (v : ValueId)
    (indices : AxisIndices) (g : Guards) : Emit (List Stmt) := do
  let x := c.plan.fusion.expr e
  let operand := fun i => c.operand frames v (x.input i)
  let plain := fun op => [Stmt.guarded (c.serialGuard g v) op]
  let reduction := if g.reduced.isEmpty then none else some (c.reduction g v indices)
  match x.kind with
  | .unary op =>
    let out ← c.written frames v
    return plain (.unary op out (← operand 0))
  | .binary op =>
    let out ← c.written frames v
    let a ← operand 0
    return plain (.binary op out a (← operand 1))
  | .select =>
    let out ← c.written frames v
    let cond ← operand 0
    let a ← operand 1
    return plain (.select out cond a (← operand 2))
  | .reduction op init =>
    let out ← c.written frames v
    let input ← operand 0
    let init := init.cast (c.plan.fusion.dtype v)
    return c.cooperative g v reduction fun how => .reduce op out input init how
  | .welford =>
    let results : Moments ValueId :=
      ⟨x.outputs.getD 0 default, x.outputs.getD 1 default, x.outputs.getD 2 default⟩
    let out ← results.mapM (c.written frames)
    let input ← c.welfordInput frames v x
    return c.cooperative g v reduction fun how => .welford out input how
  | .broadcast _ =>
    let out ← c.written frames v
    let input ← operand 0
    let spread := c.validity.spread e
    let how := if spread.isEmpty then none else some (c.spreading g v spread)
    return c.cooperative g v how fun how => .broadcast out input how

/-- The statements of an expression. -/
def emitExpr (c : Emitter) (frames : List LoopFrame) (e : ExprId) : Emit (List Stmt) := do
  match c.plan.fusion.loopTensor? e with
  | none => return []
  | some v =>
    c.checkEnclosure frames v e
    let indices ← c.plan.consumerIndices v frames
    let bounds ← boundsGuard frames (c.plan.bounds v indices true)
    let isReduction := (c.plan.fusion.expr e).kind.isReduction
    let reduced := if isReduction then c.plan.groups.reducedTypes c.plan.fusion v else ∅
    if !reduced.isEmpty || !(c.validity.spread e).isEmpty then noteCollective
    c.emitOp frames e v indices
      ⟨bounds.and (c.plan.launchBounds c.launch v true), c.validity.expr e, reduced⟩

/-! ## Initialization -/

/-- Enters the loop of one leaf of a result that is about to be initialized, unless the loop
encloses it already.  The result does not span reductions and broadcasts, so these are at zero.
-/
def enterInitLeaf (c : Emitter) (entered : List LoopFrame × List LoopHeader) (leaf : AxisId) :
    Emit (List LoopFrame × List LoopHeader) := do
  let (frames, headers) := entered
  let group := c.plan.groups.name leaf
  if frames.any (·.group == group) then return entered
  let axis := c.plan.fusion.axis leaf
  let parallel := c.plan.groups.parallel leaf
  let extent := c.plan.concreteExtent leaf
  if axis.isReduction || axis.isBroadcast || c.plan.groups.isBroadcast c.plan.fusion leaf then
    return (⟨group, .zero, extent, none⟩ :: frames, headers)
  else if parallel.isLaunch then
    return (⟨group, .launchIndex parallel, extent, none⟩ :: frames, headers)
  else
    let l ← freshLoop
    let header : LoopHeader :=
      ⟨l, extent, if parallel == .unswitch then .serial else parallel, c.plan.groups.concrete leaf⟩
    return (⟨group, .loop l, extent, some l⟩ :: frames, headers ++ [header])

/-- The operations that initialize the results of a reduction. -/
def initOps (c : Emitter) (frames : List LoopFrame) (x : Expr) (v : ValueId) : Emit (List Op) :=
  let f := c.plan.fusion
  match x.kind with
  | .reduction _ init => do return [.init (← c.written frames v) (init.cast (f.dtype v))]
  | .welford => x.outputs.mapM fun out => do
    return .init (← c.written frames out) (.zero (f.dtype out))
  | _ => return []

/-- Initializes the result of a reduction; leaves that no loop encloses yet get loops of their
own. -/
def emitInit (c : Emitter) (frames : List LoopFrame) (e : ExprId) : Emit (List Stmt) := do
  let f := c.plan.fusion
  match f.loopTensor? e with
  | none => return []
  | some v =>
    match f.firstReductionLeaf? v with
    | none => return []
    | some first =>
      let (frames, headers) ← ((f.leaf v).drop first).foldlM c.enterInitLeaf (frames, [])
      let indices ← c.plan.consumerIndices v frames
      let bounds ← boundsGuard frames (c.plan.bounds v indices false)
      let guard := (bounds.and (c.plan.launchBounds c.launch v false)).and
        (zeroGuard (c.plan.redundantTypes c.launch v true))
      let ops ← c.initOps frames (f.expr e) v
      return headers.foldr (fun h body => [.loop h body]) (ops.map (Stmt.guarded guard))

/-- Initializes the results of the reductions among the given expressions that start at a loop. -/
def emitInits (c : Emitter) (frames : List LoopFrame) (group : AxisId) (exprs : List ExprId) :
    Emit (List Stmt) := do
  let here := (c.inits.filter fun (g, e) => g == group && exprs.contains e).map (·.2)
  return (← here.mapM (c.emitInit frames)).flatten

/-! ## Loops -/

/-- The head of the loop of a group. -/
def header (c : Emitter) (group : AxisId) (parallel : ParallelType) : Emit LoopHeader := do
  return ⟨← freshLoop, c.plan.concreteExtent group, parallel, c.plan.groups.concrete group⟩

/-- A loop with a body that is emitted inside it. -/
def emitLoop (c : Emitter) (frames : List LoopFrame) (h : LoopHeader) (group : AxisId)
    (exprs : List ExprId) (body : List LoopFrame → Emit (List Stmt)) : Emit (List Stmt) := do
  let loop := if h.isLaunch then none else some h.index
  let inner ← body (⟨group, h.indexValue, h.extent, loop⟩ :: frames)
  return c.allocationsAt group exprs ++ inner

/-- An unswitched loop.  Around cooperating threads, and where no bound is checked, it is a
plain loop.  No second body is needed when every loop inside runs once. -/
def emitUnswitched (c : Emitter) (frames : List LoopFrame) (group : AxisId) (exprs : List ExprId)
    (body : List LoopFrame → Emit (List Stmt)) : Emit Stmt := do
  let h ← c.header group .serial
  modify ({ · with unswitch := some { depth := frames.length + 1 } })
  let fast ← c.emitLoop frames h group exprs body
  let collected := (← get).unswitch
  modify ({ · with unswitch := none })
  match collected with
  | none => return .loop h fast
  | some u =>
    if u.hasCollective then return .loop h (← c.emitLoop frames h group exprs body)
    let cond := Scalar.all u.conditions
    if cond.isTrue then return .loop h fast
    let runsOnce := h.extent.isInt 1 && (Stmt.headers fast).all (!·.repeats)
    let slow ← if runsOnce then pure [] else c.emitLoop frames h group exprs body
    return .loop h [.branch cond fast slow]

mutual

/-- The statements of a loop tree. -/
def emitTree (c : Emitter) (frames : List LoopFrame) : LoopTree → Emit (List Stmt)
  | .expr e => c.emitExpr frames e
  | .loop group children => do
    let exprs := LoopTree.exprsAll children
    let body := fun frames => emitTrees c frames children
    let inits ← c.emitInits frames group exprs
    if c.plan.groups.isBroadcast c.plan.fusion group then
      let inner ← body (⟨group, .zero, .one, none⟩ :: frames)
      return inits ++ c.allocationsAt group exprs ++ inner
    let parallel := c.plan.groups.parallel group
    if parallel == .unswitch then
      if (← get).unswitch.isNone then
        return inits ++ [← c.emitUnswitched frames group exprs body]
    let h ← c.header group (if parallel == .unswitch then .serial else parallel)
    return inits ++ [.loop h (← c.emitLoop frames h group exprs body)]

/-- The statements of loop trees in order. -/
def emitTrees (c : Emitter) (frames : List LoopFrame) : List LoopTree → Emit (List Stmt)
  | [] => return []
  | t :: rest => do
    let first ← emitTree c frames t
    return first ++ (← emitTrees c frames rest)

end

/-- The body of a kernel. -/
def emitBody (c : Emitter) (trees : List LoopTree) : Except LowerError (List Stmt) := do
  let body ← (c.emitTrees [] trees).run' {}
  return c.topLevel.map c.allocation ++ body

end Emitter
end FusionCompiler
