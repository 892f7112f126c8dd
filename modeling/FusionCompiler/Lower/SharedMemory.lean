import FusionCompiler.Kernel.Basic

/-!
# Layout of shared memory

Shared tensors are laid out one after the other in dynamic shared memory.  A
tensor whose lifetime starts after that of another one of the same type has
ended takes over its storage when it fits.  Operands and results of broadcasts
keep their own storage.
-/

namespace FusionCompiler
namespace Kernel

/-! ## Lifetimes -/

/-- The first and the last operation that may touch a tensor, counted in program order. -/
structure Lifetime where
  first : Nat
  last : Nat
deriving DecidableEq, Repr, Inhabited

/-- The lifetimes of tensors, each tensor once. -/
abbrev Lifetimes := List (ValueId × Lifetime)

namespace Lifetimes

/-- Extends the lifetime of a tensor to cover another one. -/
def touch (live : Lifetimes) (v : ValueId) (t : Lifetime) : Lifetimes :=
  match live with
  | [] => [(v, t)]
  | (w, old) :: rest =>
    if w = v then (w, ⟨Min.min old.first t.first, Max.max old.last t.last⟩) :: rest
    else (w, old) :: touch rest v t

end Lifetimes

/-- A walk through statements: the number of operations met, and what they touch. -/
structure LifetimeWalk where
  position : Nat := 0
  live : Lifetimes := []

/-- Takes in one operation. -/
def LifetimeWalk.op (w : LifetimeWalk) (o : Op) : LifetimeWalk :=
  let here : Lifetime := ⟨w.position, w.position⟩
  ⟨w.position + 1, (o.inputs ++ o.outputs).foldl (fun live e => live.touch e.tensor here) w.live⟩

/-- Takes in the body of a loop: what is touched inside lives during the whole loop, since a later
iteration may touch it again. -/
def LifetimeWalk.loop (outer inner : LifetimeWalk) : LifetimeWalk :=
  let whole : Lifetime := ⟨outer.position, Max.max (inner.position - 1) outer.position⟩
  ⟨inner.position, inner.live.foldl (fun live (v, _) => live.touch v whole) outer.live⟩

mutual

/-- Walks through a statement. -/
def Stmt.lifetimes : Stmt → LifetimeWalk → LifetimeWalk
  | .op o, w => w.op o
  | .loop _ body, w => w.loop (Stmt.lifetimesAll body { position := w.position })
  | .branch _ yes no, w => Stmt.lifetimesAll no (Stmt.lifetimesAll yes w)
  | .allocate _, w => w
  | .barrier _, w => w

/-- Walks through statements in order. -/
def Stmt.lifetimesAll : List Stmt → LifetimeWalk → LifetimeWalk
  | [], w => w
  | s :: rest, w => Stmt.lifetimesAll rest (Stmt.lifetimes s w)

end

/-! ## Placement -/

/-- Rounds a number of bytes up to a multiple of sixteen. -/
def align16 (bytes : Scalar) : Scalar :=
  (bytes.ceilDiv (.int 16)).mul (.int 16)

/-- Whether a size provably fits into a capacity. -/
def fits (size capacity : Scalar) : Bool :=
  match size.int?, capacity.int? with
  | some s, some c => s ≤ c
  | _, _ => size == capacity

/-- The tensors that broadcasts read or write. -/
def broadcastTensors (body : List Stmt) : List ValueId :=
  (Stmt.ops body).flatMap fun
    | .broadcast out x _ => out.tensor :: (x.element?.toList.map (·.tensor))
    | _ => []

/-- Storage in shared memory and the last operation that may touch it. -/
structure SharedHost where
  tensor : ValueId
  dtype : DataType
  size : Scalar
  offset : Scalar
  last : Nat
deriving Inhabited

/-- A tensor that wants a place in shared memory. -/
structure SharedRequest where
  tensor : ValueId
  dtype : DataType
  size : Scalar
  life : Lifetime
  /-- Keeps its own storage. -/
  pinned : Bool
deriving Inhabited

/-- What is placed so far. -/
structure SharedPlan where
  hosts : List SharedHost := []
  buffers : List SharedBuffer := []
  /-- Bytes in use. -/
  total : Scalar := .zero
deriving Inhabited

/-- Whether a request can take over storage. -/
def SharedRequest.canReuse (r : SharedRequest) (pinned : List ValueId) (h : SharedHost) : Bool :=
  !r.pinned && !pinned.contains h.tensor && h.dtype == r.dtype && h.last < r.life.first
    && fits r.size h.size

/-- Takes over the first storage that can be reused. -/
def takeOver (r : SharedRequest) (pinned : List ValueId) :
    List SharedHost → Option (SharedHost × List SharedHost)
  | [] => none
  | h :: rest =>
    if r.canReuse pinned h then some (h, { h with last := Max.max h.last r.life.last } :: rest)
    else (takeOver r pinned rest).map fun (found, rest) => (found, h :: rest)

/-- Places one tensor: in storage that is free again, else behind everything else. -/
def SharedPlan.place (pinned : List ValueId) (p : SharedPlan) (r : SharedRequest) : SharedPlan :=
  match takeOver r pinned p.hosts with
  | some (h, hosts) =>
    { p with hosts, buffers := p.buffers ++ [⟨r.tensor, r.dtype, r.size, h.offset, some h.tensor⟩] }
  | none =>
    let offset := align16 p.total
    { hosts := p.hosts ++ [⟨r.tensor, r.dtype, r.size, offset, r.life.last⟩]
      buffers := p.buffers ++ [⟨r.tensor, r.dtype, r.size, offset, none⟩]
      total := offset.add (r.size.mul (.int r.dtype.bytes)) }

/-- The shared allocations of a body with their lifetimes; a tensor that no operation touches
lives behind all operations. -/
def sharedRequests (dtypeOf : ValueId → DataType) (pinned : List ValueId) (body : List Stmt) :
    List SharedRequest :=
  let w := Stmt.lifetimesAll body {}
  let shared := (body.filterMap Stmt.allocation?).filter (·.memory == .shared)
  shared.map fun a => {
    tensor := a.tensor, dtype := dtypeOf a.tensor, size := a.size
    life := (w.live.lookup a.tensor).getD ⟨w.position, w.position⟩
    pinned := pinned.contains a.tensor }

/-- The order of placement: by the start of the lifetime, then by handle. -/
def SharedRequest.comesBefore (a b : SharedRequest) : Bool :=
  a.life.first < b.life.first || (a.life.first == b.life.first && a.tensor.index ≤ b.tensor.index)

/-- The layout of shared memory. -/
structure SharedLayout where
  buffers : List SharedBuffer
  /-- Bytes of all buffers. -/
  bytes : Scalar
deriving Inhabited

/-- Lays out the shared tensors that a body allocates. -/
def planSharedMemory (dtypeOf : ValueId → DataType) (body : List Stmt) : SharedLayout :=
  let pinned := broadcastTensors body
  let requests := (sharedRequests dtypeOf pinned body).mergeSort SharedRequest.comesBefore
  let plan := requests.foldl (SharedPlan.place pinned) {}
  ⟨plan.buffers, align16 plan.total⟩

namespace SharedLayout

/-- The buffer whose storage a tensor reuses. -/
def host? (l : SharedLayout) (v : ValueId) : Option ValueId :=
  (l.buffers.reverse.find? fun b => b.tensor == v && b.host.isSome).bind (·.host)

/-- The buffer that holds a shared tensor. -/
def storage (l : SharedLayout) (v : ValueId) : Option ValueId :=
  (l.buffers.reverse.find? (·.tensor == v)).map fun b => b.host.getD b.tensor

/-- Marks the allocations that reuse other storage. -/
def markReuse (l : SharedLayout) (body : List Stmt) : List Stmt :=
  body.map fun
    | .allocate a => .allocate (match l.host? a.tensor with
      | some h => { a with host := some h }
      | none => a)
    | s => s

end SharedLayout
end Kernel
end FusionCompiler
