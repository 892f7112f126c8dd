import FusionCompiler.Host.Error
import FusionCompiler.Host.Settings
import FusionCompiler.Kernel.Basic
import FusionCompiler.Moments
import FusionCompiler.Operator

/-!
# Executing a kernel on the host

All threads of the grid run in lockstep: a statement is executed for every
active thread before the next one starts.  Loops bound to the launch are implied
by the coordinates of a thread, other loops share one index, and a conditional
splits the active threads.  Registers are private to a thread and shared memory
to a block.

Lockstep satisfies every barrier, so barriers do nothing.  Cooperating threads
fold the contributions of a segment in thread order, and the first thread of the
segment takes the result.
-/

namespace FusionCompiler

/-! ## Arithmetic

A kernel is executed over some type of values.  The host works on doubles that
are rounded to the type of the tensor they are stored in. -/

/-- The operations by which a kernel computes with values. -/
structure Arithmetic (α : Type) where
  zero : α
  ofConstant : Constant → α
  /-- Rounds a value to an element type. -/
  round : DataType → α → α
  /-- Whether a value counts as true. -/
  isTrue : α → Bool
  unary : UnaryOp → α → α
  /-- A binary operator; the flag selects integer division. -/
  binary : BinaryOp → α → α → Bool → α
  /-- The statistics of one sample. -/
  sample : α → Moments α
  /-- Joins the statistics of two lists of samples. -/
  combine : Moments α → Moments α → Moments α

/-- The arithmetic of the host. -/
def Arithmetic.double : Arithmetic Float where
  zero := 0.0
  ofConstant := Constant.toFloat
  round := DataType.round
  isTrue := (· != 0.0)
  unary := UnaryOp.eval
  binary := BinaryOp.eval
  sample := Moments.sample
  combine := Moments.combine

namespace Kernel

/-! ## Arguments and launches -/

/-- A tensor argument in one of the buffers of a launch; several arguments may share a buffer. -/
structure TensorArgument where
  tensor : ValueId
  buffer : Nat
  dtype : DataType
  sizes : List Nat
  strides : List Int
deriving DecidableEq, Repr, Inhabited

/-- An argument of a launch. -/
inductive LaunchArgument where
  | tensor (t : TensorArgument)
  | scalar (v : ValueId) (dtype : DataType) (value : Constant)
  /-- Zeros for the partial results of blocks. -/
  | workBuffer (dtype : DataType) (elements : Nat)
  /-- Zeros for the arrival counters of blocks. -/
  | syncFlags (elements : Nat)
deriving Repr, Inhabited

/-- What stays the same during a launch. -/
structure Launch where
  dims : LaunchDims
  /-- Tensor arguments, the latest first. -/
  tensors : List TensorArgument
  /-- Scalar arguments, the latest first. -/
  scalars : List (ValueId × Constant)
  /-- Allocations of the kernel, the latest first. -/
  allocations : List Allocation
deriving Inhabited

namespace Launch

/-- The tensor of a tensor argument. -/
def tensorOf? : LaunchArgument → Option TensorArgument
  | .tensor t => some t
  | _ => none

/-- The value of a scalar argument. -/
def scalarOf? : LaunchArgument → Option (ValueId × Constant)
  | .scalar v _ c => some (v, c)
  | _ => none

/-- A launch of a kernel body. -/
def make (body : List Stmt) (dims : LaunchDims) (args : List LaunchArgument) : Launch :=
  ⟨dims, (args.filterMap tensorOf?).reverse, (args.filterMap scalarOf?).reverse,
    (Stmt.allocations body).reverse⟩

/-- The argument of a tensor. -/
def tensor? (l : Launch) (v : ValueId) : Option TensorArgument :=
  l.tensors.find? (·.tensor == v)

/-- Where a tensor lives: as the kernel allocates it, else in global memory if it is an argument. -/
def memory? (l : Launch) (v : ValueId) : Option MemoryType :=
  match l.allocations.find? (·.tensor == v) with
  | some a => some a.memory
  | none => (l.tensor? v).map fun _ => .global

/-- The shared buffer whose storage a tensor reuses. -/
def host? (l : Launch) (v : ValueId) : Option ValueId :=
  (l.allocations.find? fun a => a.tensor == v && a.host.isSome).bind (·.host)

/-- Follows reused storage to its owner, at most `fuel` steps. -/
def ownerWith (l : Launch) : Nat → ValueId → ValueId
  | 0, v => v
  | fuel + 1, v =>
    match l.host? v with
    | some h => ownerWith l fuel h
    | none => v

/-- The tensor that owns the storage of a shared tensor. -/
def owner (l : Launch) (v : ValueId) : ValueId :=
  l.ownerWith l.allocations.length v

/-! ### Coordinates -/

/-- The size of a launch slot. -/
def size (l : Launch) (slot : Nat) : Nat :=
  l.dims.sizes.getD slot 1

/-- The block of a thread. -/
def block (l : Launch) (thread : Nat) : Nat :=
  thread / l.dims.threadsPerBlock

/-- The index of a thread in a launch slot; threads are numbered block by block, x first. -/
def coordinate (l : Launch) (thread slot : Nat) : Nat :=
  let block := l.block thread
  let lane := thread % l.dims.threadsPerBlock
  match slot with
  | 0 => block % l.size 0
  | 1 => block / l.size 0 % l.size 1
  | 2 => block / (l.size 0 * l.size 1)
  | 3 => lane % l.size 3
  | 4 => lane / l.size 3 % l.size 4
  | _ => lane / (l.size 3 * l.size 4)

/-- What scalars mean in a thread. -/
def env (l : Launch) (loops : List (LoopId × Int)) (thread : Nat) : Scalar.Env where
  input := fun v => l.scalars.lookup v
  size := fun v d => (l.tensor? v).bind fun t => (t.sizes[d]?).map Int.ofNat
  stride := fun v d => (l.tensor? v).bind (·.strides[d]?)
  launchIndex := fun p => p.launchSlot?.map fun s => Int.ofNat (l.coordinate thread s)
  launchExtent := fun p => p.launchSlot?.map fun s => Int.ofNat (l.size s)
  loop := fun i => loops.lookup i

/-- The launch slots of a set of types. -/
def slots (types : ParallelSet) : List Nat :=
  types.members.filterMap (·.launchSlot?)

/-- A number that two threads share exactly when they agree in every slot outside the given ones. -/
def segmentKey (l : Launch) (slots : List Nat) (thread : Nat) : Nat :=
  (List.range 6).foldl (fun key slot =>
    key * l.size slot + if slots.contains slot then 0 else l.coordinate thread slot) 0

/-- Threads grouped by their coordinates outside some launch types; a group keeps thread order. -/
def segments (l : Launch) (types : ParallelSet) (active : List Nat) : List (List Nat) :=
  let slots := slots types
  let keyed := (active.map fun t => (l.segmentKey slots t, t)).mergeSort fun a b => a.1 ≤ b.1
  (keyed.splitBy fun a b => a.1 == b.1).map fun group => group.map (·.2)

/-- Whether a thread is at index zero along every one of some launch types. -/
def isFirst (l : Launch) (types : ParallelSet) (thread : Nat) : Bool :=
  (slots types).all fun slot => l.coordinate thread slot == 0

end Launch

/-! ## Memory -/

variable {α : Type}

/-- Tensors with their storage, each tensor once. -/
abbrev Store (α : Type) := List (ValueId × Array α)

namespace Store

/-- Changes the storage of a tensor. -/
def modify (s : Store α) (v : ValueId) (g : Array α → Array α) : Store α :=
  match s with
  | [] => []
  | (w, a) :: rest => if w = v then (w, g a) :: rest else (w, a) :: Store.modify rest v g

/-- Gives a tensor new storage. -/
def insert (s : Store α) (v : ValueId) (a : Array α) : Store α :=
  match s with
  | [] => [(v, a)]
  | (w, b) :: rest => if w = v then (w, a) :: rest else (w, b) :: Store.insert rest v a

end Store

/-- Where an element is stored. -/
inductive Place where
  | buffer (index : Nat)
  | register (thread : Nat) (tensor : ValueId)
  | shared (block : Nat) (tensor : ValueId)
deriving DecidableEq, Repr

/-- The state of an execution. -/
structure Machine (α : Type) where
  buffers : Array (Array α)
  /-- Register tensors of every thread. -/
  registers : Array (Store α)
  /-- Shared tensors of every block. -/
  shared : Array (Store α)
  /-- The indices of the loops that are running. -/
  loops : List (LoopId × Int) := []
deriving Inhabited

namespace Machine

/-- The storage at a place. -/
def storage? (m : Machine α) : Place → Option (Array α)
  | .buffer i => m.buffers[i]?
  | .register t v => (m.registers.getD t []).lookup v
  | .shared b v => (m.shared.getD b []).lookup v

/-- Changes the storage at a place. -/
def modifyStorage (m : Machine α) (g : Array α → Array α) : Place → Machine α
  | .buffer i => { m with buffers := m.buffers.modify i g }
  | .register t v => { m with registers := m.registers.modify t (·.modify v g) }
  | .shared b v => { m with shared := m.shared.modify b (·.modify v g) }

/-- Gives a register tensor of a thread fresh storage. -/
def allocateRegister (m : Machine α) (v : ValueId) (storage : Array α) (thread : Nat) : Machine α :=
  { m with registers := m.registers.modify thread (·.insert v storage) }

/-- Makes the storage of a shared tensor of a block at least as long as given. -/
def growShared (m : Machine α) (v : ValueId) (zero : α) (size block : Nat) : Machine α :=
  { m with
    shared := m.shared.modify block fun s =>
      match s.lookup v with
      | some old =>
        if old.size < size then s.insert v (old ++ Array.replicate (size - old.size) zero) else s
      | none => s.insert v (Array.replicate size zero) }

/-- Sets the index of a running loop. -/
def setLoop (m : Machine α) (l : LoopId) (i : Int) : Machine α :=
  { m with loops := (l, i) :: m.loops.filter (·.1 != l) }

/-- Forgets the index of a loop. -/
def endLoop (m : Machine α) (l : LoopId) : Machine α :=
  { m with loops := m.loops.filter (·.1 != l) }

end Machine

/-- Where an element of a tensor is stored for a thread. -/
def Launch.place? (l : Launch) (thread : Nat) (v : ValueId) : Option Place :=
  match l.memory? v with
  | some .global => (l.tensor? v).map fun t => .buffer t.buffer
  | some .local => some (.register thread v)
  | some .shared => some (.shared (l.block thread) (l.owner v))
  | none => none

/-! ## Steps -/

/-- A step of an execution; what it did before failing stays done. -/
abbrev Run (α : Type) := ExceptT RunError (StateM (Machine α))

namespace Run

/-- The value of a scalar in a thread. -/
def eval (l : Launch) (s : Scalar) (thread : Nat) : Run α Constant := do
  match s.evaluate (l.env (← get).loops thread) with
  | some c => return c
  | none => throw (.unevaluable (.expression s))

/-- Whether a condition holds in a thread. -/
def holds (l : Launch) (cond : Scalar) (thread : Nat) : Run α Bool :=
  return (← eval l cond thread).toBool

/-- The element at an index of a tensor. -/
def readAt (l : Launch) (v : ValueId) (thread : Nat) (index : Int) : Run α α := do
  match (l.place? thread v).bind (← get).storage? with
  | none => throw (.execution (.notAllocated v))
  | some a =>
    match (if index < 0 then none else a[index.toNat]?) with
    | some x => return x
    | none => throw (.outOfBounds v index a.size)

/-- Reads an element. -/
def load (l : Launch) (e : Element) (thread : Nat) : Run α α := do
  readAt l e.tensor thread (← eval l e.index thread).toInt

/-- Writes an element, rounded to its type. -/
def store (A : Arithmetic α) (l : Launch) (e : Element) (thread : Nat) (x : α) : Run α Unit := do
  let index := (← eval l e.index thread).toInt
  discard (readAt l e.tensor thread index)
  match l.place? thread e.tensor with
  | some p => modify fun m => m.modifyStorage (·.setIfInBounds index.toNat (A.round e.dtype x)) p
  | none => pure ()

/-- The value of an operand. -/
def operand (A : Arithmetic α) (l : Launch) (x : Kernel.Operand) (thread : Nat) : Run α α :=
  match x with
  | .element e => load l e thread
  | .scalar s t => return A.round t (A.ofConstant (← eval l s thread))

/-- The statistics that an operation takes in. -/
def welfordInput (A : Arithmetic α) (l : Launch) (x : WelfordInput) (thread : Nat) :
    Run α (Moments α) :=
  match x with
  | .sample x => return A.sample (← operand A l x thread)
  | .moments m => m.mapM fun x => operand A l x thread

/-- Reads statistics. -/
def loadMoments (l : Launch) (out : Moments Element) (thread : Nat) : Run α (Moments α) :=
  out.mapM fun e => load l e thread

/-- Writes statistics. -/
def storeMoments (A : Arithmetic α) (l : Launch) (out : Moments Element) (thread : Nat)
    (m : Moments α) : Run α Unit := do
  store A l out.avg thread m.avg
  store A l out.varSum thread m.varSum
  store A l out.count thread m.count

/-! ### Cooperation -/

/-- Reduces over the threads of each segment: the contributions are folded from the initial
value, and the first thread joins the result with what it holds. -/
def reduce (A : Arithmetic α) (l : Launch) (op : BinaryOp) (out : Element) (x : Kernel.Operand)
    (init : Constant) (types : ParallelSet) (reads writes : Scalar) (active : List Nat) :
    Run α Unit :=
  let integral := !out.dtype.isFloat
  (l.segments types active).forM fun segment => do
    let total ← segment.foldlM (fun total t => do
      if ← holds l reads t then
        return A.round out.dtype (A.binary op total (← operand A l x t) integral)
      else return total) (A.ofConstant init)
    (segment.filter (l.isFirst types)).forM fun t => do
      if ← holds l writes t then
        let current ← load l out t
        store A l out t (A.binary op current total integral)

/-- Joins the statistics of the threads of each segment in its first thread. -/
def welford (A : Arithmetic α) (l : Launch) (out : Moments Element) (x : WelfordInput)
    (types : ParallelSet) (reads writes : Scalar) (active : List Nat) : Run α Unit :=
  (l.segments types active).forM fun segment => do
    let total ← segment.foldlM (fun total t => do
      if ← holds l reads t then return A.combine total (← welfordInput A l x t)
      else return total) (⟨A.zero, A.zero, A.zero⟩ : Moments α)
    (segment.filter (l.isFirst types)).forM fun t => do
      if ← holds l writes t then
        storeMoments A l out t (A.combine (← loadMoments l out t) total)

/-- The operand of the first thread that reads, or zero. -/
def firstValue (A : Arithmetic α) (l : Launch) (x : Kernel.Operand) (reads : Scalar) :
    List Nat → Run α α
  | [] => pure A.zero
  | t :: rest => do
    if ← holds l reads t then operand A l x t else firstValue A l x reads rest

/-- Hands the value of the first thread of each segment to all of its threads. -/
def broadcast (A : Arithmetic α) (l : Launch) (out : Element) (x : Kernel.Operand)
    (types : ParallelSet) (reads writes : Scalar) (active : List Nat) : Run α Unit :=
  (l.segments types active).forM fun segment => do
    let value ← firstValue A l x reads (segment.filter (l.isFirst types))
    segment.forM fun t => do
      if ← holds l writes t then store A l out t value

/-! ### Operations -/

/-- Executes an operation for the active threads, one after the other. -/
def execOp (A : Arithmetic α) (l : Launch) (o : Op) (active : List Nat) : Run α Unit :=
  match o with
  | .unary op out x => active.forM fun t => do
    let x ← operand A l x t
    store A l out t (A.unary op x)
  | .binary op out a b =>
    let integral := !a.dtype.isFloat && !b.dtype.isFloat
    active.forM fun t => do
      let a ← operand A l a t
      let b ← operand A l b t
      store A l out t (A.binary op a b integral)
  | .select out cond a b => active.forM fun t => do
    let chosen := if A.isTrue (← operand A l cond t) then a else b
    store A l out t (← operand A l chosen t)
  | .init out value => active.forM fun t => store A l out t (A.ofConstant value)
  | .reduce op out x _ .serial => active.forM fun t => do
    let current ← load l out t
    let x ← operand A l x t
    store A l out t (A.binary op current x (!out.dtype.isFloat))
  | .reduce op out x init (.across _ types reads writes) =>
    reduce A l op out x init types reads writes active
  | .welford out x .serial => active.forM fun t => do
    let current ← loadMoments l out t
    storeMoments A l out t (A.combine current (← welfordInput A l x t))
  | .welford out x (.across _ types reads writes) => welford A l out x types reads writes active
  | .broadcast out x .serial => active.forM fun t => do
    store A l out t (← operand A l x t)
  | .broadcast out x (.across _ types reads writes) => broadcast A l out x types reads writes active

/-- Executes an allocation; its size is that of the first active thread. -/
def allocate (A : Arithmetic α) (l : Launch) (a : Allocation) (active : List Nat) : Run α Unit :=
  match active with
  | [] => pure ()
  | first :: _ => do
    let size := (← eval l a.size first).toInt.toNat
    match a.memory with
    | .local =>
      let storage := Array.replicate size A.zero
      active.forM fun t => modify fun m => m.allocateRegister a.tensor storage t
    | .shared =>
      let owner := l.owner a.tensor
      (active.map l.block).eraseReps.forM fun b => modify fun m => m.growShared owner A.zero size b
    | .global => throw (.execution (.allocatedGlobal a.tensor))

/-- The active threads, each with whether a condition holds. -/
def divide (l : Launch) (cond : Scalar) (active : List Nat) : Run α (List (Nat × Bool)) :=
  active.mapM fun t => return (t, ← holds l cond t)

/-- The number of iterations of a loop, as the first active thread sees it. -/
def iterations (l : Launch) (extent : Scalar) (active : List Nat) : Run α Nat :=
  match active with
  | [] => pure 0
  | first :: _ => return (← eval l extent first).toInt.toNat

mutual

/-- Executes a statement for the active threads. -/
def exec (A : Arithmetic α) (l : Launch) : Stmt → List Nat → Run α Unit
  | .loop h body, active => do
    if active.isEmpty then return ()
    if h.isLaunch then execAll A l body active
    else
      let n ← iterations l h.extent active
      (List.range n).forM fun i => do
        modify fun m => m.setLoop h.index (i : Nat)
        execAll A l body active
      modify fun m => m.endLoop h.index
  | .branch cond yes no, active => do
    let divided ← divide l cond active
    execAll A l yes ((divided.filter (·.2)).map (·.1))
    execAll A l no ((divided.filter (!·.2)).map (·.1))
  | .allocate a, active => allocate A l a active
  | .barrier _, _ => pure ()
  | .op o, active => execOp A l o active

/-- Executes statements in order. -/
def execAll (A : Arithmetic α) (l : Launch) : List Stmt → List Nat → Run α Unit
  | [], _ => pure ()
  | s :: rest, active => do
    exec A l s active
    execAll A l rest active

end

end Run

/-- The largest number of threads that is executed. -/
def threadLimit : Nat := 4194304

/-- Executes a kernel over buffers; gives the outcome and the buffers, also of a failing run. -/
def execute (A : Arithmetic α) (k : Kernel) (dims : LaunchDims) (args : List LaunchArgument)
    (buffers : Array (Array α)) : Except RunError Unit × Array (Array α) :=
  if threadLimit < dims.threads then (.error (.launchTooLarge dims.threads threadLimit), buffers)
  else
    let l := Launch.make k.body dims args
    let start : Machine α :=
      { buffers
        registers := Array.replicate dims.threads []
        shared := Array.replicate dims.blocks [] }
    let (outcome, m) := (Run.execAll A l k.body (List.range dims.threads)).run start
    (outcome, m.buffers)

end Kernel
end FusionCompiler
