import FusionCompiler.Kernel.Scalar
import FusionCompiler.Moments

/-!
# Kernel statements

The body of a kernel is a tree of loops and conditionals over element
operations, allocations and barriers.  Tensors keep the handle they have in the
fusion.
-/

namespace FusionCompiler
namespace Kernel

/-! ## Operations -/

/-- An element of a tensor, addressed in its own storage. -/
structure Element where
  tensor : ValueId
  dtype : DataType
  index : Scalar
deriving Repr, Inhabited

/-- What an operation reads: an element or a scalar. -/
inductive Operand where
  | element (e : Element)
  | scalar (value : Scalar) (dtype : DataType)
deriving Repr, Inhabited

namespace Operand

/-- The type of an operand. -/
def dtype : Operand → DataType
  | .element e => e.dtype
  | .scalar _ t => t

/-- The element of an operand that is one. -/
def element? : Operand → Option Element
  | .element e => some e
  | .scalar _ _ => none

end Operand

/-- Which threads cooperate. -/
inductive Scope where
  /-- The threads of a block. -/
  | block
  /-- The blocks of the grid. -/
  | grid
deriving DecidableEq, Repr, Inhabited

/-- How a reduction or broadcast is carried out across threads. -/
inductive Collective where
  /-- Each thread works on its own elements. -/
  | serial
  /-- Threads cooperate along launch types; a thread contributes where `reads` holds and stores
  where `writes` holds. -/
  | across (scope : Scope) (types : ParallelSet) (reads writes : Scalar)
deriving Repr, Inhabited

namespace Collective

/-- Whether each thread works alone. -/
def isSerial : Collective → Bool
  | .serial => true
  | .across _ _ _ _ => false

/-- The launch types along which threads cooperate. -/
def types : Collective → ParallelSet
  | .serial => ∅
  | .across _ types _ _ => types

end Collective

/-- What a statistics operation takes in. -/
inductive WelfordInput where
  /-- One new sample. -/
  | sample (x : Operand)
  /-- The statistics of an earlier stage. -/
  | moments (m : Moments Operand)
deriving Repr, Inhabited

/-- An operation on elements. -/
inductive Op where
  | unary (op : UnaryOp) (out : Element) (x : Operand)
  | binary (op : BinaryOp) (out : Element) (a b : Operand)
  | select (out : Element) (cond a b : Operand)
  /-- The first value of a reduction result, written before its reduction loops. -/
  | init (out : Element) (value : Constant)
  | reduce (op : BinaryOp) (out : Element) (x : Operand) (init : Constant) (how : Collective)
  | welford (out : Moments Element) (x : WelfordInput) (how : Collective)
  | broadcast (out : Element) (x : Operand) (how : Collective)
deriving Repr, Inhabited

namespace Op

/-- The elements an operation writes. -/
def outputs : Op → List Element
  | .unary _ out _ | .binary _ out _ _ | .select out _ _ _ | .init out _
  | .reduce _ out _ _ _ | .broadcast out _ _ => [out]
  | .welford out _ _ => out.toList

/-- The operands of an operation, elements and scalars alike. -/
def operands : Op → List Operand
  | .unary _ _ x | .reduce _ _ x _ _ | .broadcast _ x _ => [x]
  | .binary _ _ a b => [a, b]
  | .select _ cond a b => [cond, a, b]
  | .init _ _ => []
  | .welford _ (.sample x) _ => [x]
  | .welford _ (.moments m) _ => m.toList

/-- How an operation that can cooperate is carried out. -/
def collective? : Op → Option Collective
  | .reduce _ _ _ _ how | .welford _ _ how | .broadcast _ _ how => some how
  | _ => none

/-- The elements an operation reads; a serial reduction also reads what it writes. -/
def inputs (o : Op) : List Element :=
  let read := o.operands.filterMap Operand.element?
  match o with
  | .reduce _ out _ _ .serial => read ++ [out]
  | .welford out _ .serial => read ++ out.toList
  | _ => read

/-- Whether an operation synchronizes the threads of a block. -/
def synchronizes (o : Op) : Bool :=
  match o.collective? with
  | some how => !how.isSerial
  | none => false

end Op

/-! ## Statements -/

/-- The head of a loop. -/
structure LoopHeader where
  index : LoopId
  extent : Scalar
  parallel : ParallelType
  /-- The axis that gives the loop its extent. -/
  axis : AxisId
deriving Repr, Inhabited

namespace LoopHeader

/-- Whether the loop is implied by the launch and runs its body once in each thread. -/
def isLaunch (h : LoopHeader) : Bool :=
  h.parallel.isLaunch

/-- The loop index as the body sees it. -/
def indexValue (h : LoopHeader) : Scalar :=
  if h.isLaunch then .launchIndex h.parallel else .loop h.index

/-- Whether the loop may run its body more than once in a thread. -/
def repeats (h : LoopHeader) : Bool :=
  !h.isLaunch && !h.extent.isInt 1

end LoopHeader

/-- A buffer that the kernel allocates. -/
structure Allocation where
  tensor : ValueId
  memory : MemoryType
  dtype : DataType
  /-- Number of elements. -/
  size : Scalar
  /-- The shared buffer whose storage this one reuses. -/
  host : Option ValueId := none
deriving Repr, Inhabited

/-- A statement. -/
inductive Stmt where
  | loop (header : LoopHeader) (body : List Stmt)
  | branch (cond : Scalar) (yes no : List Stmt)
  | allocate (a : Allocation)
  /-- A barrier of the block; `afterRead` marks one that protects a write after a read. -/
  | barrier (afterRead : Bool)
  | op (o : Op)
deriving Inhabited

namespace Stmt

mutual

/-- A statement and everything inside it, outer statements first. -/
def flatten : Stmt → List Stmt
  | .loop h body => .loop h body :: flattenAll body
  | .branch c yes no => .branch c yes no :: (flattenAll yes ++ flattenAll no)
  | .allocate a => [.allocate a]
  | .barrier w => [.barrier w]
  | .op o => [.op o]

/-- Statements in order, each before what is inside it. -/
def flattenAll : List Stmt → List Stmt
  | [] => []
  | s :: rest => flatten s ++ flattenAll rest

end

/-- The operation of a statement that is one. -/
def op? : Stmt → Option Op
  | .op o => some o
  | _ => none

/-- The head of a loop statement. -/
def header? : Stmt → Option LoopHeader
  | .loop h _ => some h
  | _ => none

/-- The buffer of an allocation. -/
def allocation? : Stmt → Option Allocation
  | .allocate a => some a
  | _ => none

/-- Every operation in order. -/
def ops (body : List Stmt) : List Op :=
  (flattenAll body).filterMap op?

/-- Every loop in order. -/
def headers (body : List Stmt) : List LoopHeader :=
  (flattenAll body).filterMap header?

/-- Every allocation in order. -/
def allocations (body : List Stmt) : List Allocation :=
  (flattenAll body).filterMap allocation?

/-- An operation under a guard; a guard that is true is left out. -/
def guarded (guard : Scalar) (o : Op) : Stmt :=
  if guard.isTrue then .op o else .branch guard [.op o] []

end Stmt
end Kernel
end FusionCompiler
