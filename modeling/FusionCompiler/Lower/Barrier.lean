import FusionCompiler.Kernel.Basic

/-!
# Barriers around shared memory

A read of a shared buffer that was written since the last barrier needs a
barrier before it, and so does a write of a buffer that was read since then.  A
conditional is treated as a unit, so that no barrier lands under divergent
control flow.  At the end of a loop body a barrier is added when the first
accesses of the next iteration would conflict with the last ones of this
iteration.  Cooperating threads synchronize by themselves.
-/

namespace FusionCompiler
namespace Kernel

/-- The buffers that are read and written. -/
structure Accesses where
  reads : List ValueId := []
  writes : List ValueId := []
deriving Repr, Inhabited

/-- The members of the first list, then the new ones of the second. -/
def joined (a b : List ValueId) : List ValueId :=
  a ++ b.filter fun v => !a.contains v

namespace Accesses

/-- The accesses of both. -/
def union (a b : Accesses) : Accesses :=
  ⟨joined a.reads b.reads, joined a.writes b.writes⟩

/-- The shared buffers an operation accesses; `storage` names the buffer of a shared tensor. -/
def ofOp (storage : ValueId → Option ValueId) (o : Op) : Accesses :=
  ⟨o.inputs.filterMap fun e => storage e.tensor, o.outputs.filterMap fun e => storage e.tensor⟩

/-- The shared buffers that statements access. -/
def ofStmts (storage : ValueId → Option ValueId) (body : List Stmt) : Accesses :=
  (Stmt.ops body).foldl (fun a o => a.union (ofOp storage o)) {}

end Accesses

/-- Whether two lists have a common member. -/
def meets (a b : List ValueId) : Bool :=
  a.any b.contains

/-- What happened so far in a scope. -/
structure BarrierState where
  /-- Accesses since the last barrier. -/
  pending : Accesses := {}
  /-- Accesses before the first barrier of the scope. -/
  first : Accesses := {}
  /-- Whether there was a barrier in the scope. -/
  synced : Bool := false
deriving Repr, Inhabited

namespace BarrierState

/-- A barrier. -/
def barrier (s : BarrierState) : BarrierState :=
  { s with pending := {}, synced := true }

/-- Accesses. -/
def access (s : BarrierState) (a : Accesses) : BarrierState :=
  { s with
    pending := s.pending.union a
    first := if s.synced then s.first else s.first.union a }

/-- The barrier that accesses need before them: one after a write, else one after a read. -/
def needed? (s : BarrierState) (a : Accesses) : Option Bool :=
  if meets s.pending.writes a.reads then some false
  else if meets s.pending.reads a.writes then some true
  else none

/-- The statements to put before accesses, and the state behind these. -/
def protect (s : BarrierState) (a : Accesses) : List Stmt × BarrierState :=
  match s.needed? a with
  | some afterRead => ([.barrier afterRead], s.barrier)
  | none => ([], s)

/-- Whether the next iteration of a loop would conflict with the state at the end of its body. -/
def carries (s : BarrierState) : Bool :=
  meets s.pending.writes s.first.reads || meets s.pending.reads s.first.writes

/-- The state in which a loop body starts. -/
def enterLoop (s : BarrierState) : BarrierState :=
  { pending := s.pending }

/-- The state behind a loop, from the state at the end of its body. -/
def leaveLoop (s inner : BarrierState) : BarrierState :=
  if inner.synced then
    { pending := inner.pending
      first := if s.synced then s.first else s.first.union inner.first
      synced := true }
  else s.access inner.pending

end BarrierState

mutual

/-- Puts barriers before and into a statement. -/
def Stmt.withBarriers (storage : ValueId → Option ValueId) :
    Stmt → BarrierState → List Stmt × BarrierState
  | .barrier w, s => ([.barrier w], s.barrier)
  | .allocate a, s => ([.allocate a], s)
  | .op o, s =>
    let accesses := Accesses.ofOp storage o
    let (before, s) := s.protect accesses
    let s := s.access accesses
    (before ++ [.op o], if o.synchronizes then s.barrier else s)
  | .branch c yes no, s =>
    let accesses := (Accesses.ofStmts storage yes).union (.ofStmts storage no)
    let (before, s) := s.protect accesses
    let (yes, _) := Stmt.withBarriersAll storage yes {}
    let (no, _) := Stmt.withBarriersAll storage no {}
    (before ++ [.branch c yes no], s.access accesses)
  | .loop h body, s =>
    let (body, inner) := Stmt.withBarriersAll storage body s.enterLoop
    if h.repeats && inner.carries then
      ([.loop h (body ++ [.barrier true])], s.leaveLoop inner.barrier)
    else ([.loop h body], s.leaveLoop inner)

/-- Puts barriers between and into statements. -/
def Stmt.withBarriersAll (storage : ValueId → Option ValueId) :
    List Stmt → BarrierState → List Stmt × BarrierState
  | [], s => ([], s)
  | x :: rest, s =>
    let (first, s) := Stmt.withBarriers storage x s
    let (rest, s) := Stmt.withBarriersAll storage rest s
    (first ++ rest, s)

end

/-- Puts barriers into a body; `storage` names the buffer of every shared tensor. -/
def insertBarriers (storage : ValueId → Option ValueId) (body : List Stmt) : List Stmt :=
  (Stmt.withBarriersAll storage body {}).1

end Kernel
end FusionCompiler
