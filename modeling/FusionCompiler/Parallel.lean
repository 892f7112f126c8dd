/-!
# Parallel execution of axes and memory spaces

How a loop axis is executed, and where a tensor lives.  The order of
`ParallelType.all` is the order in which launch dimensions are listed; a
`ParallelSet` always lists its members in that order.
-/

namespace FusionCompiler

/-- How an axis is executed. -/
inductive ParallelType where
  | blockZ
  | blockY
  | blockX
  | threadZ
  | threadY
  | threadX
  | vectorize
  | misalignedVectorize
  | unroll
  | unswitch
  | serial
deriving DecidableEq, Repr, Inhabited, Hashable

namespace ParallelType

/-- Every parallel type: block dimensions, thread dimensions, then the kinds inside one thread. -/
def all : List ParallelType :=
  [.blockZ, .blockY, .blockX, .threadZ, .threadY, .threadX,
    .vectorize, .misalignedVectorize, .unroll, .unswitch, .serial]

/-- Block and thread types in the order in which launch dimensions are reported. -/
def launchTypes : List ParallelType :=
  [.blockX, .blockY, .blockZ, .threadX, .threadY, .threadZ]

/-- The short name used inside sets. -/
def shortName : ParallelType → String
  | .blockZ => "BIDz"
  | .blockY => "BIDy"
  | .blockX => "BIDx"
  | .threadZ => "TIDz"
  | .threadY => "TIDy"
  | .threadX => "TIDx"
  | .vectorize => "Vectorize"
  | .misalignedVectorize => "MisalignedVectorize"
  | .unroll => "Unroll"
  | .unswitch => "Unswitch"
  | .serial => "Serial"

/-- The text shown on an axis: the device index for launch types, a mark for the others. -/
def text : ParallelType → String
  | .blockZ => "blockIdx.z"
  | .blockY => "blockIdx.y"
  | .blockX => "blockIdx.x"
  | .threadZ => "threadIdx.z"
  | .threadY => "threadIdx.y"
  | .threadX => "threadIdx.x"
  | .vectorize => "V"
  | .misalignedVectorize => "MV"
  | .unroll => "UR"
  | .unswitch => "US"
  | .serial => "S"

/-- Whether the axis is bound to a block index. -/
def isBlock : ParallelType → Bool
  | .blockX | .blockY | .blockZ => true
  | _ => false

/-- Whether the axis is bound to a thread index. -/
def isThread : ParallelType → Bool
  | .threadX | .threadY | .threadZ => true
  | _ => false

/-- Whether the axis becomes a launch dimension. -/
def isLaunch (p : ParallelType) : Bool :=
  p.isBlock || p.isThread

/-- Whether the axis is executed as one vector access. -/
def isVectorize : ParallelType → Bool
  | .vectorize | .misalignedVectorize => true
  | _ => false

/-- The device name of a launch dimension. -/
def dimName? : ParallelType → Option String
  | .blockX => some "gridDim.x"
  | .blockY => some "gridDim.y"
  | .blockZ => some "gridDim.z"
  | .threadX => some "blockDim.x"
  | .threadY => some "blockDim.y"
  | .threadZ => some "blockDim.z"
  | _ => none

/-- Position among `launchTypes`. -/
def launchSlot? : ParallelType → Option Nat
  | .blockX => some 0
  | .blockY => some 1
  | .blockZ => some 2
  | .threadX => some 3
  | .threadY => some 4
  | .threadZ => some 5
  | _ => none

end ParallelType

/-- A set of parallel types, listed in the order of `ParallelType.all`. -/
structure ParallelSet where
  members : List ParallelType
deriving DecidableEq, Repr

namespace ParallelSet

/-- The set of the types that satisfy `p`. -/
def ofPred (p : ParallelType → Bool) : ParallelSet :=
  ⟨ParallelType.all.filter p⟩

/-- The set of the types in a list. -/
def ofList (l : List ParallelType) : ParallelSet :=
  ofPred l.contains

/-- The empty set. -/
def empty : ParallelSet := ⟨[]⟩

instance : Inhabited ParallelSet := ⟨empty⟩

instance : EmptyCollection ParallelSet := ⟨empty⟩

/-- Membership. -/
def contains (s : ParallelSet) (p : ParallelType) : Bool :=
  s.members.contains p

/-- Whether the set has no members. -/
def isEmpty (s : ParallelSet) : Bool :=
  s.members.isEmpty

/-- The types in either set. -/
def union (s t : ParallelSet) : ParallelSet :=
  ofPred fun p => s.contains p || t.contains p

/-- The types in both sets. -/
def inter (s t : ParallelSet) : ParallelSet :=
  ofPred fun p => s.contains p && t.contains p

/-- The types in the first set and not in the second. -/
def diff (s t : ParallelSet) : ParallelSet :=
  ofPred fun p => s.contains p && !t.contains p

/-- Adds one type. -/
def insert (s : ParallelSet) (p : ParallelType) : ParallelSet :=
  ofPred fun q => s.contains q || q == p

/-- Whether some member satisfies `p`. -/
def any (s : ParallelSet) (p : ParallelType → Bool) : Bool :=
  s.members.any p

/-- The text of a set in kernel listings. -/
def text (s : ParallelSet) : String :=
  "EnumSet(" ++ " | ".intercalate (s.members.map (·.shortName)) ++ ")"

end ParallelSet

/-- Where a tensor lives. -/
inductive MemoryType where
  /-- Registers, private to a thread. -/
  | local
  /-- Shared by the threads of a block. -/
  | shared
  /-- Device memory. -/
  | global
deriving DecidableEq, Repr, Inhabited

namespace MemoryType

/-- The name shown in listings. -/
def name : MemoryType → String
  | .local => "Local"
  | .shared => "Shared"
  | .global => "Global"

/-- How far a memory reaches: a thread, a block, or all blocks. -/
def rank : MemoryType → Nat
  | .local => 0
  | .shared => 1
  | .global => 2

/-- The mark shown behind a tensor's name. -/
def symbol : MemoryType → String
  | .local => "l"
  | .shared => "s"
  | .global => "g"

end MemoryType
end FusionCompiler
