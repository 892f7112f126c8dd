import FusionCompiler.Constant
import FusionCompiler.Text.Layout

/-!
# Host tensors

A host tensor is a strided view of flat storage.  Elements are doubles rounded
to the element type on construction.  Strides count elements and are never
negative.

Sizes and strides are 64-bit words, and what is worked out from them need not fit
one.  A build with overflow checks stops there, one without them goes on with the
remainder.  Functions that name a monad are the code of both builds: in `Option`
they are the checked build, which has no result where it stops, and in `Id` the
unchecked one.

`StridedView` is a window on an array that may run backwards or skip elements;
`HostTensor.ofView` copies one, keeping its memory order when it has one.
-/

namespace FusionCompiler

/-! ## Row-major layout -/

section Words

variable {m : Type → Type} [Monad m] [Overflow m]

/-- Number of elements of a shape, as far as a word keeps it. -/
def shapeSize (sizes : List Nat) : Nat :=
  Id.run (wordProduct sizes)

/-- Row-major strides; an empty dimension counts as one. -/
def contiguousStrides : List Nat → List Int
  | [] => []
  | [_] => [1]
  | _ :: n :: rest =>
    match contiguousStrides (n :: rest) with
    | [] => []
    | s :: strides => s * (Max.max n 1 : Nat) :: s :: strides

/-- Adds a product of signed words. -/
def dotStep (sum : Int) (term : Int × Int) : m Int := do
  Overflow.signed (sum + (← Overflow.signed (term.1 * term.2)))

/-- Dot product of signed words. -/
def wordDot (terms : List (Int × Int)) : m Int :=
  terms.foldlM dotStep 0

/-- The place in storage of the element at an index. -/
def placeOf (index : List Nat) (strides : List Int) : m Nat := do
  return wordOf (← wordDot ((index.map fun (i : Nat) => wrapped64 i).zip strides))

/-- Elements of storage that a strided layout touches. -/
def spanOf (sizes : List Nat) (strides : List Int) : m Nat := do
  if sizes.contains 0 then return 0
  let steps ← sizes.mapM fun (n : Nat) => Overflow.signed (wrapped64 n - 1)
  Overflow.unsigned (wordOf (← wordDot (steps.zip strides)) + 1)

/-- Elements of storage that a strided layout touches, as far as a word keeps their number. -/
def requiredLength (sizes : List Nat) (strides : List Int) : Int :=
  Id.run (spanOf sizes strides)

end Words

/-- The offsets of a strided layout in row-major order, starting at `base`. -/
def offsetsFrom (base : Int) : List Nat → List Int → List Int
  | n :: sizes, s :: strides =>
    (List.range n).flatMap fun i : Nat => offsetsFrom (base + i * s) sizes strides
  | _, _ => [base]

/-! ## Tensors -/

/-- Why a host tensor cannot be built. -/
inductive TensorError where
  | valueCount (values : Nat) (sizes : List Nat)
  | rankDiffers (sizes : List Nat) (strides : List Int)
  | negativeStride (strides : List Int)
  | storageTooShort (strides : List Int) (span length : Nat)
deriving DecidableEq, Repr

/-- The text of a tensor error. -/
def TensorError.message : TensorError → String
  | .valueCount n sizes =>
    Numeric.natText n ++ " values do not fill a tensor of sizes " ++ Text.natList sizes
  | .rankDiffers sizes strides =>
    "sizes " ++ Text.natList sizes ++ " and strides " ++ Text.intList strides ++ " differ in rank"
  | .negativeStride strides =>
    "negative strides " ++ Text.intList strides ++ " are not supported"
  | .storageTooShort strides span length =>
    "strides " ++ Text.intList strides ++ " reach " ++ Numeric.natText span
      ++ " elements, storage holds " ++ Numeric.natText length

/-- A strided tensor over flat host storage. -/
structure HostTensor where
  dtype : DataType
  sizes : List Nat
  strides : List Int
  storage : Array Float
deriving Repr, Inhabited

namespace HostTensor

variable {m : Type → Type} [Monad m] [Overflow m]

/-- A row-major tensor over given values. -/
def ofArray (t : DataType) (sizes : List Nat) (values : Array Float) :
    Except TensorError HostTensor :=
  if shapeSize sizes = values.size then
    .ok ⟨t, sizes, contiguousStrides sizes, values.map t.round⟩
  else
    .error (.valueCount values.size sizes)

/-- A tensor over given storage with explicit strides; everything the strides reach must lie inside
the storage. -/
def stridedIn (t : DataType) (sizes : List Nat) (strides : List Int) (storage : Array Float) :
    m (Except TensorError HostTensor) := do
  if sizes.length ≠ strides.length then return .error (.rankDiffers sizes strides)
  if strides.any (· < 0) then return .error (.negativeStride strides)
  let span ← spanOf sizes strides
  if storage.size < span then return .error (.storageTooShort strides span storage.size)
  return .ok ⟨t, sizes, strides, storage.map t.round⟩

/-- A tensor over given storage with explicit strides, in a build without overflow checks. -/
def strided (t : DataType) (sizes : List Nat) (strides : List Int) (storage : Array Float) :
    Except TensorError HostTensor :=
  Id.run (stridedIn t sizes strides storage)

/-- A row-major tensor of zeros. -/
def zeros (t : DataType) (sizes : List Nat) : HostTensor :=
  ⟨t, sizes, contiguousStrides sizes, Array.replicate (shapeSize sizes) 0.0⟩

/-- Number of dimensions. -/
def ndims (x : HostTensor) : Nat :=
  x.sizes.length

/-- Number of elements. -/
def numel (x : HostTensor) : Nat :=
  shapeSize x.sizes

/-- The element at a multi-dimensional index. -/
def getIn (x : HostTensor) (index : List Nat) : m (Option Float) := do
  let inside := List.zipWith (fun i n => decide (i < n)) index x.sizes
  if index.length ≠ x.sizes.length ∨ inside.contains false then return none
  return x.storage[← placeOf index x.strides]?

/-- The element at a multi-dimensional index, in a build without overflow checks. -/
def get? (x : HostTensor) (index : List Nat) : Option Float :=
  Id.run (x.getIn index)

/-- The elements in row-major order. -/
def toList (x : HostTensor) : List Float :=
  (offsetsFrom 0 x.sizes x.strides).map fun o => x.storage.getD o.toNat 0.0

/-- The size times the stride of the first dimension that has more than one element, or one. -/
def innerSpan : List Nat → List Int → m Int
  | n :: sizes, s :: strides =>
    if 1 < n then Overflow.signed (s * wrapped64 n) else innerSpan sizes strides
  | _, _ => return 1

/-- Whether a dimension can be folded into the one inside it.  Dimensions of size one and empty
tensors never constrain the layout. -/
def isContiguousIn (x : HostTensor) (dim : Nat) : m Bool := do
  if x.sizes.getD dim 0 ≤ 1 then return true
  if (← wordProduct x.sizes) = 0 then return true
  return x.strides.getD dim 0 = (← innerSpan (x.sizes.drop (dim + 1)) (x.strides.drop (dim + 1)))

/-- Whether a dimension can be folded into the one inside it, in a build without overflow checks. -/
def isContiguousAt (x : HostTensor) (dim : Nat) : Bool :=
  Id.run (x.isContiguousIn dim)

end HostTensor

/-! ## Views of arrays -/

/-- A window on a flat array; strides may be negative. -/
structure StridedView where
  data : Array Float
  offset : Int
  sizes : List Nat
  strides : List Int
deriving Repr, Inhabited

namespace StridedView

/-- Row-major strides of an array; an empty array has strides of zero. -/
def defaultStrides (sizes : List Nat) : List Int :=
  if sizes.contains 0 then sizes.map fun _ => 0 else contiguousStrides sizes

/-- The whole of a row-major array. -/
def ofArray? (sizes : List Nat) (data : Array Float) : Option StridedView :=
  if shapeSize sizes = data.size then some ⟨data, 0, sizes, defaultStrides sizes⟩ else none

/-- Exchanges two axes. -/
def swap (v : StridedView) (a b : Nat) : StridedView :=
  { v with
    sizes := (v.sizes.set a (v.sizes.getD b 0)).set b (v.sizes.getD a 0)
    strides := (v.strides.set a (v.strides.getD b 0)).set b (v.strides.getD a 0) }

/-- Reverses an axis. -/
def invert (v : StridedView) (a : Nat) : StridedView :=
  let n := v.sizes.getD a 0
  let s := v.strides.getD a 0
  { v with
    offset := if n = 0 then v.offset else v.offset + ((n : Int) - 1) * s
    strides := v.strides.set a (-s) }

/-- Keeps every `k`-th element of the half-open range of an axis.  An axis left with at most one
element has stride zero. -/
def slice (v : StridedView) (a lo hi k : Nat) : StridedView :=
  let s := v.strides.getD a 0
  let length := (hi - lo + k - 1) / k
  { v with
    offset := if hi - lo = 0 then v.offset else v.offset + lo * s
    sizes := v.sizes.set a length
    strides := v.strides.set a (if length ≤ 1 then 0 else s * k) }

/-- Whether dimensions taken from the fastest stride on fill memory without gaps. -/
def packed : Nat → List (Nat × Int) → Bool
  | _, [] => true
  | span, (n, s) :: rest => (n == 1 || s.natAbs == span) && packed (span * n) rest

/-- Whether the view covers one block of memory, in whatever axis order. -/
def isPacked (v : StridedView) : Bool :=
  v.strides == defaultStrides v.sizes ||
    match v.sizes, v.strides with
    | [n], [s] => n ≤ 1 || s == -1
    | sizes, strides =>
      packed 1 ((sizes.zip strides).mergeSort fun x y => x.2.natAbs ≤ y.2.natAbs)

/-- The elements in row-major order. -/
def toArray (v : StridedView) : Array Float :=
  ((offsetsFrom v.offset v.sizes v.strides).map fun o => v.data.getD o.toNat 0.0).toArray

end StridedView

/-- A copy of a view, in its own memory order when it covers one block, else row-major. -/
def HostTensor.ofView (t : DataType) (v : StridedView) : HostTensor :=
  let n := shapeSize v.sizes
  if v.strides.all (0 ≤ ·) && n != 0 && v.isPacked then
    let lo := v.offset.toNat
    ⟨t, v.sizes, v.strides, (v.data.extract lo (lo + n)).map t.round⟩
  else
    ⟨t, v.sizes, contiguousStrides v.sizes, v.toArray.map t.round⟩

/-- A run-time argument. -/
inductive Argument where
  | tensor (value : HostTensor)
  | scalar (value : Constant)
deriving Repr, Inhabited

/-- The tensor of a tensor argument. -/
def Argument.tensor? : Argument → Option HostTensor
  | .tensor t => some t
  | .scalar _ => none

end FusionCompiler
