import FusionCompiler.Fusion.Basic

/-!
# Faults found while building a fusion

Each constructor is one cause; `FusionError.message` is its text.
-/

namespace FusionCompiler

/-- Why an output cannot be written into an input's buffer. -/
inductive AliasFault where
  | targetNotInput
  | dtypesDiffer
  | ranksDiffer
  | alreadyAliased
deriving DecidableEq, Repr

/-- The text of an alias fault. -/
def AliasFault.text : AliasFault → String
  | .targetNotInput => "the target is not an input tensor"
  | .dtypesDiffer => "dtypes differ"
  | .ranksDiffer => "ranks differ"
  | .alreadyAliased => "already aliased"

/-- Shape and type faults of a fusion. -/
inductive FusionError where
  | rankMismatch (op : String) (expected actual : Nat)
  | notATensor (v : ValueId)
  | axisOutOfRange (axis : Int) (ndims : Nat)
  | duplicateAxis (axis : Nat)
  | emptyReductionAxes
  /-- The operator cannot drive a reduction. -/
  | invalidReduction (op : BinaryOp)
  | broadcastFlagsMismatch (expected actual : Nat)
  | invalidDType (op : String) (dtype : DataType)
  | inputHasDefinition (v : ValueId)
  | alreadyInput (v : ValueId)
  | alreadyOutput (v : ValueId)
  | notAnOutput (v : ValueId)
  | invalidAlias (output input : ValueId) (fault : AliasFault)
  /-- A bound size contradicts a constant or an earlier binding of the same extent. -/
  | extentMismatch (tensor : ValueId) (dim : Nat) (expected actual : Int)
  | sizeRankMismatch (tensor : ValueId) (expected actual : Nat)
deriving DecidableEq, Repr

/-- The text of a fusion error. -/
def FusionError.message : FusionError → String
  | .rankMismatch op expected actual =>
    "rank mismatch in " ++ op ++ ": expected " ++ Numeric.natText expected ++ " dimensions, got "
      ++ Numeric.natText actual
  | .notATensor v => v.text ++ " is not a tensor"
  | .axisOutOfRange axis ndims =>
    "axis " ++ Numeric.intText axis ++ " is out of range for a tensor with "
      ++ Numeric.natText ndims ++ " dimensions"
  | .duplicateAxis axis => "axis " ++ Numeric.natText axis ++ " listed more than once"
  | .emptyReductionAxes => "reduction needs at least one axis"
  | .invalidReduction op => "reduction_op cannot reduce with non-associative operator " ++ op.name
  | .broadcastFlagsMismatch expected actual =>
    "broadcast of a " ++ Numeric.natText actual ++ "-dimensional tensor has "
      ++ Numeric.natText expected ++ " non-broadcast flags"
  | .invalidDType op dtype => "dtype " ++ dtype.name ++ " is not supported by " ++ op
  | .inputHasDefinition v => v.text ++ " has a definition and cannot be a fusion input"
  | .alreadyInput v => v.text ++ " is already a fusion input"
  | .alreadyOutput v => v.text ++ " is already a fusion output"
  | .notAnOutput v => v.text ++ " is not a fusion output"
  | .invalidAlias output input fault =>
    "cannot alias output " ++ output.text ++ " to input " ++ input.text ++ ": " ++ fault.text
  | .extentMismatch tensor dim expected actual =>
    "extent mismatch for " ++ tensor.text ++ " dimension " ++ Numeric.natText dim ++ ": expected "
      ++ Numeric.intText expected ++ ", got " ++ Numeric.intText actual
  | .sizeRankMismatch tensor expected actual =>
    tensor.text ++ " has " ++ Numeric.natText expected ++ " dimensions but "
      ++ Numeric.natText actual ++ " sizes were bound"

/-- The position of an axis that may be counted from the end. -/
def normalizeAxis (axis : Int) (ndims : Nat) : Except FusionError Nat :=
  let position := if axis < 0 then axis + ndims else axis
  if 0 ≤ position ∧ position < ndims then .ok position.toNat
  else .error (.axisOutOfRange axis ndims)

end FusionCompiler
