import FusionCompiler.Host.Error
import FusionCompiler.Kernel.Basic

/-!
# Vectorized accesses at launch

A vectorized access moves several neighbouring elements at once.  Whether the
elements are neighbours depends on the strides of the argument, so it is checked
when a kernel is launched.
-/

namespace FusionCompiler
namespace Kernel
namespace VectorAccess

/-- The innermost of some dimensions whose stride is not the number of elements inside it; the
dimensions are given from the inside out. -/
def gap? (expected : Int) : List (Nat × Nat × Int) → Option (Nat × Int)
  | [] => none
  | (dim, size, stride) :: rest =>
    if 1 < size && stride != expected then some (dim, stride) else gap? (expected * size) rest

/-- Why an access by vectors does not fit a layout.  The innermost stride must be one; an
aligned access also needs merged dimensions without gaps, of a total size that the width
divides, and outer strides that keep the alignment. -/
def fault? (a : VectorAccess) (sizes : List Nat) (strides : List Int) : Option VectorFault :=
  let dims := (List.range sizes.length).zip (sizes.zip strides)
  match dims.getLast? with
  | none => none
  | some (_, size, stride) =>
    if a.width ≤ 1 then none
    else if 1 < size && stride != 1 then some (.innermostStride stride)
    else if a.misaligned then none
    else
      let outer := dims.length - Min.min (Max.max a.mergedDims 1) dims.length
      let merged := dims.drop outer
      let extent := (merged.map fun (_, size, _) => size).foldl (· * ·) 1
      match gap? 1 merged.reverse with
      | some (dim, stride) => some (.notContiguous dim stride)
      | none =>
        if extent % a.width != 0 then some (.notDivisible extent)
        else
          let misfit := (dims.take outer).find? fun (_, size, stride) =>
            1 < size && stride % a.width != 0
          misfit.map fun (dim, _, stride) => .misaligned dim stride

/-- Fails when an access by vectors does not fit a layout. -/
def check (a : VectorAccess) (sizes : List Nat) (strides : List Int) : Except RunError Unit :=
  match a.fault? sizes strides with
  | some fault => .error (.vectorization a.tensor a.width fault)
  | none => .ok ()

end VectorAccess
end Kernel
end FusionCompiler
