import FusionCompiler.Fusion.Basic

/-!
# Maps between axes

A finite map from axes to axes, listed in the order in which its keys came in.
-/

namespace FusionCompiler

/-- A finite map from axes to axes; every key is listed once. -/
structure AxisMap where
  pairs : List (AxisId × AxisId) := []
deriving DecidableEq, Repr, Inhabited

namespace AxisMap

/-- The image of an axis. -/
def get? (m : AxisMap) (a : AxisId) : Option AxisId :=
  (m.pairs.find? (·.1 == a)).map (·.2)

/-- Whether an axis has an image. -/
def contains (m : AxisMap) (a : AxisId) : Bool :=
  m.pairs.any (·.1 == a)

/-- Gives an axis an image; an earlier image is forgotten. -/
def insert (m : AxisMap) (a b : AxisId) : AxisMap :=
  if m.contains a then ⟨m.pairs.map fun p => if p.1 == a then (a, b) else p⟩
  else ⟨m.pairs ++ [(a, b)]⟩

/-- The map of a list of pairs; of two pairs with one key the later counts. -/
def ofPairs (l : List (AxisId × AxisId)) : AxisMap :=
  l.foldl (fun m p => m.insert p.1 p.2) {}

/-- The map from each axis of a list to itself. -/
def identity (l : List AxisId) : AxisMap :=
  ofPairs (l.map fun a => (a, a))

/-- Number of keys. -/
def size (m : AxisMap) : Nat :=
  m.pairs.length

/-- The images. -/
def images (m : AxisMap) : List AxisId :=
  m.pairs.map (·.2)

/-- Follows a second map; keys whose image it does not know are dropped. -/
def compose (m n : AxisMap) : AxisMap :=
  ⟨m.pairs.filterMap fun (a, b) => (n.get? b).map (a, ·)⟩

/-- Keeps the keys whose image satisfies a condition. -/
def filterImages (m : AxisMap) (p : AxisId → Bool) : AxisMap :=
  ⟨m.pairs.filter fun (_, b) => p b⟩

end AxisMap
end FusionCompiler
