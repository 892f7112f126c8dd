/-!
# Disjoint sets

A partition of a finite set whose classes are named by their least member, so
the name of a class does not depend on the order of the unions.

The partition is kept flat: every element is listed with the name of its
class, and the list is ordered by element.
-/

namespace FusionCompiler

/-- Elements with the least member of their class, ordered by element. -/
structure DisjointSets (α : Type) where
  entries : List (α × α) := []
deriving Repr

namespace DisjointSets

variable {α : Type} [DecidableEq α] [LT α] [DecidableLT α]

/-- The partition of the empty set. -/
def empty : DisjointSets α := {}

instance : Inhabited (DisjointSets α) := ⟨empty⟩

/-- The recorded name of the class of `x`. -/
def lookup (x : α) : List (α × α) → Option α
  | [] => none
  | (k, r) :: rest => if k = x then some r else lookup x rest

/-- Whether `x` has been inserted. -/
def contains (s : DisjointSets α) (x : α) : Bool :=
  (lookup x s.entries).isSome

/-- The least member of the class of `x`; an unknown element is its own class. -/
def find (s : DisjointSets α) (x : α) : α :=
  (lookup x s.entries).getD x

/-- Puts `x` in its place, as a class of its own. -/
def insertEntry (x : α) : List (α × α) → List (α × α)
  | [] => [(x, x)]
  | (k, r) :: rest =>
    if k = x then (k, r) :: rest
    else if x < k then (x, x) :: (k, r) :: rest
    else (k, r) :: insertEntry x rest

/-- Adds an element as a class of its own, unless it is known. -/
def insert (s : DisjointSets α) (x : α) : DisjointSets α :=
  ⟨insertEntry x s.entries⟩

/-- Gives every element of the class named `old` the name `new`. -/
def rename (old new : α) (entries : List (α × α)) : List (α × α) :=
  entries.map fun (k, r) => (k, if r = old then new else r)

/-- Joins the classes of two elements. -/
def union (s : DisjointSets α) (a b : α) : DisjointSets α :=
  let t := (s.insert a).insert b
  let ra := t.find a
  let rb := t.find b
  if ra = rb then t
  else if ra < rb then ⟨rename rb ra t.entries⟩
  else ⟨rename ra rb t.entries⟩

/-- Whether two elements are in one class. -/
def same (s : DisjointSets α) (a b : α) : Bool :=
  a = b || s.find a = s.find b

/-- The members of the class with a given name, in order. -/
def membersOf (s : DisjointSets α) (name : α) : List α :=
  (s.entries.filter fun (_, r) => r = name).map (·.1)

/-- The members of the class of `x`, in order. -/
def members (s : DisjointSets α) (x : α) : List α :=
  match s.membersOf (s.find x) with
  | [] => [x]
  | found => found

/-- The names of all classes, in order. -/
def names (s : DisjointSets α) : List α :=
  (s.entries.filter fun (k, r) => r = k).map (·.1)

/-- All classes, each in order, ordered by name. -/
def classes (s : DisjointSets α) : List (List α) :=
  s.names.map s.membersOf

end DisjointSets
end FusionCompiler
