import FusionCompiler.Lower.LoopGroups

/-!
# The loop tree

An expression runs inside one loop per leaf of the tensor it computes.
Expressions are clustered level by level on the loop groups of these leaves;
clusters and loose expressions are ordered so that producers come first, ties
going to the one that comes first in program order, and each cluster is ordered
the same way one level deeper.
-/

namespace FusionCompiler

/-- Expressions inside nested loops, in order. -/
inductive LoopTree where
  | expr (e : ExprId)
  | loop (group : AxisId) (children : List LoopTree)
deriving Inhabited

namespace LoopTree

mutual

/-- The expressions of a tree in order. -/
def exprs : LoopTree → List ExprId
  | .expr e => [e]
  | .loop _ children => exprsAll children

/-- The expressions of trees in order. -/
def exprsAll : List LoopTree → List ExprId
  | [] => []
  | t :: rest => exprs t ++ exprsAll rest

end

/-- An expression with the loops that it still has to enter, outermost first. -/
structure Placed where
  expr : ExprId
  loops : List AxisId
deriving DecidableEq, Repr

/-- What is ordered at one level. -/
inductive Bundle where
  | loose (e : ExprId)
  | cluster (group : AxisId) (members : List Placed)

/-- The expressions of a bundle. -/
def Bundle.exprs : Bundle → List ExprId
  | .loose e => [e]
  | .cluster _ members => members.map (·.expr)

/-- Puts an expression into the cluster of its next loop, or by itself. -/
def addBundle (bundles : List Bundle) (p : Placed) : List Bundle :=
  match p.loops with
  | [] => bundles ++ [.loose p.expr]
  | group :: rest =>
    let here : Bundle → Bool
      | .cluster g _ => g == group
      | .loose _ => false
    if bundles.any here then
      bundles.map fun u => match u with
        | .cluster g members => if g == group then .cluster g (members ++ [⟨p.expr, rest⟩]) else u
        | .loose _ => u
    else bundles ++ [.cluster group [⟨p.expr, rest⟩]]

/-- Whether a bundle reads what one of the other bundles computes. -/
def waitsFor (f : Fusion) (u : Bundle) (others : List Bundle) : Bool :=
  u.exprs.any fun e => (f.tensorInputs e).any fun v => match f.definition v with
    | some d => others.any (·.exprs.contains d)
    | none => false

/-- The first bundle that waits for no other, and the rest. -/
def takeReady (f : Fusion) : List Bundle → List Bundle → Option (Bundle × List Bundle)
  | _, [] => none
  | skipped, u :: rest =>
    if waitsFor f u (skipped ++ rest) then takeReady f (skipped ++ [u]) rest
    else some (u, skipped ++ rest)

/-- Orders at most `fuel` bundles, producers first; gives the bundles that wait for each other
if there are such. -/
def orderBundles (f : Fusion) : Nat → List Bundle → Except (List Bundle) (List Bundle)
  | _, [] => .ok []
  | 0, bundles => .error bundles
  | fuel + 1, bundles =>
    match takeReady f [] bundles with
    | none => .error bundles
    | some (u, rest) => (orderBundles f fuel rest).map (u :: ·)

/-- Arranges expressions into loops, at most `fuel` loops deep. -/
def arrangeWith (f : Fusion) : Nat → List Placed → Except LowerError (List LoopTree)
  | 0, items => .ok (items.map fun p => .expr p.expr)
  | fuel + 1, items => do
    let bundles := items.foldl addBundle []
    match orderBundles f bundles.length bundles with
    | .error stuck =>
      let waiting := (items.map (·.expr)).filter fun e => stuck.any (·.exprs.contains e)
      .error (.loopNestCycle (waiting.filterMap f.loopTensor?))
    | .ok ordered => ordered.mapM fun
      | .loose e => .ok (.expr e)
      | .cluster group members => do return .loop group (← arrangeWith f fuel members)

/-- The loops of an expression: the groups of the leaves of the tensor it computes. -/
def place (f : Fusion) (m : LoopGroups) (e : ExprId) : Placed :=
  ⟨e, match f.loopTensor? e with
    | some v => (f.leaf v).map m.name
    | none => []⟩

/-- Arranges expressions into loops. -/
def build (f : Fusion) (m : LoopGroups) (exprs : List ExprId) : Except LowerError (List LoopTree) :=
  let items := exprs.map (place f m)
  arrangeWith f ((items.map (·.loops.length)).foldl Max.max 0 + 1) items

end LoopTree
end FusionCompiler
