/-!
# Running statistics

The mean, the sum of squared deviations from it and the count of a list of
samples, together with the rule that joins the statistics of two lists.  The
same triple also groups three tensors or three operands, so it is generic.
-/

namespace FusionCompiler

/-- Mean, sum of squared deviations and count. -/
structure Moments (α : Type) where
  avg : α
  varSum : α
  count : α
deriving DecidableEq, Repr, Inhabited

namespace Moments

variable {α β : Type}

/-- The three parts in order. -/
def toList (m : Moments α) : List α :=
  [m.avg, m.varSum, m.count]

/-- Applies a function to each part. -/
def map (g : α → β) (m : Moments α) : Moments β :=
  ⟨g m.avg, g m.varSum, g m.count⟩

/-- Runs an action on each part, in order. -/
def mapM {m : Type → Type} [Monad m] (g : α → m β) (x : Moments α) : m (Moments β) := do
  let avg ← g x.avg
  let varSum ← g x.varSum
  let count ← g x.count
  return ⟨avg, varSum, count⟩

/-- The statistics of no samples. -/
def empty [OfNat α 0] : Moments α :=
  ⟨0, 0, 0⟩

/-- The statistics of one sample. -/
def sample [OfNat α 0] [OfNat α 1] (x : α) : Moments α :=
  ⟨x, 0, 1⟩

/-- Joins the statistics of two lists of samples; an empty second list changes nothing. -/
def combine [Add α] [Sub α] [Mul α] [Div α] [OfNat α 0] [BEq α] (a b : Moments α) : Moments α :=
  if b.count == 0 then a
  else
    let count := a.count + b.count
    let weight := b.count / count
    let delta := b.avg - a.avg
    ⟨a.avg + delta * weight, a.varSum + (b.varSum + delta * delta * a.count * weight), count⟩

end Moments
end FusionCompiler
