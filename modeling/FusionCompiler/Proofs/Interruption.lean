import FusionCompiler.Proofs.Outcome

/-!
# Edits that fail on the way

A failing edit is not undone: what its first steps did stays done.
`EditE.Fails` says that an edit fails and what it leaves behind, `EditE.Leaves`
what it leaves behind in either case.

An edit fails in the middle of a sequence after the steps before have returned,
so what is known of returning steps also tells what a failing sequence did.

Main results:

- Theorem `EditE.fails_bind`: a sequence fails when its first step does, or when
  the rest fails after the first step has returned.
- Theorem `EditE.leaves_bind`: what a sequence leaves behind.
- Theorem `EditE.Atomic.bind`: checks before an edit that does nothing when it
  fails.
- Theorem `EditE.leaves_iff`: an edit leaves a fusion by returning or by failing.
-/

namespace FusionCompiler
namespace EditE

variable {ε ε' α β : Type} {f f' : Fusion}

/-- The edit fails on `f` and leaves `f'`. -/
def Fails (x : EditE ε α) (f f' : Fusion) : Prop :=
  ∃ e, x.run.run f = (.error e, f')

/-- The edit turns `f` into `f'`, whether it returns or fails. -/
def Leaves (x : EditE ε α) (f f' : Fusion) : Prop :=
  (x.run.run f).2 = f'

/-- A step leaves a fusion behind by returning or by failing. -/
theorem leaves_iff {x : EditE ε α} :
    x.Leaves f f' ↔ (∃ a, x.Returns f a f') ∨ x.Fails f f' := by
  unfold Leaves Returns Fails
  rcases x.run.run f with ⟨r, f₁⟩
  constructor
  · rintro rfl
    cases r with
    | ok a => exact .inl ⟨a, rfl⟩
    | error e => exact .inr ⟨e, rfl⟩
  · rintro (⟨a, h⟩ | ⟨e, h⟩) <;> cases h <;> rfl

/-- A step that returns leaves a fusion behind. -/
theorem Returns.leaves {x : EditE ε α} {a : α} (h : x.Returns f a f') : x.Leaves f f' :=
  leaves_iff.2 (.inl ⟨a, h⟩)

/-- A step that fails leaves a fusion behind. -/
theorem Fails.leaves {x : EditE ε α} (h : x.Fails f f') : x.Leaves f f' :=
  leaves_iff.2 (.inr h)

/-! ## Failing -/

/-- A sequence fails when its first step does, or when the rest fails after the first step has
returned. -/
@[simp]
theorem fails_bind {x : EditE ε α} {k : α → EditE ε β} :
    (x >>= k).Fails f f' ↔ x.Fails f f' ∨ ∃ a f₁, x.Returns f a f₁ ∧ (k a).Fails f₁ f' := by
  unfold Fails Returns
  rw [ExceptT.run_bind, StateT.run_bind]
  rcases hx : x.run.run f with ⟨r, f₁⟩
  cases r with
  | error e =>
      constructor
      · rintro ⟨e', h⟩
        cases h
        exact .inl ⟨e, rfl⟩
      · rintro (⟨e', h⟩ | ⟨a, f₂, h, -⟩)
        · cases h
          exact ⟨e, rfl⟩
        · cases h
  | ok a =>
      constructor
      · rintro ⟨e, h⟩
        exact .inr ⟨a, f₁, rfl, e, h⟩
      · rintro (⟨e, h⟩ | ⟨a', f₂, h, hk⟩)
        · cases h
        · cases h
          exact hk

/-- A result without a step never fails. -/
@[simp]
theorem fails_pure {a : α} : ¬ (pure a : EditE ε α).Fails f f' := by
  rintro ⟨e, h⟩
  cases h

/-- A change of the result does not make a step fail. -/
@[simp]
theorem fails_map {x : EditE ε α} {g : α → β} : (g <$> x).Fails f f' ↔ x.Fails f f' := by
  rw [map_eq_pure_bind, fails_bind]
  simp

/-- Dropping the result does not make a step fail. -/
@[simp]
theorem fails_discard {x : EditE ε α} : (discard x).Fails f f' ↔ x.Fails f f' := by
  unfold discard
  rw [map_const]
  simp

/-- A failure leaves the fusion as it is. -/
@[simp]
theorem fails_throw {e : ε} : (throw e : EditE ε α).Fails f f' ↔ f = f' := by
  constructor
  · rintro ⟨e', h⟩
    cases h
    rfl
  · rintro rfl
    exact ⟨e, rfl⟩

/-- Reading the fusion never fails. -/
@[simp]
theorem fails_get : ¬ (get : EditE ε Fusion).Fails f f' := by
  rintro ⟨e, h⟩
  cases h

/-- Writing the fusion never fails. -/
@[simp]
theorem fails_set {g : Fusion} : ¬ (set g : EditE ε PUnit).Fails f f' := by
  rintro ⟨e, h⟩
  cases h

/-- Replacing the fusion never fails. -/
@[simp]
theorem fails_modify {g : Fusion → Fusion} : ¬ (modify g : EditE ε PUnit).Fails f f' := by
  rintro ⟨e, h⟩
  cases h

/-- An edit that cannot fail does not. -/
@[simp]
theorem fails_lift {x : Edit α} : ¬ (liftM x : EditE ε α).Fails f f' := by
  rintro ⟨e, h⟩
  have hrun : ((liftM x : EditE ε α).run.run f) = (.ok (x.run f).1, (x.run f).2) := rfl
  rw [hrun] at h
  cases h

/-- A check fails just if its condition does not hold. -/
@[simp]
theorem fails_ensure {c : Bool} {e : ε} : (ensure c e).Fails f f' ↔ c = false ∧ f = f' := by
  cases c <;> simp [ensure]

/-- A computation that does not look at the fusion fails just if it is an error. -/
@[simp]
theorem fails_ofExcept {x : Except ε α} :
    (ofExcept x).Fails f f' ↔ (∃ e, x = .error e) ∧ f = f' := by
  cases x <;> simp [ofExcept]

/-- Errors under another name are errors of the same steps. -/
@[simp]
theorem fails_mapError {g : ε → ε'} {x : EditE ε α} : (mapError g x).Fails f f' ↔ x.Fails f f' := by
  have hrun : (mapError g x).run.run f = ((x.run.run f).1.mapError g, (x.run.run f).2) := rfl
  unfold Fails
  rw [hrun]
  rcases x.run.run f with ⟨r, f₁⟩
  cases r with
  | error e =>
      constructor <;> rintro ⟨e', h⟩ <;> cases h <;> exact ⟨_, rfl⟩
  | ok a =>
      constructor <;> rintro ⟨e', h⟩ <;> cases h

/-! ## Leaving a fusion behind -/

/-- A sequence leaves what its first step leaves in failing, or what the rest leaves after the first
step has returned. -/
theorem leaves_bind {x : EditE ε α} {k : α → EditE ε β} :
    (x >>= k).Leaves f f' ↔ x.Fails f f' ∨ ∃ a f₁, x.Returns f a f₁ ∧ (k a).Leaves f₁ f' := by
  simp only [leaves_iff, returns_bind, fails_bind]
  constructor
  · rintro (⟨b, a, f₁, ha, hb⟩ | h | ⟨a, f₁, ha, hk⟩)
    · exact .inr ⟨a, f₁, ha, .inl ⟨b, hb⟩⟩
    · exact .inl h
    · exact .inr ⟨a, f₁, ha, .inr hk⟩
  · rintro (h | ⟨a, f₁, ha, ⟨b, hb⟩ | hk⟩)
    · exact .inr (.inl h)
    · exact .inl ⟨b, a, f₁, ha, hb⟩
    · exact .inr (.inr ⟨a, f₁, ha, hk⟩)

/-- Dropping the result leaves the same fusion. -/
theorem leaves_discard {x : EditE ε α} : (discard x).Leaves f f' ↔ x.Leaves f f' := by
  simp [leaves_iff]

/-- Errors under another name leave the same fusion. -/
theorem leaves_mapError {g : ε → ε'} {x : EditE ε α} :
    (mapError g x).Leaves f f' ↔ x.Leaves f f' := by
  simp [leaves_iff]

/-- An edit that cannot fail leaves what it gives. -/
theorem leaves_lift {y : Edit α} :
    (liftM y : EditE ε α).Leaves f f' ↔ ∃ a, Edit.Gives y f a f' := by
  simp [leaves_iff]

/-! ## Checks -/

/-- The edit changes nothing, whether it returns or fails. -/
def Reads (x : EditE ε α) : Prop :=
  ∀ f f', x.Leaves f f' → f = f'

/-- If the edit fails, it has done nothing. -/
def Atomic (x : EditE ε α) : Prop :=
  ∀ f f', x.Fails f f' → f = f'

namespace Reads

variable {x : EditE ε α}

/-- A step that only reads returns with the fusion that it was given. -/
theorem eq_of_returns (h : Reads x) {a : α} (hx : x.Returns f a f') : f = f' :=
  h f f' hx.leaves

/-- A result without a step only reads. -/
protected theorem pure (a : α) : Reads (pure a : EditE ε α) := by
  intro f f' h
  obtain ⟨b, hb⟩ | h := leaves_iff.1 h
  · exact (returns_pure.1 hb).2
  · exact absurd h fails_pure

/-- A failure only reads. -/
protected theorem throw (e : ε) : Reads (throw e : EditE ε α) := by
  intro f f' h
  obtain ⟨a, ha⟩ | h := leaves_iff.1 h
  · exact absurd ha returns_throw
  · exact fails_throw.1 h

/-- Reading only reads. -/
protected theorem get : Reads (get : EditE ε Fusion) := by
  intro f f' h
  obtain ⟨g, hg⟩ | h := leaves_iff.1 h
  · exact (returns_get.1 hg).2
  · exact absurd h fails_get

/-- Two steps that only read. -/
protected theorem bind {k : α → EditE ε β} (hx : Reads x) (hk : ∀ a, Reads (k a)) :
    Reads (x >>= k) := by
  intro f f' h
  obtain h | ⟨a, f₁, ha, hb⟩ := leaves_bind.1 h
  · exact hx f f' h.leaves
  · exact (hx.eq_of_returns ha).trans (hk a f₁ f' hb)

/-- A check only reads. -/
protected theorem ensure (c : Bool) (e : ε) : Reads (ensure c e) := by
  cases c with
  | true => exact .pure _
  | false => exact .throw _

/-- A computation that does not look at the fusion only reads. -/
protected theorem ofExcept (y : Except ε α) : Reads (ofExcept y) := by
  cases y with
  | ok a => exact .pure a
  | error e => exact .throw e

/-- Errors under another name. -/
protected theorem mapError {g : ε → ε'} (hx : Reads x) : Reads (mapError g x) :=
  fun f f' h => hx f f' (leaves_mapError.1 h)

/-- Steps of which the result is dropped. -/
protected theorem discard (hx : Reads x) : Reads (discard x) :=
  fun f f' h => hx f f' (leaves_discard.1 h)

/-- A check fails, or the rest goes on where it started. -/
theorem leaves_bind {k : α → EditE ε β} (hx : Reads x) (h : (x >>= k).Leaves f f') :
    f = f' ∨ ∃ a, x.Returns f a f ∧ (k a).Leaves f f' := by
  obtain h | ⟨a, f₁, ha, hb⟩ := EditE.leaves_bind.1 h
  · exact .inl (hx f f' h.leaves)
  · obtain rfl := hx.eq_of_returns ha
    exact .inr ⟨a, ha, hb⟩

/-- A check fails, or the rest fails where it started. -/
theorem fails_bind {k : α → EditE ε β} (hx : Reads x) (h : (x >>= k).Fails f f') :
    f = f' ∨ ∃ a, x.Returns f a f ∧ (k a).Fails f f' := by
  obtain h | ⟨a, f₁, ha, hb⟩ := EditE.fails_bind.1 h
  · exact .inl (hx f f' h.leaves)
  · obtain rfl := hx.eq_of_returns ha
    exact .inr ⟨a, ha, hb⟩

end Reads

namespace Atomic

variable {x : EditE ε α}

/-- A step that only reads has done nothing when it fails. -/
theorem ofReads (h : Reads x) : Atomic x :=
  fun f f' hx => h f f' hx.leaves

/-- An edit that cannot fail has never failed halfway. -/
protected theorem lift (y : Edit α) : Atomic (liftM y : EditE ε α) :=
  fun _ _ h => absurd h fails_lift

/-- Checks before an edit that does nothing when it fails. -/
protected theorem bind {k : α → EditE ε β} (hx : Reads x) (hk : ∀ a, Atomic (k a)) :
    Atomic (x >>= k) := by
  intro f f' h
  obtain h | ⟨a, f₁, ha, hb⟩ := fails_bind.1 h
  · exact hx f f' h.leaves
  · exact (hx.eq_of_returns ha).trans (hk a f₁ f' hb)

/-- An edit that does nothing when it fails, before edits that do not fail. -/
theorem bind_lift {k : α → EditE ε β} (hx : Atomic x)
    (hk : ∀ a f f', ¬ (k a).Fails f f') : Atomic (x >>= k) := by
  intro f f' h
  obtain h | ⟨a, f₁, -, hb⟩ := fails_bind.1 h
  · exact hx f f' h
  · exact absurd hb (hk a f₁ f')

/-- What comes after an error is not done. -/
theorem throw_bind (e : ε) (k : α → EditE ε β) : Atomic (throw e >>= k) := by
  intro f f' h
  obtain h | ⟨a, f₁, ha, -⟩ := fails_bind.1 h
  · exact fails_throw.1 h
  · exact absurd ha returns_throw

/-- A check before an edit that does nothing when it fails. -/
protected theorem guard {c : Prop} [Decidable c] {e : ε} {k : β → EditE ε α} (hx : Atomic x) :
    Atomic (if c then throw e >>= k else x) := by
  split
  · exact .throw_bind e k
  · exact hx

/-- Errors under another name, of steps that are atomic. -/
protected theorem mapError {g : ε → ε'} (hx : Atomic x) : Atomic (mapError g x) :=
  fun f f' h => hx f f' (fails_mapError.1 h)

/-- Nothing is done, or the first step has returned. -/
theorem leaves_bind {k : α → EditE ε β} (hx : Atomic x) (h : (x >>= k).Leaves f f') :
    f = f' ∨ ∃ a f₁, x.Returns f a f₁ ∧ (k a).Leaves f₁ f' := by
  obtain h | hrest := EditE.leaves_bind.1 h
  · exact .inl (hx f f' h)
  · exact .inr hrest

end Atomic

end EditE
end FusionCompiler
