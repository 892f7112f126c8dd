import FusionCompiler.Fusion.Basic

/-!
# Outcomes of edits

An edit is a function from fusions to results and fusions.  `Edit.Gives` and
`EditE.Returns` say what an edit does to one fusion, and the lemmas of this file
take such a statement about a composed edit apart into statements about its
steps.  A proof about a `do` block unfolds the block once and goes on with the
intermediate fusions.

Main results:

- Theorem `EditE.returns_bind`: a sequence returns exactly when each of its
  steps returns in turn.
- Theorem `EditE.returns_lift`: an edit that cannot fail returns what it gives.
- Theorem `EditE.Refines.bind`: a sequence of edits that succeed less often
  succeeds less often.
- Theorems `Results.bind_eq_ok` and `Results.mem_mapM`: what the steps of a
  succeeding computation without a fusion have done.
-/

namespace FusionCompiler

variable {ε ε' α β : Type} {f f' : Fusion}

/-! ## Edits that cannot fail -/

namespace Edit

/-- The edit turns `f` into `f'` and results in `a`. -/
def Gives (x : Edit α) (f : Fusion) (a : α) (f' : Fusion) : Prop :=
  x.run f = (a, f')

/-- A result without a step. -/
@[simp]
theorem gives_pure {a b : α} : Gives (pure b) f a f' ↔ b = a ∧ f = f' :=
  Prod.mk.injEq _ _ _ _ ▸ Iff.rfl

/-- One edit after the other, which may depend on the result. -/
@[simp]
theorem gives_bind {x : Edit α} {k : α → Edit β} {b : β} :
    Gives (x >>= k) f b f' ↔ ∃ a f₁, Gives x f a f₁ ∧ Gives (k a) f₁ b f' := by
  unfold Gives
  rw [StateT.run_bind]
  constructor
  · intro h
    exact ⟨_, _, rfl, h⟩
  · rintro ⟨a, f₁, hx, hk⟩
    rw [hx]
    exact hk

/-- A change of the result. -/
@[simp]
theorem gives_map {x : Edit α} {g : α → β} {b : β} :
    Gives (g <$> x) f b f' ↔ ∃ a, Gives x f a f' ∧ g a = b := by
  rw [map_eq_pure_bind, gives_bind]
  constructor
  · rintro ⟨a, f₁, hx, hk⟩
    obtain ⟨rfl, rfl⟩ := gives_pure.1 hk
    exact ⟨a, hx, rfl⟩
  · rintro ⟨a, hx, rfl⟩
    exact ⟨a, f', hx, gives_pure.2 ⟨rfl, rfl⟩⟩

/-- Reading the fusion. -/
@[simp]
theorem gives_get {g : Fusion} : Gives get f g f' ↔ f = g ∧ f = f' :=
  Prod.mk.injEq _ _ _ _ ▸ Iff.rfl

/-- Replacing the fusion. -/
@[simp]
theorem gives_modify {g : Fusion → Fusion} {u : PUnit} : Gives (modify g) f u f' ↔ g f = f' := by
  constructor
  · intro h
    exact congrArg Prod.snd h
  · rintro rfl
    rfl

/-- Replacing the fusion, with a result. -/
@[simp]
theorem gives_modifyGet {g : Fusion → α × Fusion} {a : α} :
    Gives (modifyGet g) f a f' ↔ g f = (a, f') :=
  Iff.rfl

end Edit

/-! ## Edits that may fail -/

namespace EditE

/-- The edit succeeds on `f` with result `a` and leaves `f'`. -/
def Returns (x : EditE ε α) (f : Fusion) (a : α) (f' : Fusion) : Prop :=
  x.run.run f = (.ok a, f')

/-- A result without a step that may fail. -/
@[simp]
theorem returns_pure {a b : α} : (pure b : EditE ε α).Returns f a f' ↔ b = a ∧ f = f' := by
  constructor
  · intro h
    cases h
    exact ⟨rfl, rfl⟩
  · rintro ⟨rfl, rfl⟩
    rfl

/-- A sequence returns exactly when each of its steps returns in turn. -/
@[simp]
theorem returns_bind {x : EditE ε α} {k : α → EditE ε β} {b : β} :
    (x >>= k).Returns f b f' ↔ ∃ a f₁, x.Returns f a f₁ ∧ (k a).Returns f₁ b f' := by
  unfold Returns
  rw [ExceptT.run_bind, StateT.run_bind]
  rcases hx : x.run.run f with ⟨r, f₁⟩
  cases r with
  | error e =>
      constructor
      · intro h
        cases h
      · rintro ⟨a, f₂, h, -⟩
        cases h
  | ok a =>
      constructor
      · intro h
        exact ⟨a, f₁, rfl, h⟩
      · rintro ⟨a', f₂, h, hk⟩
        cases h
        exact hk

/-- A change of the result of a step that may fail. -/
@[simp]
theorem returns_map {x : EditE ε α} {g : α → β} {b : β} :
    (g <$> x).Returns f b f' ↔ ∃ a, x.Returns f a f' ∧ g a = b := by
  rw [map_eq_pure_bind, returns_bind]
  constructor
  · rintro ⟨a, f₁, hx, hk⟩
    obtain ⟨rfl, rfl⟩ := returns_pure.1 hk
    exact ⟨a, hx, rfl⟩
  · rintro ⟨a, hx, rfl⟩
    exact ⟨a, f', hx, returns_pure.2 ⟨rfl, rfl⟩⟩

/-- A step whose result is dropped. -/
@[simp]
theorem returns_discard {x : EditE ε α} {u : PUnit} :
    (discard x).Returns f u f' ↔ ∃ a, x.Returns f a f' := by
  unfold discard
  rw [map_const]
  simp

/-- A failure returns nothing. -/
@[simp]
theorem returns_throw {e : ε} {a : α} : ¬ (throw e : EditE ε α).Returns f a f' := by
  intro h
  cases h

/-- What comes after a check returns only if the check passes. -/
theorem returns_guard {c : Prop} [Decidable c] {e : ε} {k : β → EditE ε α} {x : EditE ε α} {a : α} :
    (if c then throw e >>= k else x : EditE ε α).Returns f a f' ↔ ¬ c ∧ x.Returns f a f' := by
  split
  case isTrue hc =>
      rw [returns_bind]
      constructor
      · rintro ⟨b, f₁, hb, -⟩
        exact absurd hb returns_throw
      · exact fun h => absurd hc h.1
  case isFalse hc => exact (and_iff_right hc).symm

/-- Reading the fusion, in a step that may fail. -/
@[simp]
theorem returns_get {g : Fusion} : (get : EditE ε Fusion).Returns f g f' ↔ f = g ∧ f = f' := by
  constructor
  · intro h
    cases h
    exact ⟨rfl, rfl⟩
  · rintro ⟨rfl, rfl⟩
    rfl

/-- Writing the fusion, in a step that may fail. -/
@[simp]
theorem returns_set {g : Fusion} {u : PUnit} :
    (set g : EditE ε PUnit).Returns f u f' ↔ g = f' := by
  constructor
  · intro h
    cases h
    rfl
  · rintro rfl
    rfl

/-- Replacing the fusion, in a step that may fail. -/
@[simp]
theorem returns_modify {g : Fusion → Fusion} {u : PUnit} :
    (modify g : EditE ε PUnit).Returns f u f' ↔ g f = f' := by
  constructor
  · intro h
    cases h
    rfl
  · rintro rfl
    rfl

/-- An edit that cannot fail returns what it gives. -/
@[simp]
theorem returns_lift {x : Edit α} {a : α} :
    (liftM x : EditE ε α).Returns f a f' ↔ Edit.Gives x f a f' := by
  constructor
  · intro h
    have hrun : ((liftM x : EditE ε α).run.run f) = (.ok (x.run f).1, (x.run f).2) := rfl
    rw [Returns, hrun] at h
    cases h
    rfl
  · intro h
    have hrun : ((liftM x : EditE ε α).run.run f) = (.ok (x.run f).1, (x.run f).2) := rfl
    rw [Returns, hrun, h]

/-- A check returns just if its condition holds. -/
@[simp]
theorem returns_ensure {c : Bool} {e : ε} {u : Unit} :
    (ensure c e).Returns f u f' ↔ c = true ∧ f = f' := by
  cases c <;> simp [ensure]

/-- A computation that does not look at the fusion returns just if it is no error. -/
@[simp]
theorem returns_ofExcept {x : Except ε α} {a : α} :
    (ofExcept x).Returns f a f' ↔ x = .ok a ∧ f = f' := by
  cases x <;> simp [ofExcept]

/-- Errors under another name come from the same steps. -/
@[simp]
theorem returns_mapError {g : ε → ε'} {x : EditE ε α} {a : α} :
    (mapError g x).Returns f a f' ↔ x.Returns f a f' := by
  have hrun : (mapError g x).run.run f = ((x.run.run f).1.mapError g, (x.run.run f).2) := rfl
  rw [Returns, Returns, hrun]
  rcases x.run.run f with ⟨r, f₁⟩
  cases r with
  | error e =>
      constructor <;> intro h <;> cases h
  | ok b =>
      constructor <;> intro h <;> cases h <;> rfl

/-- A step that returns is applied with success. -/
theorem applyTo_eq_ok {x : EditE ε α} (a : α) (h : x.Returns f a f') : x.applyTo f = .ok f' := by
  have hrun : x.run f = (.ok a, f') := h
  unfold applyTo
  rw [hrun]

/-! ## Edits that succeed less often -/

/-- Where the first edit succeeds, the second one does the same. -/
def Refines (x y : EditE ε α) : Prop :=
  ∀ f a f', x.Returns f a f' → y.Returns f a f'

namespace Refines

/-- A step refines itself. -/
protected theorem refl (x : EditE ε α) : Refines x x :=
  fun _ _ _ h => h

/-- Refinements one after another. -/
protected theorem bind {x y : EditE ε α} {k l : α → EditE ε β} (hx : Refines x y)
    (hk : ∀ a, Refines (k a) (l a)) : Refines (x >>= k) (y >>= l) := by
  intro f b f' h
  obtain ⟨a, f₁, ha, hb⟩ := returns_bind.1 h
  exact returns_bind.2 ⟨a, f₁, hx f a f₁ ha, hk a f₁ b f' hb⟩

/-- A refinement of which the result is dropped. -/
protected theorem discard {x y : EditE ε α} (hx : Refines x y) :
    Refines (Functor.discard x) (Functor.discard y) := by
  intro f u f' h
  obtain ⟨a, ha⟩ := returns_discard.1 h
  exact returns_discard.2 ⟨a, hx f a f' ha⟩

end Refines

end EditE

/-! ## Results without a fusion -/

namespace Results

/-- A sequence succeeds just if both parts do. -/
theorem bind_eq_ok {x : Except ε α} {k : α → Except ε β} {b : β} :
    (x >>= k) = .ok b ↔ ∃ a, x = .ok a ∧ k a = .ok b := by
  cases x with
  | error e =>
      constructor
      · intro h
        cases h
      · rintro ⟨a, ha, -⟩
        cases ha
  | ok a =>
      constructor
      · exact fun h => ⟨a, rfl, h⟩
      · rintro ⟨a', ha, h⟩
        cases ha
        exact h

/-- A result that is there is a success. -/
theorem ok_of_toOption {x : Except ε α} {a : α} (h : x.toOption = some a) : x = .ok a := by
  cases x with
  | ok b =>
      cases h
      rfl
  | error e => cases h

/-- What a fold with failures keeps at each step it keeps altogether. -/
theorem foldlM_keeps {P : α → Prop} {step : α → β → Except ε α} {l : List β} {a b : α}
    (hstep : ∀ y ∈ l, ∀ x x', P x → step x y = .ok x' → P x') (ha : P a)
    (h : l.foldlM step a = .ok b) : P b := by
  induction l generalizing a with
  | nil =>
      cases h
      exact ha
  | cons y l ih =>
      rw [List.foldlM_cons] at h
      obtain ⟨x, hx, h⟩ := bind_eq_ok.1 h
      exact ih (fun z hz => hstep z (List.mem_cons_of_mem y hz))
        (hstep y List.mem_cons_self a x ha hx) h

/-- A fold whose steps succeed from every state succeeds. -/
theorem foldlM_of_all {step : α → β → Except ε α} {l : List β} (a : α)
    (h : ∀ y ∈ l, ∀ x, ∃ x', step x y = .ok x') : ∃ b, l.foldlM step a = .ok b := by
  induction l generalizing a with
  | nil => exact ⟨a, rfl⟩
  | cons y l ih =>
      obtain ⟨x, hx⟩ := h y List.mem_cons_self a
      obtain ⟨b, hb⟩ := ih x fun z hz => h z (List.mem_cons_of_mem y hz)
      refine ⟨b, ?_⟩
      rw [List.foldlM_cons, hx]
      exact hb

/-- If each step of a fold moves the state along `R` and establishes a fact of its element that moving
along `R` keeps, then in the end the facts of all elements hold. -/
theorem foldlM_establishes {R : α → α → Prop} {Q : β → α → Prop} {step : α → β → Except ε α}
    {l : List β} {a b : α} (hrefl : ∀ x, R x x) (htrans : ∀ x y z, R x y → R y z → R x z)
    (hkeeps : ∀ y x x', Q y x → R x x' → Q y x')
    (hstep : ∀ x x' y, step x y = .ok x' → R x x' ∧ Q y x') (h : l.foldlM step a = .ok b) :
    R a b ∧ ∀ y ∈ l, Q y b := by
  induction l generalizing a with
  | nil =>
      cases h
      exact ⟨hrefl _, by simp⟩
  | cons y l ih =>
      rw [List.foldlM_cons] at h
      obtain ⟨x, hx, h⟩ := bind_eq_ok.1 h
      obtain ⟨hmoved, hfact⟩ := hstep a x y hx
      obtain ⟨hrest, hfacts⟩ := ih h
      refine ⟨htrans a x b hmoved hrest, fun z hz => ?_⟩
      rcases List.mem_cons.1 hz with rfl | hz
      · exact hkeeps z x b hfact hrest
      · exact hfacts z hz

/-- The same for a fold whose steps cannot fail. -/
theorem foldl_establishes {R : α → α → Prop} {Q : β → α → Prop} {step : α → β → α} (l : List β)
    (a : α) (hrefl : ∀ x, R x x) (htrans : ∀ x y z, R x y → R y z → R x z)
    (hkeeps : ∀ y x x', Q y x → R x x' → Q y x')
    (hstep : ∀ x y, R x (step x y) ∧ Q y (step x y)) :
    R a (l.foldl step a) ∧ ∀ y ∈ l, Q y (l.foldl step a) := by
  have hrun : l.foldlM (fun x y => (.ok (step x y) : Except Empty α)) a = .ok (l.foldl step a) :=
    List.foldlM_pure
  refine foldlM_establishes hrefl htrans hkeeps ?_ hrun
  intro x x' y hx
  cases hx
  exact hstep x y

/-- Each result of repeated computations is the result of one of them. -/
theorem mem_mapM {g : α → Except ε β} {l : List α} {ys : List β} (h : l.mapM g = .ok ys) {y : β}
    (hy : y ∈ ys) : ∃ x ∈ l, g x = .ok y := by
  induction l generalizing ys with
  | nil =>
      cases h
      cases hy
  | cons x l ih =>
      rw [List.mapM_cons] at h
      obtain ⟨z, hz, h⟩ := bind_eq_ok.1 h
      obtain ⟨zs, hzs, h⟩ := bind_eq_ok.1 h
      cases h
      rcases List.mem_cons.1 hy with rfl | hy
      · exact ⟨x, List.mem_cons_self, hz⟩
      · obtain ⟨x', hx', hgx⟩ := ih hzs hy
        exact ⟨x', List.mem_cons_of_mem x hx', hgx⟩

/-- Each of the repeated computations has its result among the results. -/
theorem exists_mem_mapM {g : α → Except ε β} {l : List α} {ys : List β} (h : l.mapM g = .ok ys)
    {x : α} (hx : x ∈ l) : ∃ y ∈ ys, g x = .ok y := by
  induction l generalizing ys with
  | nil => cases hx
  | cons a l ih =>
      rw [List.mapM_cons] at h
      obtain ⟨b, hb, h⟩ := bind_eq_ok.1 h
      obtain ⟨bs, hbs, h⟩ := bind_eq_ok.1 h
      cases h
      rcases List.mem_cons.1 hx with rfl | hx
      · exact ⟨b, List.mem_cons_self, hb⟩
      · obtain ⟨y, hy, hxy⟩ := ih hbs hx
        exact ⟨y, List.mem_cons_of_mem b hy, hxy⟩

/-- Each of the repeated computations has its result among the results, if any may be missing. -/
theorem exists_mem_mapM_some {g : α → Option β} {l : List α} {ys : List β}
    (h : l.mapM g = some ys) {x : α} (hx : x ∈ l) : ∃ y ∈ ys, g x = some y := by
  induction l generalizing ys with
  | nil => cases hx
  | cons a l ih =>
      rw [List.mapM_cons] at h
      obtain ⟨b, hb, h⟩ := Option.bind_eq_some_iff.1 h
      obtain ⟨bs, hbs, h⟩ := Option.bind_eq_some_iff.1 h
      cases h
      rcases List.mem_cons.1 hx with rfl | hx
      · exact ⟨b, List.mem_cons_self, hb⟩
      · obtain ⟨y, hy, hxy⟩ := ih hbs hx
        exact ⟨y, List.mem_cons_of_mem b hy, hxy⟩

/-- If all checks pass, each does. -/
theorem of_forM {g : α → Except ε Unit} {l : List α} (h : l.forM g = .ok ()) {x : α} (hx : x ∈ l) :
    g x = .ok () := by
  induction l with
  | nil => cases hx
  | cons y l ih =>
      have hcons : (y :: l).forM g = g y >>= fun _ => l.forM g := rfl
      rw [hcons] at h
      obtain ⟨_, hy, h⟩ := bind_eq_ok.1 h
      rcases List.mem_cons.1 hx with rfl | hx
      · exact hy
      · exact ih h hx

/-- If each computation succeeds, all do. -/
theorem mapM_of_all {g : α → Except ε β} {l : List α} (h : ∀ x ∈ l, ∃ y, g x = .ok y) :
    ∃ ys, l.mapM g = .ok ys ∧ ∀ x ∈ l, ∃ y ∈ ys, g x = .ok y := by
  induction l with
  | nil => exact ⟨[], rfl, by simp⟩
  | cons x l ih =>
      obtain ⟨y, hy⟩ := h x List.mem_cons_self
      obtain ⟨ys, hys, hall⟩ := ih fun z hz => h z (List.mem_cons_of_mem x hz)
      refine ⟨y :: ys, ?_, fun z hz => ?_⟩
      · rw [List.mapM_cons, hy, hys]
        rfl
      · rcases List.mem_cons.1 hz with rfl | hz
        · exact ⟨y, List.mem_cons_self, hy⟩
        · obtain ⟨w, hw, hgw⟩ := hall z hz
          exact ⟨w, List.mem_cons_of_mem y hw, hgw⟩

end Results

end FusionCompiler
