import FusionCompiler.Host.Machine

/-!
# Cells of a machine

An element of a tensor is kept in a cell: a place and an index in its storage.
Reading an element looks at one cell, writing one changes one cell, and where an
element is kept depends on the launch and the indices of the loops only.

`Run.Returns` says what a step of an execution does when it succeeds, and the
lemmas of this file take such a statement apart.

Main results:

- Theorem `Kernel.Machine.get?_set`: writing a cell changes no other one.
- Theorems `Kernel.Run.returns_load`, `Kernel.Run.returns_store`,
  `Kernel.Run.returns_operand` and `Kernel.Run.returns_holds`: what the steps do
  to cells.
-/

namespace FusionCompiler
namespace Kernel

variable {α β γ : Type} {A : Arithmetic α} {l : Launch} {m m' : Machine α}

/-! ## Storage -/

/-- Where an element is kept. -/
abbrev Cell := Place × Nat

namespace Store

/-- A change of one storage is seen in this one only. -/
theorem lookup_modify (s : Store α) (v w : ValueId) (g : Array α → Array α) :
    (s.modify v g).lookup w = if w = v then (s.lookup v).map g else s.lookup w := by
  induction s with
  | nil => simp [Store.modify]
  | cons p s ih =>
      obtain ⟨u, a⟩ := p
      unfold Store.modify
      by_cases hu : u = v
      · subst hu
        by_cases hw : w = u
        · subst hw
          simp
        · simp [hw, List.lookup_cons, beq_eq_false_iff_ne.2 hw]
      · rw [if_neg hu]
        by_cases hw : w = u
        · subst hw
          simp [hu]
        · have hvu : ¬ v = u := fun heq => hu heq.symm
          simp only [List.lookup_cons, beq_eq_false_iff_ne.2 hw, beq_eq_false_iff_ne.2 hvu, ih]

end Store

namespace Machine

/-- The value in a cell. -/
def get? (m : Machine α) (c : Cell) : Option α :=
  (m.storage? c.1).bind (·[c.2]?)

/-- Writes a cell. -/
def set (m : Machine α) (c : Cell) (x : α) : Machine α :=
  m.modifyStorage (·.setIfInBounds c.2 x) c.1

/-- A change at one place is seen at this place only. -/
theorem storage?_modifyStorage (m : Machine α) (g : Array α → Array α) (p q : Place) :
    (m.modifyStorage g p).storage? q = if q = p then (m.storage? p).map g else m.storage? q := by
  have hstore : ∀ (stores : Array (Store α)) (i j : Nat) (v w : ValueId),
      ((stores.modify i (·.modify v g)).getD j []).lookup w =
        if j = i ∧ w = v then ((stores.getD i []).lookup v).map g
        else (stores.getD j []).lookup w := by
    intro stores i j v w
    simp only [Array.getD_eq_getD_getElem?, Array.getElem?_modify]
    by_cases hij : i = j
    · subst hij
      cases stores[i]? with
      | none => simp
      | some s => simp [Store.lookup_modify]
    · have hji : ¬ j = i := fun h => hij h.symm
      simp [hij, hji]
  cases p with
  | buffer i =>
      cases q with
      | buffer j =>
          simp only [modifyStorage, storage?, Array.getElem?_modify, Place.buffer.injEq]
          by_cases hij : i = j
          · subst hij
            simp
          · simp [hij, Ne.symm hij]
      | register t v => simp [modifyStorage, storage?]
      | shared b v => simp [modifyStorage, storage?]
  | register t v =>
      cases q with
      | register u w =>
          simp only [modifyStorage, storage?, Place.register.injEq]
          exact hstore _ _ _ _ _
      | buffer j => simp [modifyStorage, storage?]
      | shared b w => simp [modifyStorage, storage?]
  | shared b v =>
      cases q with
      | shared d w =>
          simp only [modifyStorage, storage?, Place.shared.injEq]
          exact hstore _ _ _ _ _
      | buffer j => simp [modifyStorage, storage?]
      | register u w => simp [modifyStorage, storage?]

/-- Writing a cell changes no other one. -/
theorem get?_set (m : Machine α) (c d : Cell) (x : α) :
    (m.set c x).get? d = if d = c then (m.get? c).map fun _ => x else m.get? d := by
  obtain ⟨p, i⟩ := c
  obtain ⟨q, j⟩ := d
  simp only [get?, set, storage?_modifyStorage, Prod.mk.injEq]
  by_cases hq : q = p
  · subst hq
    cases m.storage? q with
    | none => simp
    | some a =>
        by_cases hij : j = i
        · subst hij
          by_cases hlt : j < a.size <;> simp [hlt]
        · simp [hij, Ne.symm hij]
  · simp [hq]

/-- A write enters no loop. -/
@[simp]
theorem loops_set (m : Machine α) (c : Cell) (x : α) : (m.set c x).loops = m.loops := by
  obtain ⟨p, i⟩ := c
  cases p <;> rfl

/-- The same cells exist, and the loops are at the same indices. -/
structure SameCells (m m' : Machine α) : Prop where
  loops : m'.loops = m.loops
  isSome : ∀ c, (m'.get? c).isSome = (m.get? c).isSome

/-- A machine has its own cells. -/
theorem SameCells.refl (m : Machine α) : m.SameCells m :=
  ⟨rfl, fun _ => rfl⟩

/-- Runs one after another keep the cells. -/
theorem SameCells.trans {m'' : Machine α} (h : m.SameCells m') (h' : m'.SameCells m'') :
    m.SameCells m'' :=
  ⟨h'.loops.trans h.loops, fun c => (h'.isSome c).trans (h.isSome c)⟩

/-- A write makes and removes no cell. -/
theorem sameCells_set (m : Machine α) (c : Cell) (x : α) : m.SameCells (m.set c x) := by
  refine ⟨loops_set m c x, fun d => ?_⟩
  rw [get?_set]
  split
  case isTrue hd => rw [hd, Option.isSome_map]
  case isFalse => rfl

end Machine

namespace Launch

/-- The cell of an element for a thread. -/
def cell? (l : Launch) (loops : List (LoopId × Int)) (e : Element) (thread : Nat) : Option Cell :=
  (l.place? thread e.tensor).bind fun p => (e.index.evaluate (l.env loops thread)).bind fun i =>
    if i.toInt < 0 then none else some (p, i.toInt.toNat)

/-- Whether a condition holds in a thread. -/
def truth? (l : Launch) (loops : List (LoopId × Int)) (cond : Scalar) (thread : Nat) :
    Option Bool :=
  (cond.evaluate (l.env loops thread)).map Constant.toBool

/-- The value of an operand. -/
def value? (A : Arithmetic α) (l : Launch) (m : Machine α) (x : Kernel.Operand) (thread : Nat) :
    Option α :=
  match x with
  | .element e => (l.cell? m.loops e thread).bind m.get?
  | .scalar s t => (s.evaluate (l.env m.loops thread)).map fun c => A.round t (A.ofConstant c)

/-- Whether an operand can be read depends on which cells are there. -/
theorem isSome_value?_congr {x : Kernel.Operand} {t : Nat} (h : m.SameCells m') :
    (l.value? A m' x t).isSome = (l.value? A m x t).isSome := by
  cases x with
  | scalar s ty => rw [value?, h.loops, value?]
  | element e =>
      rw [value?, h.loops, value?]
      cases l.cell? m.loops e t with
      | none => rfl
      | some c => exact h.isSome c

end Launch

/-! ## Steps -/

namespace Run

/-- The step succeeds on `m` with result `b` and leaves `m'`. -/
def Returns (x : Run α β) (m : Machine α) (b : β) (m' : Machine α) : Prop :=
  x.run.run m = (.ok b, m')

/-- A result without a step. -/
@[simp]
theorem returns_pure {a b : β} : Returns (pure a : Run α β) m b m' ↔ a = b ∧ m = m' := by
  constructor
  · intro h
    cases h
    exact ⟨rfl, rfl⟩
  · rintro ⟨rfl, rfl⟩
    rfl

/-- A sequence returns exactly when each of its steps returns in turn. -/
@[simp]
theorem returns_bind {x : Run α β} {k : β → Run α γ} {c : γ} :
    Returns (x >>= k) m c m' ↔ ∃ b m₁, Returns x m b m₁ ∧ Returns (k b) m₁ c m' := by
  unfold Returns
  rw [ExceptT.run_bind, StateT.run_bind]
  rcases hx : x.run.run m with ⟨r, m₁⟩
  cases r with
  | error e =>
      constructor
      · intro h
        cases h
      · rintro ⟨b, m₂, h, -⟩
        cases h
  | ok b =>
      constructor
      · intro h
        exact ⟨b, m₁, rfl, h⟩
      · rintro ⟨b', m₂, h, hk⟩
        cases h
        exact hk

/-- A failure returns nothing. -/
@[simp]
theorem returns_throw {e : RunError} {b : β} : ¬ Returns (throw e : Run α β) m b m' := by
  intro h
  cases h

/-- Reading the machine. -/
@[simp]
theorem returns_get {n : Machine α} :
    Returns (get : Run α (Machine α)) m n m' ↔ m = n ∧ m = m' := by
  constructor
  · intro h
    cases h
    exact ⟨rfl, rfl⟩
  · rintro ⟨rfl, rfl⟩
    rfl

/-- Changing the machine. -/
@[simp]
theorem returns_modify {g : Machine α → Machine α} {u : PUnit} :
    Returns (modify g : Run α PUnit) m u m' ↔ g m = m' := by
  constructor
  · intro h
    cases h
    rfl
  · rintro rfl
    rfl

/-- A step of which the result is dropped. -/
@[simp]
theorem returns_discard {x : Run α β} {u : PUnit} :
    Returns (discard x) m u m' ↔ ∃ b, Returns x m b m' := by
  unfold discard
  rw [map_const, Function.comp_apply, map_eq_pure_bind, returns_bind]
  constructor
  · rintro ⟨b, m₁, hx, hk⟩
    obtain ⟨-, rfl⟩ := returns_pure.1 hk
    exact ⟨b, hx⟩
  · rintro ⟨b, hx⟩
    exact ⟨b, m', hx, returns_pure.2 ⟨rfl, rfl⟩⟩

/-- A scalar is evaluated for one thread. -/
theorem returns_eval {s : Scalar} {t : Nat} {c : Constant} :
    Returns (eval l s t : Run α Constant) m c m' ↔
      s.evaluate (l.env m.loops t) = some c ∧ m = m' := by
  unfold eval
  simp only [returns_bind, returns_get]
  constructor
  · rintro ⟨n, m₁, ⟨rfl, rfl⟩, h⟩
    cases hs : s.evaluate (l.env m.loops t) with
    | none =>
        rw [hs] at h
        exact absurd h returns_throw
    | some d =>
        rw [hs] at h
        obtain ⟨rfl, rfl⟩ := returns_pure.1 h
        exact ⟨rfl, rfl⟩
  · rintro ⟨hs, rfl⟩
    refine ⟨m, m, ⟨rfl, rfl⟩, ?_⟩
    rw [hs]
    exact returns_pure.2 ⟨rfl, rfl⟩

/-- A condition is tested for one thread. -/
theorem returns_holds {cond : Scalar} {t : Nat} {b : Bool} :
    Returns (holds l cond t : Run α Bool) m b m' ↔ l.truth? m.loops cond t = some b ∧ m = m' := by
  unfold holds Launch.truth?
  simp only [returns_bind, returns_eval, returns_pure, Option.map_eq_some_iff]
  constructor
  · rintro ⟨c, m₁, ⟨hc, rfl⟩, rfl, rfl⟩
    exact ⟨⟨c, hc, rfl⟩, rfl⟩
  · rintro ⟨⟨c, hc, rfl⟩, rfl⟩
    exact ⟨c, m, ⟨hc, rfl⟩, rfl, rfl⟩

/-- Reading at an index looks at one cell. -/
theorem returns_readAt {v : ValueId} {t : Nat} {i : Int} {x : α} :
    Returns (readAt l v t i) m x m' ↔ (∃ p, l.place? t v = some p ∧ ¬ i < 0 ∧
      m.get? (p, i.toNat) = some x) ∧ m = m' := by
  unfold readAt Machine.get?
  simp only [returns_bind, returns_get]
  constructor
  · rintro ⟨n, m₁, ⟨rfl, rfl⟩, h⟩
    cases hp : l.place? t v with
    | none =>
        rw [hp] at h
        exact absurd h returns_throw
    | some p =>
        cases hs : m.storage? p with
        | none =>
            rw [hp, Option.bind_some, hs] at h
            exact absurd h returns_throw
        | some a =>
            rw [hp, Option.bind_some, hs] at h
            dsimp only at h
            by_cases hi : i < 0
            · rw [if_pos hi] at h
              exact absurd h returns_throw
            · rw [if_neg hi] at h
              cases hx : a[i.toNat]? with
              | none =>
                  rw [hx] at h
                  exact absurd h returns_throw
              | some y =>
                  rw [hx] at h
                  obtain ⟨rfl, rfl⟩ := returns_pure.1 h
                  exact ⟨⟨p, rfl, hi, by rw [hs, Option.bind_some, hx]⟩, rfl⟩
  · rintro ⟨⟨p, hp, hi, hx⟩, rfl⟩
    refine ⟨m, m, ⟨rfl, rfl⟩, ?_⟩
    obtain ⟨a, hs, hx⟩ := Option.bind_eq_some_iff.1 hx
    rw [hp, Option.bind_some, hs]
    dsimp only
    rw [if_neg hi, hx]
    exact returns_pure.2 ⟨rfl, rfl⟩

/-- The cell of an element. -/
theorem cell?_eq_some {loops : List (LoopId × Int)} {e : Element} {t : Nat} {c : Cell} :
    l.cell? loops e t = some c ↔ ∃ i, e.index.evaluate (l.env loops t) = some i ∧
      l.place? t e.tensor = some c.1 ∧ ¬ i.toInt < 0 ∧ c.2 = i.toInt.toNat := by
  unfold Launch.cell?
  simp only [Option.bind_eq_some_iff]
  constructor
  · rintro ⟨p, hp, i, hi, hc⟩
    split at hc
    · cases hc
    case isFalse hneg =>
        cases hc
        exact ⟨i, hi, hp, hneg, rfl⟩
  · rintro ⟨i, hi, hp, hneg, hc⟩
    refine ⟨c.1, hp, i, hi, ?_⟩
    rw [if_neg hneg, ← hc]

/-- Reading an element looks at its cell. -/
theorem returns_load {e : Element} {t : Nat} {x : α} :
    Returns (load l e t) m x m' ↔ (∃ c, l.cell? m.loops e t = some c ∧ m.get? c = some x) ∧
      m = m' := by
  unfold load
  simp only [returns_bind, returns_eval, returns_readAt, cell?_eq_some]
  constructor
  · rintro ⟨i, m₁, ⟨hi, rfl⟩, ⟨p, hp, hneg, hx⟩, rfl⟩
    exact ⟨⟨(p, i.toInt.toNat), ⟨i, hi, hp, hneg, rfl⟩, hx⟩, rfl⟩
  · rintro ⟨⟨⟨p, j⟩, ⟨i, hi, hp, hneg, hj⟩, hx⟩, rfl⟩
    exact ⟨i, m, ⟨hi, rfl⟩, ⟨p, hp, hneg, hj ▸ hx⟩, rfl⟩

/-- Writing an element changes its cell, which must exist. -/
theorem returns_store {e : Element} {t : Nat} {x : α} {u : Unit} :
    Returns (store A l e t x) m u m' ↔ ∃ c, l.cell? m.loops e t = some c ∧ (m.get? c).isSome ∧
      m.set c (A.round e.dtype x) = m' := by
  unfold store
  simp only [returns_bind, returns_discard, returns_eval, returns_readAt, cell?_eq_some,
    Option.isSome_iff_exists]
  constructor
  · rintro ⟨i, m₁, ⟨hi, rfl⟩, -, m₂, ⟨y, ⟨p, hp, hneg, hy⟩, rfl⟩, h⟩
    rw [hp] at h
    exact ⟨(p, i.toInt.toNat), ⟨i, hi, hp, hneg, rfl⟩, ⟨y, hy⟩, returns_modify.1 h⟩
  · rintro ⟨⟨p, j⟩, ⟨i, hi, hp, hneg, hj⟩, ⟨y, hy⟩, h⟩
    dsimp only at hp hj
    subst hj
    refine ⟨i, m, ⟨hi, rfl⟩, ⟨⟩, m, ⟨y, ⟨p, hp, hneg, hy⟩, rfl⟩, ?_⟩
    rw [hp]
    exact returns_modify.2 h

/-- Reading an operand changes nothing. -/
theorem returns_operand {x : Kernel.Operand} {t : Nat} {y : α} :
    Returns (operand A l x t) m y m' ↔ l.value? A m x t = some y ∧ m = m' := by
  cases x with
  | element e =>
      refine returns_load.trans (and_congr_left fun _ => ?_)
      exact Option.bind_eq_some_iff.symm
  | scalar s ty =>
      unfold operand Launch.value?
      simp only [returns_bind, returns_eval, returns_pure, Option.map_eq_some_iff]
      constructor
      · rintro ⟨c, m₁, ⟨hc, rfl⟩, rfl, rfl⟩
        exact ⟨⟨c, hc, rfl⟩, rfl⟩
      · rintro ⟨⟨c, hc, rfl⟩, rfl⟩
        exact ⟨c, m, ⟨hc, rfl⟩, rfl, rfl⟩

/-- A loop returns if its body does wherever the same cells exist. -/
theorem forM_returns {f : β → Run α Unit} {bs : List β}
    (hf : ∀ b ∈ bs, ∀ n, m.SameCells n → ∃ n', Returns (f b) n () n' ∧ n.SameCells n') :
    ∃ m', Returns (bs.forM f) m () m' ∧ m.SameCells m' := by
  induction bs generalizing m with
  | nil => exact ⟨m, returns_pure.2 ⟨rfl, rfl⟩, .refl m⟩
  | cons b bs ih =>
      obtain ⟨m₁, hone, hsame₁⟩ := hf b List.mem_cons_self m (.refl m)
      obtain ⟨m', hrest, hsame⟩ := ih fun b hb n hn =>
        hf b (List.mem_cons_of_mem _ hb) n (hsame₁.trans hn)
      exact ⟨m', returns_bind.2 ⟨(), m₁, hone, hrest⟩, hsame₁.trans hsame⟩

end Run
end Kernel
end FusionCompiler
