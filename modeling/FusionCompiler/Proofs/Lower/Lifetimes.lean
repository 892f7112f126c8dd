import FusionCompiler.Lower.SharedMemory
import FusionCompiler.Proofs.Kernel.Runs

/-!
# Live ranges of tensors

The operations of a body are counted in program order.  A tensor is needed at
the position of every operation that touches it, and all along a loop inside of
which an operation touches it, since a later iteration may touch it again.  It is
alive between the first and the last position at which it is needed.

The walk through a body extends lifetimes by these positions one after the
other and never shortens one, so that a tensor lives in no place outside of its
lifetime.

Main results:

- Theorem `Kernel.Stmt.lifetimesAll_spec`: a walk counts the operations, keeps
  what the lifetimes cover, and covers every position at which a tensor is
  needed.
- Theorem `Kernel.Stmt.covers_of_liveAt`: a lifetime covers all positions at
  which its tensor is alive.
-/

namespace FusionCompiler
namespace Kernel

/-- The operation reads or writes the tensor. -/
def Op.Touches (o : Op) (v : ValueId) : Prop :=
  ∃ e ∈ o.inputs ++ o.outputs, e.tensor = v

namespace Stmt

mutual

/-- A tensor is needed at a position by a statement whose operations start at another one.  The
operations of a loop need it together: the outermost of the enclosing loops counts. -/
def NeedsAt (v : ValueId) : Stmt → Nat → Nat → Prop
  | .op o, start, i => o.Touches v ∧ i = start
  | .loop _ body, start, i =>
    (∃ o ∈ ops body, o.Touches v) ∧ start ≤ i ∧ i < start + (ops body).length
  | .branch _ yes no, start, i =>
    NeedsAllAt v yes start i ∨ NeedsAllAt v no (start + (ops yes).length) i
  | .allocate _, _, _ | .barrier _, _, _ => False

/-- A tensor is needed at a position by one of several statements in order. -/
def NeedsAllAt (v : ValueId) : List Stmt → Nat → Nat → Prop
  | [], _, _ => False
  | x :: rest, start, i =>
    NeedsAt v x start i ∨ NeedsAllAt v rest (start + (ops [x]).length) i

end

/-- A tensor is alive at a position of a body: it is needed there, or before and behind. -/
def LiveAt (body : List Stmt) (v : ValueId) (i : Nat) : Prop :=
  ∃ j k, NeedsAllAt v body 0 j ∧ NeedsAllAt v body 0 k ∧ j ≤ i ∧ i ≤ k

mutual

/-- Whatever an operation of a statement touches is needed somewhere. -/
theorem exists_needsAt {v : ValueId} : ∀ (x : Stmt) (start : Nat), (∃ o ∈ ops [x], o.Touches v) →
    ∃ i, NeedsAt v x start i
  | .op o, start, h => by
      refine ⟨start, ?_, rfl⟩
      simpa using h
  | .loop _ body, start, h => by
      rw [ops_loop] at h
      obtain ⟨o, ho, -⟩ := id h
      have hlen := List.length_pos_of_mem ho
      exact ⟨start, h, Nat.le_refl start, by omega⟩
  | .branch _ yes no, start, ⟨o, ho, hv⟩ => by
      rw [ops_branch] at ho
      rcases List.mem_append.1 ho with ho | ho
      · obtain ⟨i, hi⟩ := exists_needsAllAt yes start ⟨o, ho, hv⟩
        exact ⟨i, .inl hi⟩
      · obtain ⟨i, hi⟩ := exists_needsAllAt no (start + (ops yes).length) ⟨o, ho, hv⟩
        exact ⟨i, .inr hi⟩
  | .allocate _, _, ⟨_, ho, _⟩ => by cases ho
  | .barrier _, _, ⟨_, ho, _⟩ => by cases ho

/-- Whatever an operation of several statements touches is needed somewhere. -/
theorem exists_needsAllAt {v : ValueId} : ∀ (xs : List Stmt) (start : Nat),
    (∃ o ∈ ops xs, o.Touches v) → ∃ i, NeedsAllAt v xs start i
  | [], _, ⟨_, ho, _⟩ => by cases ho
  | x :: rest, start, ⟨o, ho, hv⟩ => by
      rw [ops_cons] at ho
      rcases List.mem_append.1 ho with ho | ho
      · obtain ⟨i, hi⟩ := exists_needsAt x start ⟨o, ho, hv⟩
        exact ⟨i, .inl hi⟩
      · obtain ⟨i, hi⟩ := exists_needsAllAt rest (start + (ops [x]).length) ⟨o, ho, hv⟩
        exact ⟨i, .inr hi⟩

end

end Stmt

/-! ## Touching -/

namespace Lifetimes

variable {live : Lifetimes} {u v : ValueId} {t : Lifetime} {i : Nat}

/-- The tensor has a lifetime, and the position lies in it. -/
def Covers (live : Lifetimes) (v : ValueId) (i : Nat) : Prop :=
  ∃ t, live.lookup v = some t ∧ t.first ≤ i ∧ i ≤ t.last

theorem lookup_touch_of_ne (h : u ≠ v) : (live.touch v t).lookup u = live.lookup u := by
  induction live with
  | nil =>
      have hbeq : (u == v) = false := by simpa using h
      simp [touch, List.lookup_cons, hbeq]
  | cons entry rest ih =>
      obtain ⟨w, old⟩ := entry
      by_cases hw : w = v
      · subst hw
        have hbeq : (u == w) = false := by simpa using h
        simp [touch, List.lookup_cons, hbeq]
      · simp [touch, if_neg hw, List.lookup_cons, ih]

theorem lookup_touch_self : (live.touch v t).lookup v = some (match live.lookup v with
    | none => t
    | some old => ⟨Min.min old.first t.first, Max.max old.last t.last⟩) := by
  induction live with
  | nil => simp [touch]
  | cons entry rest ih =>
      obtain ⟨w, old⟩ := entry
      by_cases hw : w = v
      · subst hw
        simp [touch]
      · have hbeq : (v == w) = false := by simpa using Ne.symm hw
        simp [touch, if_neg hw, List.lookup_cons, hbeq, ih]

/-- Touching a tensor shortens no lifetime. -/
theorem Covers.touch (h : live.Covers u i) : (live.touch v t).Covers u i := by
  obtain ⟨s, hs, hfirst, hlast⟩ := h
  by_cases huv : u = v
  · subst huv
    refine ⟨_, lookup_touch_self, ?_, ?_⟩
    · simp only [hs]
      omega
    · simp only [hs]
      omega
  · exact ⟨s, by rw [lookup_touch_of_ne huv, hs], hfirst, hlast⟩

/-- A lifetime that a tensor is touched for is covered. -/
theorem covers_touch (hfirst : t.first ≤ i) (hlast : i ≤ t.last) :
    (live.touch v t).Covers v i := by
  refine ⟨_, lookup_touch_self, ?_, ?_⟩
  all_goals
    split
    · assumption
    · dsimp only
      omega

/-- Touching several tensors for one lifetime covers it for each of them and shortens no other. -/
theorem covers_foldl_touch {α : Type} (f : α → ValueId) (l : List α) (live : Lifetimes) (i : Nat)
    (hi : live.Covers u i ∨ ((∃ a ∈ l, f a = u) ∧ t.first ≤ i ∧ i ≤ t.last)) :
    (l.foldl (fun live a => live.touch (f a) t) live).Covers u i := by
  induction l generalizing live with
  | nil =>
      rcases hi with hi | ⟨⟨a, ha, -⟩, -⟩
      · exact hi
      · cases ha
  | cons a l ih =>
      apply ih
      rcases hi with hi | ⟨⟨b, hb, rfl⟩, hfirst, hlast⟩
      · exact .inl hi.touch
      · rcases List.mem_cons.1 hb with rfl | hb
        · exact .inl (covers_touch hfirst hlast)
        · exact .inr ⟨⟨b, hb, rfl⟩, hfirst, hlast⟩

end Lifetimes

/-! ## Walks -/

namespace Stmt

/-- What a walk over operations that start at its position makes of the lifetimes. -/
structure WalksOver (w w' : LifetimeWalk) (count : Nat) (needed : ValueId → Nat → Prop) : Prop where
  position : w'.position = w.position + count
  keeps : ∀ {v i}, w.live.Covers v i → w'.live.Covers v i
  covers : ∀ {v i}, needed v i → w'.live.Covers v i

theorem WalksOver.skip (w : LifetimeWalk) : WalksOver w w 0 fun _ _ => False :=
  ⟨rfl, id, False.elim⟩

theorem WalksOver.trans {w w' w'' : LifetimeWalk} {m n : Nat} {P Q : ValueId → Nat → Prop}
    (h : WalksOver w w' m P) (h' : WalksOver w' w'' n Q) :
    WalksOver w w'' (m + n) fun v i => P v i ∨ Q v i where
  position := by rw [h'.position, h.position, Nat.add_assoc]
  keeps hv := h'.keeps (h.keeps hv)
  covers hv := hv.elim (fun hv => h'.keeps (h.covers hv)) h'.covers

theorem WalksOver.op (w : LifetimeWalk) (o : Op) :
    WalksOver w (w.op o) 1 fun v i => o.Touches v ∧ i = w.position where
  position := rfl
  keeps hv := Lifetimes.covers_foldl_touch Element.tensor _ _ _ (.inl hv)
  covers := by
    rintro v i ⟨hv, rfl⟩
    exact Lifetimes.covers_foldl_touch Element.tensor _ _ _
      (.inr ⟨hv, Nat.le_refl _, Nat.le_refl _⟩)

/-- A loop needs what its body needs all along. -/
theorem WalksOver.loop {w inner : LifetimeWalk} {body : List Stmt}
    (h : WalksOver { position := w.position } inner (ops body).length
      fun v i => NeedsAllAt v body w.position i) :
    WalksOver w (w.loop inner) (ops body).length fun v i =>
      (∃ o ∈ ops body, o.Touches v) ∧ w.position ≤ i ∧ i < w.position + (ops body).length where
  position := h.position
  keeps hv := Lifetimes.covers_foldl_touch Prod.fst _ _ _ (.inl hv)
  covers := by
    rintro v i ⟨htouched, hfirst, hlast⟩
    obtain ⟨j, hj⟩ := exists_needsAllAt body w.position htouched
    obtain ⟨t, ht, -⟩ := h.covers hj
    obtain ⟨before, after, hlive, -⟩ := List.lookup_eq_some_iff.1 ht
    have hmem : (v, t) ∈ inner.live := by simp [hlive]
    have hposition := h.position
    apply Lifetimes.covers_foldl_touch Prod.fst
    refine .inr ⟨⟨(v, t), hmem, rfl⟩, hfirst, ?_⟩
    dsimp only at hposition ⊢
    omega

mutual

/-- The walk through a statement covers every position at which the statement needs a tensor. -/
theorem lifetimes_spec : ∀ (x : Stmt) (w : LifetimeWalk),
    WalksOver w (x.lifetimes w) (ops [x]).length fun v i => NeedsAt v x w.position i
  | .op o, w => by
      simp only [lifetimes, NeedsAt]
      exact WalksOver.op w o
  | .loop h body, w => by
      rw [ops_loop]
      simpa only [lifetimes, NeedsAt] using WalksOver.loop (lifetimesAll_spec body _)
  | .branch c yes no, w => by
      have hyes := lifetimesAll_spec yes w
      have hno := lifetimesAll_spec no (lifetimesAll yes w)
      rw [hyes.position] at hno
      rw [ops_branch, List.length_append]
      simpa only [lifetimes, NeedsAt] using hyes.trans hno
  | .allocate _, w | .barrier _, w => by
      simp only [lifetimes, NeedsAt]
      exact WalksOver.skip w

/-- The walk through statements counts their operations, keeps what the lifetimes cover, and
covers every position at which the statements need a tensor. -/
theorem lifetimesAll_spec : ∀ (xs : List Stmt) (w : LifetimeWalk),
    WalksOver w (lifetimesAll xs w) (ops xs).length fun v i => NeedsAllAt v xs w.position i
  | [], w => by
      simp only [lifetimesAll, NeedsAllAt]
      exact WalksOver.skip w
  | x :: rest, w => by
      have hx := lifetimes_spec x w
      have hrest := lifetimesAll_spec rest (x.lifetimes w)
      rw [hx.position] at hrest
      rw [ops_cons, List.length_append]
      simpa only [lifetimesAll, NeedsAllAt] using hx.trans hrest

end

/-- The lifetime of a tensor covers all positions of the body at which it is alive. -/
theorem covers_of_liveAt {body : List Stmt} {v : ValueId} {i : Nat} (h : LiveAt body v i) :
    (lifetimesAll body {}).live.Covers v i := by
  obtain ⟨j, k, hj, hk, hji, hik⟩ := h
  have hwalk := lifetimesAll_spec body {}
  obtain ⟨t, ht, hfirst, -⟩ := hwalk.covers hj
  obtain ⟨t', ht', -, hlast⟩ := hwalk.covers hk
  rw [ht] at ht'
  cases ht'
  exact ⟨t, ht, by omega, by omega⟩

end Stmt
end Kernel
end FusionCompiler
