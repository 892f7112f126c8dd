import FusionCompiler.Proofs.Schedule.Calls

/-!
# Reordering the leaves of a tensor

A reorder names some leaves of a tensor and their new positions.  Which list it
leads to can be said without the two passes over the slots: the named leaves are
at their positions, and the others are at the other positions in their old order.
There is one such list at most, and the moves back lead from it to the old one,
so a reorder and the reorder by the inverse moves cancel out.

Main results:

- Theorem `Schedule.Reordered.eq`: moves name one list.
- Theorem `Schedule.applyMoves_reordered`: applying valid moves leads to it.
- Theorem `Schedule.applyMoves_swap`: the moves back undo the moves.
- Theorems `Schedule.applyMoves_zipIdx` and `Schedule.applyMoves_neighbours`: what moving
  all elements, and exchanging two neighbours, leads to.
- Theorem `Schedule.reorder_permutes`: a reorder that returns leads to it, every
  free slot finds a leaf, and the inverse moves restore the leaves.
-/

namespace FusionCompiler

open Fusion
open scoped List

namespace Schedule

variable {α : Type}

/-! ## The list that moves name -/

/-- The positions that no axis of a list denotes, from the first to the last. -/
def unnamed (n : Nat) (axes : List Int) : List Nat :=
  (List.range n).filter fun p => decide (∀ x ∈ axes, ¬ Denotes n x p)

@[simp]
theorem mem_unnamed {n p : Nat} {axes : List Int} :
    p ∈ unnamed n axes ↔ p < n ∧ ∀ x ∈ axes, ¬ Denotes n x p := by
  simp [unnamed]

theorem exists_mem_of_forall₂ {β : Type} {R : α → β → Prop} {l : List α} {l' : List β}
    (h : List.Forall₂ R l l') {a : α} (ha : a ∈ l) : ∃ b ∈ l', R a b := by
  induction h with
  | nil => cases ha
  | cons hab _ ih =>
      rcases List.mem_cons.1 ha with rfl | ha
      · exact ⟨_, List.mem_cons_self, hab⟩
      · obtain ⟨b, hb, hab⟩ := ih ha
        exact ⟨b, List.mem_cons_of_mem _ hb, hab⟩

/-- A position is among those that axes denote if one of the axes denotes it. -/
theorem mem_iff_denoted {n p : Nat} {axes : List Int} {positions : List Nat}
    (h : List.Forall₂ (Denotes n) axes positions) :
    p ∈ positions ↔ ∃ x ∈ axes, Denotes n x p := by
  constructor
  · exact exists_mem_of_forall₂ h.flip
  · rintro ⟨x, hx, hp⟩
    obtain ⟨q, hq, hdenotes⟩ := exists_mem_of_forall₂ h hx
    rwa [hp.eq hdenotes]

/-- The unnamed positions are those that are not among the denoted ones. -/
theorem unnamed_eq {n : Nat} {axes : List Int} {positions : List Nat}
    (h : List.Forall₂ (Denotes n) axes positions) :
    unnamed n axes = (List.range n).filter fun p => !positions.contains p := by
  refine List.filter_congr fun p _ => ?_
  rw [Bool.eq_iff_iff, decide_eq_true_iff, Bool.not_eq_true', List.contains_eq_mem,
    decide_eq_false_iff_not, mem_iff_denoted h]
  simp only [not_exists, not_and]

/-- What a list becomes when the elements at some positions move to others. -/
structure Reordered (moves : List (Int × Int)) (l l' : List α) : Prop where
  perm : l' ~ l
  /-- Every named element ends at the position named for it. -/
  named : ∀ m ∈ moves, ∃ p q, Denotes l.length m.1 p ∧ Denotes l.length m.2 q ∧ l'[q]? = l[p]?
  /-- The other elements fill the other positions in their old order. -/
  others : (unnamed l.length (moves.map (·.2))).map (fun q => l'[q]?) =
    (unnamed l.length (moves.map (·.1))).map fun p => l[p]?

namespace Reordered

variable {moves : List (Int × Int)} {l l' l₁ l₂ : List α}

/-- The moves back lead from the new list to the old one. -/
theorem swap (h : Reordered moves l l') : Reordered (moves.map Prod.swap) l' l := by
  have hlength := h.perm.length_eq
  refine ⟨h.perm.symm, fun m hm => ?_, ?_⟩
  · obtain ⟨m', hm', rfl⟩ := List.mem_map.1 hm
    obtain ⟨p, q, hp, hq, heq⟩ := h.named m' hm'
    rw [hlength]
    exact ⟨q, p, hq, hp, heq.symm⟩
  · rw [List.map_map, List.map_map, hlength]
    exact h.others.symm

/-- Moves name one list. -/
protected theorem eq (h₁ : Reordered moves l l₁) (h₂ : Reordered moves l l₂) : l₁ = l₂ := by
  refine List.ext_getElem? fun i => ?_
  by_cases hi : i < l.length
  · by_cases hfree : i ∈ unnamed l.length (moves.map (·.2))
    · exact List.map_inj_left.1 (h₁.others.trans h₂.others.symm) i hfree
    · have hnamed : ∃ x ∈ moves.map (·.2), Denotes l.length x i := by
        by_contra hnone
        exact hfree (mem_unnamed.2 ⟨hi, fun x hx hdenotes => hnone ⟨x, hx, hdenotes⟩⟩)
      obtain ⟨_, hx, hdenotes⟩ := hnamed
      obtain ⟨m, hm, rfl⟩ := List.mem_map.1 hx
      obtain ⟨p₁, q₁, hp₁, hq₁, heq₁⟩ := h₁.named m hm
      obtain ⟨p₂, q₂, hp₂, hq₂, heq₂⟩ := h₂.named m hm
      obtain rfl := hp₁.eq hp₂
      obtain rfl := hdenotes.eq hq₁
      obtain rfl := hdenotes.eq hq₂
      rw [heq₁, heq₂]
  · have hend₁ : l₁.length ≤ i := by
      rw [h₁.perm.length_eq]
      exact Nat.le_of_not_lt hi
    have hend₂ : l₂.length ≤ i := by
      rw [h₂.perm.length_eq]
      exact Nat.le_of_not_lt hi
    rw [List.getElem?_eq_none hend₁, List.getElem?_eq_none hend₂]

end Reordered

/-! ## Applying moves -/

/-- Applying moves leads to the list that they name. -/
theorem applyMoves_reordered {moves : List (Int × Int)} {positions : List (Nat × Nat)} {l : List α}
    (h : Positioned l.length moves positions) (hvalid : ValidMoves l.length positions) :
    Reordered moves l (applyMoves positions l) := by
  have hfills := applyMoves_fills hvalid
  have hold : List.Forall₂ (Denotes l.length) (moves.map (·.1)) (positions.map (·.1)) := by
    rw [List.forall₂_map_left_iff, List.forall₂_map_right_iff]
    exact h.imp fun _ _ hm => hm.1
  have hnew : List.Forall₂ (Denotes l.length) (moves.map (·.2)) (positions.map (·.2)) := by
    rw [List.forall₂_map_left_iff, List.forall₂_map_right_iff]
    exact h.imp fun _ _ hm => hm.2
  refine ⟨applyMoves_perm hvalid, fun m hm => ?_, ?_⟩
  · obtain ⟨p, hp, hdenotes⟩ := exists_mem_of_forall₂ h hm
    have hlt := (hvalid.lt p hp).1
    refine ⟨p.1, p.2, hdenotes.1, hdenotes.2, ?_⟩
    have hslot := getElem?_slotsOf_of_mem hvalid hp
    rw [List.getElem?_eq_getElem hlt] at hslot ⊢
    exact hfills.getElem?_taken hslot
  · have hfree := hfills.map_free (q := fun i => !(positions.map (·.2)).contains i) fun i hi => by
      rw [length_slotsOf] at hi
      rw [getElem?_slotsOf_eq_none hvalid hi]
      simp
    rw [unnamed_eq hold, unnamed_eq hnew, ← map_some_removeAt, ← hfree, length_slotsOf]

/-- The moves back undo the moves. -/
theorem applyMoves_swap {positions : List (Nat × Nat)} {l : List α}
    (h : ValidMoves l.length positions) :
    applyMoves (positions.map Prod.swap) (applyMoves positions l) = l := by
  have hreordered := applyMoves_reordered h.positioned h
  have hmoves := h.positioned.swap
  have hvalid := h.swap
  rw [← hreordered.perm.length_eq] at hmoves hvalid
  exact (applyMoves_reordered hmoves hvalid).eq hreordered.swap

/-- Moving all elements puts them in the order of the moves. -/
theorem applyMoves_zipIdx {α : Type} {l : List α} {order : List Nat}
    (hvalid : ValidMoves l.length order.zipIdx) (hlength : order.length = l.length) :
    (applyMoves order.zipIdx l).map some = order.map fun p => l[p]? := by
  have hreordered := applyMoves_reordered hvalid.positioned hvalid
  refine List.ext_getElem (by simp [hreordered.perm.length_eq, hlength]) fun q hq hq' => ?_
  rw [List.getElem_map, List.getElem_map]
  have hlt : q < order.length := by simpa using hq'
  have hmem : (order[q], q) ∈ order.zipIdx := by
    simp [List.mem_zipIdx_iff_getElem?, hlt]
  obtain ⟨p, r, hp, hr, heq⟩ := hreordered.named _ (List.mem_map_of_mem hmem)
  rw [← hp.of_natCast, ← hr.of_natCast] at heq
  rw [← heq, List.getElem?_eq_getElem]

/-- Two neighbours that change places. -/
theorem applyMoves_neighbours {α : Type} (front back : List α) (a b : α) :
    applyMoves [(front.length, front.length + 1), (front.length + 1, front.length)]
      (front ++ a :: b :: back) = front ++ b :: a :: back := by
  have hfirst : front.length < (front ++ a :: b :: back).length := by simp
  have hsecond : front.length + 1 < (front ++ a :: b :: back).length := by simp
  have hvalid : ValidMoves (front ++ a :: b :: back).length
      [(front.length, front.length + 1), (front.length + 1, front.length)] :=
    ⟨by simp, by simp, by simp⟩
  refine (applyMoves_reordered hvalid.positioned hvalid).eq ⟨?_, ?_, ?_⟩
  · exact (List.Perm.swap a b back).append_left front
  · have hget :
        (front ++ b :: a :: back)[front.length]? = (front ++ a :: b :: back)[front.length + 1]? ∧
        (front ++ b :: a :: back)[front.length + 1]? =
          (front ++ a :: b :: back)[front.length]? := by
      simp
    simp only [List.map_cons, List.map_nil, List.forall_mem_cons]
    exact ⟨⟨_, _, ⟨hfirst, .inl rfl⟩, ⟨hsecond, .inl rfl⟩, hget.2⟩,
      ⟨_, _, ⟨hsecond, .inl rfl⟩, ⟨hfirst, .inl rfl⟩, hget.1⟩, by simp⟩
  · have hswap : unnamed (front ++ a :: b :: back).length
          [((front.length + 1 : Nat) : Int), (front.length : Int)] =
        unnamed (front ++ a :: b :: back).length
          [(front.length : Int), ((front.length + 1 : Nat) : Int)] :=
      List.filter_congr fun q _ => by simp [and_comm]
    change List.map _ (unnamed _ [_, _]) = List.map _ (unnamed _ [_, _])
    rw [hswap]
    refine List.map_congr_left fun q hq => ?_
    obtain ⟨-, hfree⟩ := mem_unnamed.1 hq
    have hne : q ≠ front.length := by
      rintro rfl
      exact hfree (front.length : Int) (by simp) ⟨hfirst, .inl rfl⟩
    have hne' : q ≠ front.length + 1 := by
      rintro rfl
      exact hfree ((front.length + 1 : Nat) : Int) (by simp) ⟨hsecond, .inl rfl⟩
    rcases Nat.lt_or_ge q front.length with hlt | hge
    · rw [List.getElem?_append_left hlt, List.getElem?_append_left hlt]
    · obtain ⟨r, rfl⟩ : ∃ r, q = front.length + 2 + r := Nat.exists_eq_add_of_le (by omega)
      rw [List.getElem?_append_right (by omega), List.getElem?_append_right (by omega),
        show front.length + 2 + r - front.length = r + 2 by omega]
      rfl

/-! ## Reordering leaves -/

variable {f f' : Fusion} {tensor : ValueId} {moves : List (Int × Int)} {u : Unit}

/-- A reorder can be made if its axes denote positions, no leaf moves twice, no two leaves move to
one position, and the fixed leaves stay. -/
theorem exists_returns_reorder {positions : List (Nat × Nat)} (htensor : f.isTensor tensor = true)
    (hmoves : Positioned (f.leaf tensor).length moves positions)
    (hvalid : ValidMoves (f.leaf tensor).length positions)
    (hfixed : (applyMoves positions (f.leaf tensor)).take (f.view tensor).fixedPosition =
      (f.leaf tensor).take (f.view tensor).fixedPosition) :
    ∃ f', (reorder tensor moves).Returns f () f' ∧
      f'.leaf tensor = applyMoves positions (f.leaf tensor) := by
  have hread : readMoves tensor (f.leaf tensor).length [] moves = .ok positions :=
    (readMoves_eq_ok (.nil _)).2 ⟨positions, hmoves, rfl, hvalid⟩
  obtain ⟨f', hset⟩ : ∃ f', Edit.Gives
      (setLeaf tensor (applyMoves positions (f.leaf tensor))) f () f' := ⟨_, rfl⟩
  refine ⟨f', returns_reorder_iff.2 ⟨htensor, positions, hread, hfixed, hset⟩, ?_⟩
  exact congrArg TensorView.leaf (view_setLeaf htensor hset).2

/-- A reorder that returns gives a tensor the leaves that the moves name.  On the way every free
slot finds a leaf, and the moves back restore the leaves. -/
theorem reorder_permutes (h : (reorder tensor moves).Returns f u f') :
    Reordered moves (f.leaf tensor) (f'.leaf tensor) ∧
      (∃ positions, readMoves tensor (f.leaf tensor).length [] moves = .ok positions ∧
        Fills (slotsOf positions (f.leaf tensor))
          (removeAt (positions.map (·.1)) (f.leaf tensor)) (f'.leaf tensor)) ∧
      ∃ f'', (reorder tensor (moves.map Prod.swap)).Returns f' () f'' ∧
        f''.leaf tensor = f.leaf tensor := by
  obtain ⟨htensor, positions, hread, hfixed, hset⟩ := returns_reorder_iff.1 h
  obtain ⟨_, hmoves, rfl, hvalid⟩ := (readMoves_eq_ok (.nil _)).1 hread
  obtain ⟨htensor', hview⟩ := view_setLeaf htensor hset
  have hleaf : f'.leaf tensor = applyMoves positions (f.leaf tensor) :=
    congrArg TensorView.leaf hview
  have hback : applyMoves (positions.map Prod.swap) (f'.leaf tensor) = f.leaf tensor := by
    rw [hleaf, applyMoves_swap hvalid]
  have hlength : (f'.leaf tensor).length = (f.leaf tensor).length := by
    rw [hleaf, (applyMoves_perm hvalid).length_eq]
  -- the moves back keep the fixed leaves, because the moves did
  have hfixedBack : (f.leaf tensor).take (f'.view tensor).fixedPosition =
      (f'.leaf tensor).take (f'.view tensor).fixedPosition := by
    rw [hleaf, hview]
    exact hfixed.symm
  obtain ⟨f'', hreturns, hrestored⟩ := exists_returns_reorder htensor' (hlength ▸ hmoves.swap)
    (hlength ▸ hvalid.swap) (by rwa [hback])
  refine ⟨?_, ⟨positions, hread, ?_⟩, f'', hreturns, hrestored.trans hback⟩
  · rw [hleaf]
    exact applyMoves_reordered hmoves hvalid
  · rw [hleaf]
    exact applyMoves_fills hvalid

/-- Two negations of a box.  The first one is inlined into the second, which fixes its first leaf.
-/
def negatedBox : List Call :=
  [.tensor [2, 3, 4, 5] [true, true, true, true] .float, .input ⟨0⟩, .unary .neg (.value ⟨0⟩),
    .unary .neg (.value ⟨13⟩), .output ⟨18⟩, .computeAt ⟨13⟩ ⟨18⟩ 1]

/-- The last leaf moves to the second position, and the third one, which is the second last, stays.
The two leaves that are not named go around them. -/
theorem negatedBox_permuted :
    ∃ f f', applyAll Schedule.replay negatedBox {} = some f ∧ (f.view ⟨13⟩).fixedPosition = 1 ∧
      f.leaf ⟨13⟩ = [⟨4⟩, ⟨5⟩, ⟨6⟩, ⟨7⟩] ∧
      (reorder ⟨13⟩ [(-1, 1), (2, -2)]).Returns f () f' ∧
      f'.leaf ⟨13⟩ = [⟨4⟩, ⟨7⟩, ⟨6⟩, ⟨5⟩] ∧
      Reordered [(-1, 1), (2, -2)] (f.leaf ⟨13⟩) (f'.leaf ⟨13⟩) ∧
      (∃ positions, readMoves ⟨13⟩ (f.leaf ⟨13⟩).length [] [(-1, 1), (2, -2)] = .ok positions ∧
        Fills (slotsOf positions (f.leaf ⟨13⟩))
          (removeAt (positions.map (·.1)) (f.leaf ⟨13⟩)) (f'.leaf ⟨13⟩)) ∧
      ∃ f'', (reorder ⟨13⟩ [(1, -1), (-2, 2)]).Returns f' () f'' ∧
        f''.leaf ⟨13⟩ = f.leaf ⟨13⟩ := by
  have hrun : (applyAll Schedule.replay negatedBox {}).any (fun f =>
      decide ((f.view ⟨13⟩).fixedPosition = 1 ∧ f.leaf ⟨13⟩ = [⟨4⟩, ⟨5⟩, ⟨6⟩, ⟨7⟩]) &&
        match (reorder ⟨13⟩ [(-1, 1), (2, -2)]).run.run f with
        | (.ok _, f') => decide (f'.leaf ⟨13⟩ = [⟨4⟩, ⟨7⟩, ⟨6⟩, ⟨5⟩])
        | _ => false) = true := by
    cbv
  obtain ⟨f, hf, hfacts⟩ := (Option.any_eq_true _ _).1 hrun
  obtain ⟨hbefore, hafter⟩ := Bool.and_eq_true_iff.1 hfacts
  obtain ⟨hfixed, hleaf⟩ := of_decide_eq_true hbefore
  split at hafter
  case h_2 => cases hafter
  case h_1 f' hreturns =>
      exact ⟨f, f', hf, hfixed, hleaf, hreturns, of_decide_eq_true hafter,
        reorder_permutes hreturns⟩

end Schedule
end FusionCompiler
