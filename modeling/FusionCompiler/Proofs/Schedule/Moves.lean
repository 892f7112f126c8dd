import Mathlib.Data.List.Forall2
import Mathlib.Data.List.Induction
import Mathlib.Data.List.Nodup
import Mathlib.Data.List.Perm.Basic
import FusionCompiler.Schedule.Replay

/-!
# Moving elements of a list

A list of moves names elements and their new positions, each counted from either
end.  Moves are read as positions first.  Then every element that is named takes
its slot, and the elements that are not named go, in their order, into the slots
that are still free.

Main results:

- Theorem `Schedule.readMoves_eq_ok`: a list of moves can be read if its axes
  denote positions, and no position is left or taken twice.
- Theorem `Schedule.applyMoves_fills`: every free slot finds an element, and no
  element is left over.
- Theorem `Schedule.applyMoves_perm`: moving elements permutes them.
-/

namespace FusionCompiler
namespace Schedule

open scoped List

variable {α : Type}

/-! ## Positions of a list -/

/-- Distinct numbers below `n` and the other numbers below `n`. -/
theorem range_perm_append {n : Nat} {l : List Nat} (hnodup : l.Nodup) (hlt : ∀ i ∈ l, i < n) :
    (List.range n).Perm (l ++ (List.range n).filter fun i => !l.contains i) := by
  refine (List.perm_ext_iff_of_nodup List.nodup_range ?_).2 fun i => ?_
  · refine List.nodup_append.2 ⟨hnodup, List.nodup_range.filter _, fun a ha b hb hab => ?_⟩
    subst hab
    have hnot := (List.mem_filter.1 hb).2
    simp [ha] at hnot
  · simp only [List.mem_append, List.mem_filter, List.mem_range, List.contains_eq_mem,
      Bool.not_eq_true', decide_eq_false_iff_not]
    constructor
    · intro hi
      by_cases hmem : i ∈ l
      · exact .inl hmem
      · exact .inr ⟨hi, hmem⟩
    · rintro (hmem | ⟨hi, -⟩)
      · exact hlt i hmem
      · exact hi

/-- The elements at chosen positions, in order. -/
theorem map_filter_zipIdx (l : List α) (q : Nat → Bool) :
    (l.zipIdx.filter fun p => q p.2).map (·.1) =
      ((List.range l.length).filter q).filterMap fun i => l[i]? := by
  induction l using List.reverseRecOn with
  | nil => rfl
  | append_singleton l a ih =>
      have hold : ((List.range l.length).filter q).filterMap (fun i => (l ++ [a])[i]?) =
          ((List.range l.length).filter q).filterMap fun i => l[i]? := by
        refine List.filterMap_congr fun i hi => ?_
        exact List.getElem?_append_left (List.mem_range.1 (List.mem_filter.1 hi).1)
      rw [List.zipIdx_append, List.filter_append, List.map_append, ih, List.length_append,
        List.length_singleton, List.range_succ, List.filter_append, List.filterMap_append, hold]
      by_cases hq : q l.length = true <;> simp [hq]

/-- A list is read at all of its positions. -/
theorem filterMap_range_getElem? (l : List α) :
    (List.range l.length).filterMap (fun i => l[i]?) = l := by
  have h := map_filter_zipIdx l fun _ => true
  simpa using h.symm

/-- Removal keeps the elements at the other positions. -/
theorem removeAt_eq (positions : List Nat) (l : List α) :
    removeAt positions l =
      ((List.range l.length).filter fun i => !positions.contains i).filterMap fun i => l[i]? :=
  map_filter_zipIdx l fun i => !positions.contains i

/-- The elements at distinct positions and the others. -/
theorem perm_append_removeAt {positions : List Nat} {l : List α} (hnodup : positions.Nodup)
    (hlt : ∀ i ∈ positions, i < l.length) :
    l.Perm ((positions.filterMap fun i => l[i]?) ++ removeAt positions l) := by
  have hperm := (range_perm_append hnodup hlt).filterMap fun i => l[i]?
  rw [filterMap_range_getElem?, List.filterMap_append] at hperm
  rw [removeAt_eq]
  exact hperm

/-- The elements at the other positions, one for each. -/
theorem map_some_removeAt (positions : List Nat) (l : List α) :
    (removeAt positions l).map some =
      ((List.range l.length).filter fun i => !positions.contains i).map fun i => l[i]? := by
  have hinside : ∀ i ∈ (List.range l.length).filter fun i => !positions.contains i,
      i < l.length := fun i hi => List.mem_range.1 (List.mem_filter.1 hi).1
  rw [removeAt_eq]
  generalize (List.range l.length).filter (fun i => !positions.contains i) = others at hinside
  induction others with
  | nil => rfl
  | cons i others ih =>
      have hi := List.getElem?_eq_getElem (hinside i List.mem_cons_self)
      rw [List.filterMap_cons_some hi, List.map_cons, List.map_cons, hi,
        ih fun j hj => hinside j (List.mem_cons_of_mem i hj)]

/-! ## Reading moves -/

/-- An axis denotes a position, counted from the front or from the end. -/
def Denotes (n : Nat) (axis : Int) (p : Nat) : Prop :=
  p < n ∧ (axis = p ∨ axis = p - n)

instance (n : Nat) (axis : Int) (p : Nat) : Decidable (Denotes n axis p) :=
  inferInstanceAs (Decidable (_ ∧ _))

/-- An axis denotes one position. -/
theorem Denotes.eq {n p q : Nat} {axis : Int} (hp : Denotes n axis p) (hq : Denotes n axis q) :
    p = q := by
  unfold Denotes at hp hq
  omega

/-- A position that is no less than zero denotes itself. -/
theorem Denotes.of_natCast {n p q : Nat} (h : Denotes n (p : Int) q) : p = q := by
  obtain ⟨hlt, hpos⟩ := h
  omega

/-- An axis is accepted just if it denotes a position. -/
theorem normalizeAxis_eq_ok {n p : Nat} {axis : Int} :
    normalizeAxis axis n = .ok p ↔ Denotes n axis p := by
  unfold normalizeAxis Denotes
  dsimp only
  constructor
  · intro h
    generalize hposition : (if axis < 0 then axis + (n : Int) else axis) = position at h
    split at h
    case isTrue hinside =>
        cases h
        split at hposition <;> omega
    case isFalse => cases h
  · intro h
    have hposition : (if axis < 0 then axis + (n : Int) else axis) = p := by
      split <;> omega
    rw [hposition, if_pos (by omega), Int.toNat_natCast]

/-- An accepted axis is the position of a leaf. -/
theorem normalizeAxis_lt {axis : Int} {n p : Nat} (h : normalizeAxis axis n = .ok p) : p < n :=
  (normalizeAxis_eq_ok.1 h).1

/-- Moves of distinct positions to distinct positions. -/
structure ValidMoves (n : Nat) (moves : List (Nat × Nat)) : Prop where
  old : (moves.map (·.1)).Nodup
  new : (moves.map (·.2)).Nodup
  lt : ∀ m ∈ moves, m.1 < n ∧ m.2 < n

namespace ValidMoves

variable {n : Nat} {moves : List (Nat × Nat)}

/-- No moves are valid. -/
protected theorem nil (n : Nat) : ValidMoves n [] :=
  ⟨List.nodup_nil, List.nodup_nil, by simp⟩

/-- Moved positions are there. -/
theorem old_lt (h : ValidMoves n moves) : ∀ p ∈ moves.map (·.1), p < n := by
  intro p hp
  obtain ⟨m, hm, rfl⟩ := List.mem_map.1 hp
  exact (h.lt m hm).1

/-- The positions moved to are there. -/
theorem new_lt (h : ValidMoves n moves) : ∀ q ∈ moves.map (·.2), q < n := by
  intro q hq
  obtain ⟨m, hm, rfl⟩ := List.mem_map.1 hq
  exact (h.lt m hm).2

/-- The moves back are valid as well. -/
theorem swap (h : ValidMoves n moves) : ValidMoves n (moves.map Prod.swap) := by
  refine ⟨?_, ?_, fun m hm => ?_⟩
  · rw [List.map_map]
    exact h.new
  · rw [List.map_map]
    exact h.old
  · obtain ⟨m', hm', rfl⟩ := List.mem_map.1 hm
    exact (h.lt m' hm').symm

/-- Some moves and one more. -/
theorem append_singleton {m : Nat × Nat} : ValidMoves n (moves ++ [m]) ↔
    ValidMoves n moves ∧ m.1 ∉ moves.map (·.1) ∧ m.2 ∉ moves.map (·.2) ∧ m.1 < n ∧ m.2 < n := by
  constructor
  · rintro ⟨hold, hnew, hlt⟩
    rw [List.map_append, List.nodup_append] at hold hnew
    refine ⟨⟨hold.1, hnew.1, fun m' hm' => hlt m' (List.mem_append_left _ hm')⟩, fun hm => ?_,
      fun hm => ?_, hlt m (by simp)⟩
    · exact hold.2.2 _ hm _ (by simp) rfl
    · exact hnew.2.2 _ hm _ (by simp) rfl
  · rintro ⟨⟨hold, hnew, hlt⟩, hfresh, hfresh', hm⟩
    refine ⟨?_, ?_, ?_⟩
    · rw [List.map_append, List.nodup_append]
      exact ⟨hold, by simp, fun a ha b hb hab => hfresh (by simp_all)⟩
    · rw [List.map_append, List.nodup_append]
      exact ⟨hnew, by simp, fun a ha b hb hab => hfresh' (by simp_all)⟩
    · intro m' hm'
      rcases List.mem_append.1 hm' with hm' | hm'
      · exact hlt m' hm'
      · rwa [List.mem_singleton.1 hm']

/-- The first of valid moves are valid. -/
theorem of_append {rest : List (Nat × Nat)} (h : ValidMoves n (moves ++ rest)) :
    ValidMoves n moves := by
  have hold := h.old
  have hnew := h.new
  rw [List.map_append, List.nodup_append] at hold hnew
  exact ⟨hold.1, hnew.1, fun m hm => h.lt m (List.mem_append_left _ hm)⟩

/-- Valid moves are found by their new position. -/
theorem find?_eq (h : ValidMoves n moves) {m : Nat × Nat} (hm : m ∈ moves) :
    moves.find? (·.2 == m.2) = some m := by
  obtain ⟨m', hm'⟩ := Option.isSome_iff_exists.1
    (List.find?_isSome.2 ⟨m, hm, by simp⟩ : (moves.find? (·.2 == m.2)).isSome = true)
  have hmem := List.mem_of_find?_eq_some hm'
  have heq : m'.2 = m.2 := by simpa using List.find?_some hm'
  rw [hm', List.inj_on_of_nodup_map h.new hmem hm heq]

end ValidMoves

/-- Moves as axes and as the positions that the axes denote. -/
def Positioned (n : Nat) (moves : List (Int × Int)) (positions : List (Nat × Nat)) : Prop :=
  List.Forall₂ (fun m p => Denotes n m.1 p.1 ∧ Denotes n m.2 p.2) moves positions

/-- The moves back go between the same positions. -/
theorem Positioned.swap {n : Nat} {moves : List (Int × Int)} {positions : List (Nat × Nat)}
    (h : Positioned n moves positions) :
    Positioned n (moves.map Prod.swap) (positions.map Prod.swap) := by
  unfold Positioned
  rw [List.forall₂_map_left_iff, List.forall₂_map_right_iff]
  exact h.imp fun _ _ hm => hm.symm

/-- Positions denote themselves. -/
theorem ValidMoves.positioned {n : Nat} {positions : List (Nat × Nat)}
    (h : ValidMoves n positions) :
    Positioned n (positions.map fun p => ((p.1 : Int), (p.2 : Int))) positions := by
  unfold Positioned
  rw [List.forall₂_map_left_iff, List.forall₂_same]
  exact fun p hp => ⟨⟨(h.lt p hp).1, .inl rfl⟩, (h.lt p hp).2, .inl rfl⟩

/-- Moves between positions counted from the front are read as they are. -/
theorem positioned_natCast {n : Nat} {moves positions : List (Nat × Nat)}
    (h : Positioned n (moves.map fun m => ((m.1 : Int), (m.2 : Int))) positions) :
    positions = moves := by
  rw [Positioned, List.forall₂_map_left_iff] at h
  have heq : List.Forall₂ (· = ·) moves positions :=
    h.imp fun m p hm => Prod.ext hm.1.of_natCast hm.2.of_natCast
  rw [List.forall₂_eq_eq_eq] at heq
  exact heq.symm

/-- A list of moves is read as the positions that it denotes, if they go on with valid moves. -/
theorem readMoves_eq_ok {tensor : ValueId} {n : Nat} {seen positions : List (Nat × Nat)}
    {moves : List (Int × Int)} (hseen : ValidMoves n seen) :
    readMoves tensor n seen moves = .ok positions ↔
      ∃ more, Positioned n moves more ∧ positions = seen ++ more ∧ ValidMoves n positions := by
  -- each move that is read joins those seen before, and the checks keep them valid
  induction moves generalizing seen with
  | nil =>
      rw [readMoves]
      constructor
      · rintro ⟨⟩
        exact ⟨[], .nil, (List.append_nil _).symm, hseen⟩
      · rintro ⟨more, ⟨⟩, rfl, -⟩
        rw [List.append_nil]
  | cons m moves ih =>
      obtain ⟨old, new⟩ := m
      have hnone : ∀ {axis e}, normalizeAxis axis n = .error e → ∀ p, ¬ Denotes n axis p := by
        intro axis e he p hp
        rw [normalizeAxis_eq_ok.2 hp] at he
        cases he
      unfold readMoves
      split
      case h_1 e he =>
          refine iff_of_false (by simp) ?_
          rintro ⟨more, hmore, -⟩
          obtain ⟨p, rest, hp, -, -⟩ := List.forall₂_cons_left_iff.1 hmore
          exact hnone he _ hp.1
      case h_2 e he _ =>
          refine iff_of_false (by simp) ?_
          rintro ⟨more, hmore, -⟩
          obtain ⟨p, rest, hp, -, -⟩ := List.forall₂_cons_left_iff.1 hmore
          exact hnone he _ hp.2
      case h_3 p q hp hq =>
          have hp := normalizeAxis_eq_ok.1 hp
          have hq := normalizeAxis_eq_ok.1 hq
          by_cases hvalid : ValidMoves n (seen ++ [(p, q)])
          · obtain ⟨-, hold, hnew, -⟩ := ValidMoves.append_singleton.1 hvalid
            rw [if_neg (by simpa using hold), if_neg (by simpa using hnew), ih hvalid]
            constructor
            · rintro ⟨more, hmore, rfl, hall⟩
              exact ⟨(p, q) :: more, .cons ⟨hp, hq⟩ hmore, by simp, hall⟩
            · rintro ⟨more, hmore, rfl, hall⟩
              obtain ⟨m, rest, ⟨hp', hq'⟩, hrest, rfl⟩ := List.forall₂_cons_left_iff.1 hmore
              obtain rfl : (p, q) = m := Prod.ext (hp.eq hp') (hq.eq hq')
              exact ⟨rest, hrest, by simp, hall⟩
          · refine iff_of_false (fun h => hvalid ?_) ?_
            · split at h
              · cases h
              · split at h
                · cases h
                case isFalse hold hnew =>
                    refine ValidMoves.append_singleton.2 ⟨hseen, ?_, ?_, hp.1, hq.1⟩
                    · simpa using hold
                    · simpa using hnew
            · rintro ⟨more, hmore, rfl, hall⟩
              obtain ⟨m, rest, ⟨hp', hq'⟩, -, rfl⟩ := List.forall₂_cons_left_iff.1 hmore
              obtain rfl : (p, q) = m := Prod.ext (hp.eq hp') (hq.eq hq')
              rw [← List.singleton_append, ← List.append_assoc] at hall
              exact hvalid hall.of_append

/-- Moves that are accepted are valid. -/
theorem readMoves_valid {tensor : ValueId} {n : Nat} {seen positions : List (Nat × Nat)}
    {moves : List (Int × Int)} (hseen : ValidMoves n seen)
    (h : readMoves tensor n seen moves = .ok positions) : ValidMoves n positions := by
  obtain ⟨-, -, -, hvalid⟩ := (readMoves_eq_ok hseen).1 h
  exact hvalid

/-! ## Filling free slots -/

/-- The free slots take the remaining elements in order.  There is no rule for a free slot that
finds no element left, and none for an element that finds no free slot. -/
inductive Fills : List (Option α) → List α → List α → Prop
  | done : Fills [] [] []
  | taken {slots rest l} (a : α) : Fills slots rest l → Fills (some a :: slots) rest (a :: l)
  | free {slots rest l} (a : α) : Fills slots rest l → Fills (none :: slots) (a :: rest) (a :: l)

/-- The slots can be filled if there are as many elements as free slots. -/
theorem fills_fillSlots (slots : List (Option α)) (rest : List α)
    (h : (slots.filter Option.isNone).length = rest.length) :
    Fills slots rest (fillSlots slots rest) := by
  induction slots generalizing rest with
  | nil =>
      obtain rfl : rest = [] := List.length_eq_zero_iff.1 h.symm
      exact .done
  | cons slot slots ih =>
      cases slot with
      | some a => exact .taken a (ih rest (by simpa using h))
      | none =>
          cases rest with
          | nil => simp at h
          | cons b rest => exact .free b (ih rest (by simpa using h))

namespace Fills

variable {slots : List (Option α)} {rest l : List α}

/-- Filling uses what is in the slots and every remaining element. -/
theorem perm (h : Fills slots rest l) : l.Perm (slots.filterMap id ++ rest) := by
  induction h with
  | done => exact .refl _
  | taken a _ ih => exact ih.cons a
  | free a _ ih => exact (ih.cons a).trans List.perm_middle.symm

/-- What is in a slot stays there. -/
theorem getElem?_taken (h : Fills slots rest l) {i : Nat} {a : α} (hi : slots[i]? = some (some a)) :
    l[i]? = some a := by
  induction h generalizing i with
  | done => cases hi
  | taken b _ ih =>
      cases i with
      | zero => simpa using hi
      | succ i => exact ih (by simpa using hi)
  | free b _ ih =>
      cases i with
      | zero => simp at hi
      | succ i => exact ih (by simpa using hi)

/-- The free slots, from the first to the last, hold the remaining elements. -/
theorem map_free (h : Fills slots rest l) {q : Nat → Bool}
    (hq : ∀ i < slots.length, (q i = true ↔ slots[i]? = some none)) :
    ((List.range slots.length).filter q).map (fun i => l[i]?) = rest.map some := by
  -- behind the first slot, positions and with them `q` are shifted by one
  induction h generalizing q with
  | done => rfl
  | taken a _ ih =>
      have hlater := ih (q := fun i => q (i + 1)) fun i hi => by
        simpa using hq (i + 1) (by simpa using hi)
      have hfirst : ¬ q 0 = true := fun h0 => by simpa using (hq 0 (by simp)).1 h0
      rw [List.length_cons, List.range_succ_eq_map, List.filter_cons_of_neg hfirst,
        List.filter_map, List.map_map]
      exact hlater
  | free a _ ih =>
      have hlater := ih (q := fun i => q (i + 1)) fun i hi => by
        simpa using hq (i + 1) (by simpa using hi)
      have hfirst : q 0 = true := (hq 0 (by simp)).2 rfl
      rw [List.length_cons, List.range_succ_eq_map, List.filter_cons_of_pos hfirst,
        List.filter_map, List.map_cons, List.map_map, List.map_cons]
      exact congrArg₂ List.cons rfl hlater

end Fills

/-! ## Moving elements -/

/-- The slots of a list, each with the element that moves there. -/
def slotsOf (moves : List (Nat × Nat)) (l : List α) : List (Option α) :=
  (List.range l.length).map fun i => (moves.find? (·.2 == i)).bind fun m => l[m.1]?

/-- There is one slot for each position. -/
@[simp]
theorem length_slotsOf (moves : List (Nat × Nat)) (l : List α) :
    (slotsOf moves l).length = l.length := by
  simp [slotsOf]

section Slots

variable {moves : List (Nat × Nat)} {l : List α} (h : ValidMoves l.length moves)
include h

/-- A slot moved to has the element moved there. -/
theorem getElem?_slotsOf_of_mem {m : Nat × Nat} (hm : m ∈ moves) :
    (slotsOf moves l)[m.2]? = some l[m.1]? := by
  have hlt := (h.lt m hm).2
  simp [slotsOf, hlt, h.find?_eq hm]

/-- A slot is free if no element moves there. -/
theorem getElem?_slotsOf_eq_none {i : Nat} (hi : i < l.length) :
    (slotsOf moves l)[i]? = some none ↔ i ∉ moves.map (·.2) := by
  constructor
  · intro hnone hmem
    obtain ⟨m, hm, rfl⟩ := List.mem_map.1 hmem
    rw [getElem?_slotsOf_of_mem h hm, List.getElem?_eq_getElem (h.lt m hm).1] at hnone
    cases hnone
  · intro hfree
    have hfind : moves.find? (·.2 == i) = none := by
      refine List.find?_eq_none.2 fun m hm heq => hfree ?_
      exact List.mem_map.2 ⟨m, hm, by simpa using heq⟩
    simp [slotsOf, hi, hfind]

/-- As many slots are free as elements stay unnamed. -/
theorem length_free_slotsOf :
    ((slotsOf moves l).filter Option.isNone).length =
      (removeAt (moves.map (·.1)) l).length := by
  have hfree : ((slotsOf moves l).filter Option.isNone).length =
      ((List.range l.length).filter fun i => !(moves.map (·.2)).contains i).length := by
    rw [slotsOf, List.filter_map, List.length_map]
    congr 1
    refine List.filter_congr fun i hi => ?_
    have hslot := getElem?_slotsOf_eq_none h (List.mem_range.1 hi)
    simp only [slotsOf, List.getElem?_map, List.getElem?_range (List.mem_range.1 hi),
      Option.map_some, Option.some_inj] at hslot
    rw [Bool.eq_iff_iff, Function.comp_apply, Option.isNone_iff_eq_none, hslot]
    simp
  have hnamed := congrArg List.length (map_some_removeAt (moves.map (·.1)) l)
  have hnew := (range_perm_append h.new h.new_lt).length_eq
  have hold := (range_perm_append h.old h.old_lt).length_eq
  simp only [List.length_append, List.length_map] at hnamed hnew hold
  omega

/-- Every free slot finds an element, and no element is left over. -/
theorem applyMoves_fills :
    Fills (slotsOf moves l) (removeAt (moves.map (·.1)) l) (applyMoves moves l) := by
  have hrest : removeAt (moves.map (·.1)) l =
      (l.zipIdx.filter fun p => !moves.any (·.1 == p.2)).map (·.1) := by
    unfold removeAt
    congr 1
    refine List.filter_congr fun p _ => ?_
    rw [Bool.not_inj_iff, Bool.eq_iff_iff, List.any_eq_true, List.contains_iff_mem, List.mem_map]
    simp only [beq_iff_eq]
  have hfills := fills_fillSlots _ _ (length_free_slotsOf h)
  rwa [hrest] at hfills ⊢

/-- The slots hold the elements that are named. -/
theorem filterMap_slotsOf_perm :
    ((slotsOf moves l).filterMap id).Perm ((moves.map (·.1)).filterMap fun i => l[i]?) := by
  have hnamed : (moves.map (·.2)).filterMap
      (fun i => (moves.find? (·.2 == i)).bind fun m => l[m.1]?) =
        (moves.map (·.1)).filterMap fun i => l[i]? := by
    rw [List.filterMap_map, List.filterMap_map]
    refine List.filterMap_congr fun m hm => ?_
    rw [Function.comp_apply, Function.comp_apply, h.find?_eq hm, Option.bind_some]
  have hfree : ((List.range l.length).filter fun i => !(moves.map (·.2)).contains i).filterMap
      (fun i => (moves.find? (·.2 == i)).bind fun m => l[m.1]?) = [] := by
    refine List.filterMap_eq_nil_iff.2 fun i hi => ?_
    obtain ⟨hi, hout⟩ := List.mem_filter.1 hi
    have hslot := (getElem?_slotsOf_eq_none h (List.mem_range.1 hi)).2 (by simpa using hout)
    simpa [slotsOf, List.mem_range.1 hi] using hslot
  have hperm := (range_perm_append h.new h.new_lt).filterMap
    fun i => (moves.find? (·.2 == i)).bind fun m => l[m.1]?
  rw [List.filterMap_append, hnamed, hfree, List.append_nil] at hperm
  rw [slotsOf, List.filterMap_map]
  exact hperm

/-- Moving elements permutes them. -/
theorem applyMoves_perm : (applyMoves moves l).Perm l :=
  calc
    applyMoves moves l
    _ ~ (slotsOf moves l).filterMap id ++ removeAt (moves.map (·.1)) l := (applyMoves_fills h).perm
    _ ~ ((moves.map (·.1)).filterMap fun i => l[i]?) ++ removeAt (moves.map (·.1)) l :=
      (filterMap_slotsOf_perm h).append_right _
    _ ~ l := (perm_append_removeAt h.old h.old_lt).symm

end Slots

/-- Filling slots commutes with a change of the elements. -/
theorem fillSlots_map {α β : Type} (g : α → β) (slots : List (Option α)) (rest : List α) :
    fillSlots (slots.map (Option.map g)) (rest.map g) = (fillSlots slots rest).map g := by
  fun_induction fillSlots slots rest with
  | case1 => rfl
  | case2 a slots rest ih => simpa [fillSlots] using ih
  | case3 slots a rest ih => simpa [fillSlots] using ih
  | case4 slots ih => simpa [fillSlots] using ih

/-- Moves do not look at the elements. -/
theorem applyMoves_map {α β : Type} (g : α → β) (moves : List (Nat × Nat)) (l : List α) :
    applyMoves moves (l.map g) = (applyMoves moves l).map g := by
  unfold applyMoves
  dsimp only
  rw [← fillSlots_map]
  congr 1
  · rw [List.length_map, List.map_map]
    refine List.map_congr_left fun i _ => ?_
    cases hfind : moves.find? (·.2 == i) <;> simp [hfind]
  · rw [List.zipIdx_map, List.filter_map, List.map_map, List.map_map]
    rfl

/-- Related lists stay related when both are moved. -/
theorem forall₂_applyMoves {α β : Type} {R : α → β → Prop} {moves : List (Nat × Nat)} {l : List α}
    {l' : List β} (hvalid : ValidMoves l'.length moves) (h : List.Forall₂ R l l') :
    List.Forall₂ R (applyMoves moves l) (applyMoves moves l') := by
  obtain ⟨hlength, hzip⟩ := List.forall₂_iff_zip.1 h
  have hl : (l.zip l').map Prod.fst = l := List.map_fst_zip (Nat.le_of_eq hlength)
  have hl' : (l.zip l').map Prod.snd = l' := List.map_snd_zip (Nat.le_of_eq hlength.symm)
  have hsame : (l.zip l').length = l'.length := by simp [hlength]
  have hmoved : List.Forall₂ R ((applyMoves moves (l.zip l')).map Prod.fst)
      ((applyMoves moves (l.zip l')).map Prod.snd) := by
    rw [List.forall₂_map_left_iff, List.forall₂_map_right_iff, List.forall₂_same]
    exact fun p hp => hzip ((applyMoves_perm (hsame ▸ hvalid)).mem_iff.1 hp)
  rwa [← applyMoves_map, ← applyMoves_map, hl, hl'] at hmoved

end Schedule
end FusionCompiler
