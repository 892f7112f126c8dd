import FusionCompiler.Fusion.AxisMap

/-!
# Maps between axes

What giving axes images does to a map: other axes keep their images, and axes
that are given images together have them afterwards.

Main results:

- Theorem `AxisMap.get?_insert`: the image of an axis after one is given.
- Theorem `AxisMap.map_get?_insertAll`: the images of distinct axes after they are
  given together.
-/

namespace FusionCompiler

/-- What is found under a key after a value is put there: in the place of an earlier value if there
is one, else at the end. -/
theorem find?_insertKey {κ β : Type} [DecidableEq κ] (l : List (κ × β)) (k : κ) (b : β) (d : κ) :
    ((if l.any (·.1 == k) then l.map fun p => if p.1 == k then (k, b) else p
      else l ++ [(k, b)]).find? (·.1 == d)).map (·.2) =
      if d = k then some b else (l.find? (·.1 == d)).map (·.2) := by
  split
  case isTrue hmem =>
      have hkey : ((fun p : κ × β => p.1 == d) ∘ fun p => if p.1 == k then (k, b) else p) =
          fun p => p.1 == d := by
        funext p
        by_cases hp : p.1 = k
        · simp [hp]
        · simp [hp]
      rw [List.find?_map, hkey]
      by_cases hd : d = k
      · obtain ⟨p, hp, hpk⟩ := List.any_eq_true.1 hmem
        rw [if_pos hd, hd]
        cases hfind : l.find? fun p => p.1 == k with
        | none => exact absurd hpk (by simpa using List.find?_eq_none.1 hfind p hp)
        | some q =>
            have hq : q.1 = k := by simpa using List.find?_some hfind
            simp [hq]
      · rw [if_neg hd]
        cases hfind : l.find? fun p => p.1 == d with
        | none => rfl
        | some q =>
            have hq : q.1 = d := by simpa using List.find?_some hfind
            simp [hq, hd]
  case isFalse hmem =>
      rw [List.find?_append]
      by_cases hd : d = k
      · have hnone : l.find? (fun p => p.1 == k) = none := by
          rw [List.find?_eq_none]
          intro p hp hpk
          exact hmem (List.any_eq_true.2 ⟨p, hp, hpk⟩)
        simp [hd, hnone]
      · have hlast : ([(k, b)] : List (κ × β)).find? (fun p => p.1 == d) = none := by
          simp [Ne.symm hd]
        rw [hlast, Option.or_none, if_neg hd]

namespace AxisMap

variable {m : AxisMap} {a b c d : AxisId}

theorem mem_images_of_get? (h : m.get? a = some b) : b ∈ m.images := by
  obtain ⟨p, hp, rfl⟩ := Option.map_eq_some_iff.1 h
  exact List.mem_map.2 ⟨p, List.mem_of_find?_eq_some hp, rfl⟩

theorem mem_images_insert (h : d ∈ (m.insert a b).images) : d = b ∨ d ∈ m.images := by
  unfold insert images at h
  split at h
  · obtain ⟨q, hq, rfl⟩ := List.mem_map.1 h
    obtain ⟨p, hp, rfl⟩ := List.mem_map.1 hq
    split
    · exact .inl rfl
    · exact .inr (List.mem_map.2 ⟨p, hp, rfl⟩)
  · rw [List.map_append, List.mem_append] at h
    rcases h with h | h
    · exact .inr h
    · exact .inl (List.mem_singleton.1 h)

theorem get?_insert (m : AxisMap) (a b d : AxisId) :
    (m.insert a b).get? d = if d = a then some b else m.get? d := by
  unfold insert get? contains
  rw [apply_ite pairs]
  exact find?_insertKey m.pairs a b d

theorem contains_iff : m.contains a = true ↔ ∃ b, m.get? a = some b := by
  unfold contains get?
  rw [List.any_eq_true]
  constructor
  · rintro ⟨p, hp, hpa⟩
    cases hfind : m.pairs.find? fun p => p.1 == a with
    | none => exact absurd hpa (by simpa using List.find?_eq_none.1 hfind p hp)
    | some q => exact ⟨q.2, rfl⟩
  · rintro ⟨b, hb⟩
    obtain ⟨q, hq, -⟩ := Option.map_eq_some_iff.1 hb
    have hkey := List.find?_some hq
    exact ⟨q, List.mem_of_find?_eq_some hq, hkey⟩

/-- Gives several axes images, one after another. -/
def insertAll (m : AxisMap) (l : List (AxisId × AxisId)) : AxisMap :=
  l.foldl (fun m p => m.insert p.1 p.2) m

theorem get?_insertAll_of_not_mem {l : List (AxisId × AxisId)} (h : a ∉ l.map (·.1)) :
    (m.insertAll l).get? a = m.get? a := by
  unfold insertAll
  induction l generalizing m with
  | nil => rfl
  | cons p l ih =>
      rw [List.map_cons, List.mem_cons, not_or] at h
      rw [List.foldl_cons, ih h.2, get?_insert, if_neg h.1]

theorem get?_insertAll_zip {as bs : List AxisId} (h : a ∉ as) :
    (m.insertAll (as.zip bs)).get? a = m.get? a := by
  refine get?_insertAll_of_not_mem fun hmem => ?_
  obtain ⟨p, hp, rfl⟩ := List.mem_map.1 hmem
  exact h (List.of_mem_zip hp).1

/-- An axis that has an image keeps one. -/
theorem contains_insert (h : m.contains d = true) : (m.insert a b).contains d = true := by
  obtain ⟨c, hc⟩ := contains_iff.1 h
  rw [contains_iff, get?_insert]
  split
  · exact ⟨b, rfl⟩
  · exact ⟨c, hc⟩

theorem contains_insertAll {l : List (AxisId × AxisId)}
    (h : a ∈ l.map (·.1) ∨ m.contains a = true) : (m.insertAll l).contains a = true := by
  unfold insertAll
  induction l generalizing m with
  | nil => simpa using h
  | cons p l ih =>
      apply ih
      rw [List.map_cons, List.mem_cons] at h
      rcases h with (rfl | h) | h
      · rw [contains_iff, get?_insert, if_pos rfl]
        exact .inr ⟨p.2, rfl⟩
      · exact .inl h
      · exact .inr (contains_insert h)

/-- The first components of a list of pairs have images. -/
theorem contains_ofPairs {l : List (AxisId × AxisId)} (h : a ∈ l.map (·.1)) :
    (ofPairs l).contains a = true :=
  contains_insertAll (m := {}) (.inl h)

/-- The images of distinct axes that are given images together. -/
theorem map_get?_insertAll {as bs : List AxisId} (hnodup : as.Nodup)
    (hlength : as.length = bs.length) :
    as.map (m.insertAll (as.zip bs)).get? = bs.map some := by
  induction as generalizing m bs with
  | nil =>
      cases bs with
      | nil => rfl
      | cons b bs => cases hlength
  | cons a as ih =>
      cases bs with
      | nil => cases hlength
      | cons b bs =>
          obtain ⟨hnot, hnodup⟩ := List.nodup_cons.1 hnodup
          have hfirst : (m.insertAll ((a :: as).zip (b :: bs))).get? a = some b :=
            (get?_insertAll_zip (m := m.insert a b) hnot).trans (by rw [get?_insert, if_pos rfl])
          have hothers : as.map (m.insertAll ((a :: as).zip (b :: bs))).get? = bs.map some :=
            ih hnodup (Nat.succ.inj hlength)
          rw [List.map_cons, List.map_cons, hfirst, hothers]

theorem mem_images_insertAll {l : List (AxisId × AxisId)} (h : d ∈ (m.insertAll l).images) :
    d ∈ l.map (·.2) ∨ d ∈ m.images := by
  unfold insertAll at h
  induction l generalizing m with
  | nil => exact .inr h
  | cons p l ih =>
      rw [List.foldl_cons] at h
      rw [List.map_cons, List.mem_cons]
      rcases ih h with hd | hd
      · exact .inl (.inr hd)
      · rcases mem_images_insert hd with rfl | hd
        · exact .inl (.inl rfl)
        · exact .inr hd

theorem mem_of_get?_insertAll {l : List (AxisId × AxisId)} (h : (m.insertAll l).get? a = some b) :
    (a, b) ∈ l ∨ m.get? a = some b := by
  unfold insertAll at h
  induction l generalizing m with
  | nil => exact .inr h
  | cons p l ih =>
      rcases ih h with hmem | hget
      · exact .inl (List.mem_cons_of_mem p hmem)
      · rw [get?_insert] at hget
        split at hget
        case isTrue ha =>
            cases hget
            exact .inl (ha ▸ List.mem_cons_self)
        case isFalse => exact .inr hget

/-- The map of a list of pairs says nothing else. -/
theorem mem_of_get?_ofPairs {l : List (AxisId × AxisId)} (h : (ofPairs l).get? a = some b) :
    (a, b) ∈ l := by
  rcases mem_of_get?_insertAll (m := {}) h with hmem | hget
  · exact hmem
  · cases hget

/-- The images of a list of pairs are its second components. -/
theorem mem_images_ofPairs {l : List (AxisId × AxisId)} (h : d ∈ (ofPairs l).images) :
    d ∈ l.map (·.2) := by
  rcases mem_images_insertAll (m := {}) h with hd | hd
  · exact hd
  · cases hd

end AxisMap
end FusionCompiler
