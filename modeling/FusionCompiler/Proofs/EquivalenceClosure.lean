import Mathlib.Data.List.Induction
import Mathlib.Data.List.Sort
import Mathlib.Logic.Relation
import Mathlib.Order.Bounds.Defs
import Mathlib.Order.RelClasses
import FusionCompiler.Proofs.DisjointSets

/-!
# Partitions as equivalence closures

A partition that is built from nothing by insertions and unions is the
equivalence closure of its unions: two elements are in one class exactly when a
chain of unions links them.  The name of a class is its least member, so what
comes out does not depend on the order of the calls.

The proof carries one invariant through the calls (`Represents`).  It says that
names stay inside the closure, that united elements share a name, that every name
is its own name, and that no element is below its name.

Main results:

- Theorem `DisjointSets.Least.union`: joining two classes keeps the least names.
- Theorem `DisjointSets.Represents.step`: what one call does to the invariant.
- Theorem `DisjointSets.represents_build`: the invariant after any calls.
- Theorem `DisjointSets.Represents.entries_eq`: the invariant determines the
  partition.
- Theorem `DisjointSets.build_isClosure`: the classes are those of the closure,
  named by their least members, whatever the order of the calls.
-/

namespace FusionCompiler
namespace DisjointSets

/-! ## Sequences of calls -/

/-- A call that changes a partition. -/
inductive Edit (α : Type) where
  | insert (x : α)
  | union (a b : α)
deriving DecidableEq

section Running

variable {α : Type} [DecidableEq α] [LT α] [DecidableLT α]

/-- What a call makes of a partition. -/
def Edit.apply (s : DisjointSets α) : Edit α → DisjointSets α
  | .insert x => s.insert x
  | .union a b => s.union a b

/-- The partition that a sequence of calls builds from nothing. -/
def build (edits : List (Edit α)) : DisjointSets α :=
  edits.foldl Edit.apply empty

/-- An edit more is applied to what the others have built. -/
theorem build_append (edits : List (Edit α)) (e : Edit α) :
    build (edits ++ [e]) = e.apply (build edits) := by
  simp [build]

end Running

section Closure

variable {α : Type} {edits edits' : List (Edit α)}

/-- The element is inserted by one of the calls; a union inserts both its elements. -/
def Inserted (edits : List (Edit α)) (x : α) : Prop :=
  .insert x ∈ edits ∨ ∃ y, .union x y ∈ edits ∨ .union y x ∈ edits

/-- One of the calls is the union of the two elements. -/
def United (edits : List (Edit α)) (a b : α) : Prop :=
  .union a b ∈ edits ∨ .union b a ∈ edits

/-- The reflexive, symmetric and transitive closure of the unions. -/
def Joined (edits : List (Edit α)) : α → α → Prop :=
  Relation.EqvGen (United edits)

/-- What is recorded together is an equivalence. -/
theorem joined_equivalence (edits : List (Edit α)) : Equivalence (Joined edits) :=
  Relation.EqvGen.is_equivalence _

/-- More unions join more. -/
theorem Joined.mono (hmade : ∀ a b, United edits a b → United edits' a b) {a b : α}
    (h : Joined edits a b) : Joined edits' a b :=
  Relation.EqvGen.mono hmade _ _ h

/-- What is joined stays joined. -/
theorem Joined.append {a b : α} (h : Joined edits a b) (e : Edit α) :
    Joined (edits ++ [e]) a b :=
  h.mono fun _ _ => Or.imp (List.mem_append_left _) (List.mem_append_left _)

/-- An element that is joined to another one has been inserted. -/
theorem Joined.eq_or_inserted {a b : α} (h : Joined edits a b) :
    a = b ∨ Inserted edits a ∧ Inserted edits b := by
  induction h with
  | rel a b hab =>
      refine .inr ⟨.inr ⟨b, hab⟩, .inr ⟨a, hab.symm⟩⟩
  | refl a => exact .inl rfl
  | symm a b _ ih => exact ih.imp Eq.symm And.symm
  | trans a b c _ _ ih₁ ih₂ =>
      rcases ih₁ with rfl | ⟨ha, hb⟩
      · exact ih₂
      · rcases ih₂ with rfl | ⟨-, hc⟩
        · exact .inr ⟨ha, hb⟩
        · exact .inr ⟨ha, hc⟩

/-- An inserted element is the new one or an old one. -/
theorem inserted_append_insert {x y : α} :
    Inserted (edits ++ [.insert x]) y ↔ y = x ∨ Inserted edits y := by
  simp only [Inserted, List.mem_append, List.mem_singleton, Edit.insert.injEq, reduceCtorEq,
    or_false]
  rw [or_assoc, or_left_comm]

/-- A union inserts both of its elements. -/
theorem inserted_append_union {a b y : α} :
    Inserted (edits ++ [.union a b]) y ↔ y = b ∨ y = a ∨ Inserted edits y := by
  simp only [Inserted, List.mem_append, List.mem_singleton, Edit.union.injEq, reduceCtorEq,
    or_false]
  constructor
  · rintro (hy | ⟨z, (hz | ⟨rfl, -⟩) | (hz | ⟨-, rfl⟩)⟩)
    · exact .inr (.inr (.inl hy))
    · exact .inr (.inr (.inr ⟨z, .inl hz⟩))
    · exact .inr (.inl rfl)
    · exact .inr (.inr (.inr ⟨z, .inr hz⟩))
    · exact .inl rfl
  · rintro (rfl | rfl | hy | ⟨z, hz | hz⟩)
    · exact .inr ⟨a, .inr (.inr ⟨rfl, rfl⟩)⟩
    · exact .inr ⟨b, .inl (.inr ⟨rfl, rfl⟩)⟩
    · exact .inl hy
    · exact .inr ⟨z, .inl (.inl hz)⟩
    · exact .inr ⟨z, .inr (.inl hz)⟩

end Closure

/-! ## Least names -/

section Least

variable {α : Type} [LinearOrder α] {s : DisjointSets α}

/-- No element is below the name of its class. -/
def Least (s : DisjointSets α) : Prop :=
  ∀ x ∈ s.entries, x.2 ≤ x.1

namespace Least

/-- Nothing is there. -/
protected theorem empty : Least (empty : DisjointSets α) := by
  intro x hx
  cases hx

/-- A search leads to an element that is no larger. -/
protected theorem find (h : Least s) (x : α) : s.find x ≤ x := by
  unfold DisjointSets.find
  cases hx : lookup x s.entries with
  | none => exact le_rfl
  | some r => exact h _ (mem_of_lookup hx)

/-- A new element names itself. -/
protected theorem insert (h : Least s) (x : α) : Least (s.insert x) := by
  intro y hy
  rcases mem_insertEntry hy with rfl | hy
  · exact le_rfl
  · exact h y hy

/-- A class may take a smaller name. -/
theorem rename (h : Least s) {old new : α} (hle : new ≤ old) :
    Least ⟨DisjointSets.rename old new s.entries⟩ := by
  intro y hy
  obtain ⟨⟨k, r⟩, hmem, rfl⟩ := List.mem_map.1 hy
  have hr : r ≤ k := h _ hmem
  dsimp only
  split
  case isTrue heq => exact hle.trans (heq ▸ hr)
  case isFalse => exact hr

/-- Joining two classes keeps the least names: the smaller name wins. -/
protected theorem union (h : Least s) (a b : α) : Least (s.union a b) := by
  have ht : Least ((s.insert a).insert b) := (h.insert a).insert b
  unfold DisjointSets.union
  dsimp only
  split
  · exact ht
  · split
    case isTrue hlt => exact ht.rename hlt.le
    case isFalse hnlt => exact ht.rename (not_lt.1 hnlt)

end Least
end Least

/-! ## Inserted elements -/

section Known

variable {α : Type} [DecidableEq α] {s : DisjointSets α}

/-- The elements of the partition. -/
theorem contains_iff_exists {x : α} : s.contains x = true ↔ ∃ r, (x, r) ∈ s.entries :=
  contains_iff.trans ⟨fun h => ⟨_, h⟩, fun ⟨_, h⟩ => mem_of_known h⟩

/-- Renaming a class keeps its elements. -/
theorem contains_rename {x : α} (old new : α) (s : DisjointSets α) :
    contains ⟨rename old new s.entries⟩ x = true ↔ s.contains x = true := by
  rw [contains_iff_exists, contains_iff_exists]
  constructor
  · rintro ⟨r, hr⟩
    obtain ⟨⟨k, q⟩, hq, heq⟩ := List.mem_map.1 hr
    obtain ⟨rfl, -⟩ := Prod.mk.inj heq
    exact ⟨q, hq⟩
  · rintro ⟨r, hr⟩
    exact ⟨_, List.mem_map.2 ⟨_, hr, rfl⟩⟩

variable [LT α] [DecidableLT α]

/-- An insertion adds its element and no other. -/
theorem contains_insert {x y : α} :
    (s.insert x).contains y = true ↔ y = x ∨ s.contains y = true := by
  rw [contains_iff_exists, contains_iff_exists]
  constructor
  · rintro ⟨r, hr⟩
    rcases mem_insertEntry hr with heq | hr
    · exact .inl (Prod.mk.inj heq).1
    · exact .inr ⟨r, hr⟩
  · rintro (rfl | ⟨r, hr⟩)
    · exact exists_mem_insert s y
    · exact ⟨r, mem_insertEntry_of_mem hr⟩

/-- A union adds its two elements and no others. -/
theorem contains_union {a b y : α} :
    (s.union a b).contains y = true ↔ y = b ∨ y = a ∨ s.contains y = true := by
  have ht : ((s.insert a).insert b).contains y = true ↔ y = b ∨ y = a ∨ s.contains y = true := by
    rw [contains_insert, contains_insert]
  unfold union
  dsimp only
  split
  · exact ht
  · split
    · exact (contains_rename _ _ _).trans ht
    · exact (contains_rename _ _ _).trans ht

end Known

/-! ## The invariant of a sequence of calls -/

variable {α : Type} [LinearOrder α] {edits edits' : List (Edit α)} {s s' : DisjointSets α}

/-- The partition holds what the calls have inserted and united. -/
structure Represents (edits : List (Edit α)) (s : DisjointSets α) : Prop where
  ordered : Ordered s
  rooted : Rooted s
  least : Least s
  within : Within (Joined edits) s
  together : ∀ a b, .union a b ∈ edits → Together s a b
  known : ∀ x, s.contains x = true ↔ Inserted edits x

/-- Without edits every element is alone. -/
theorem represents_empty : Represents [] (empty : DisjointSets α) where
  ordered := Ordered.empty
  rooted := Rooted.empty
  least := Least.empty
  within := Within.empty
  together a b h := absurd h List.not_mem_nil
  known x := by simp [Inserted, contains, empty, lookup]

/-- A further call keeps the invariant. -/
theorem Represents.step (h : Represents edits s) (e : Edit α) :
    Represents (edits ++ [e]) (e.apply s) := by
  have hwithin : Within (Joined (edits ++ [e])) s := fun x hx => (h.within x hx).append e
  have hequiv := joined_equivalence (edits ++ [e])
  cases e with
  | insert x =>
      refine ⟨h.ordered.insert x, h.rooted.insert x, h.least.insert x, hwithin.insert hequiv x,
        fun a b hab => ?_, fun y => ?_⟩
      · exact (h.together a b (by simpa using hab)).insert x
      · rw [Edit.apply, contains_insert, h.known y, inserted_append_insert]
  | union a b =>
      have hab : Joined (edits ++ [.union a b]) a b :=
        .rel a b (.inl (List.mem_append_right _ List.mem_cons_self))
      refine ⟨h.ordered.union a b, h.rooted.union a b, h.least.union a b, hwithin.union hequiv hab,
        fun c d hcd => ?_, fun y => ?_⟩
      · rcases List.mem_append.1 hcd with hcd | hcd
        · exact (h.together c d hcd).union a b
        · cases List.mem_singleton.1 hcd
          exact together_union s a b
      · rw [Edit.apply, contains_union, h.known y, inserted_append_union]

/-- What any sequence of calls builds represents it. -/
theorem represents_build (edits : List (Edit α)) : Represents edits (build edits) := by
  induction edits using List.reverseRecOn with
  | nil => exact represents_empty
  | append_singleton edits e ih =>
      rw [build_append]
      exact ih.step e

/-! ## What the invariant says -/

namespace Represents

/-- An element is joined to the name of its class. -/
theorem joined_find (h : Represents edits s) (a : α) : Joined edits a (s.find a) :=
  h.within.find (joined_equivalence edits) a

/-- Joined elements have one name. -/
theorem find_eq (h : Represents edits s) {a b : α} (hab : Joined edits a b) :
    s.find a = s.find b := by
  induction hab with
  | rel a b hab =>
      rcases hab with hab | hba
      · exact (h.together a b hab).find_eq h.ordered
      · exact ((h.together b a hba).find_eq h.ordered).symm
  | refl a => rfl
  | symm a b _ ih => exact ih.symm
  | trans a b c _ _ ih₁ ih₂ => exact ih₁.trans ih₂

/-- Two elements have the same name just if they are joined. -/
theorem find_eq_iff (h : Represents edits s) {a b : α} :
    s.find a = s.find b ↔ Joined edits a b := by
  refine ⟨fun heq => ?_, h.find_eq⟩
  have hequiv := joined_equivalence edits
  exact hequiv.trans (h.joined_find a) (heq ▸ hequiv.symm (h.joined_find b))

/-- The test for one class is exact. -/
theorem same_iff (h : Represents edits s) {a b : α} :
    s.same a b = true ↔ Joined edits a b := by
  rw [← h.find_eq_iff]
  simp only [same, Bool.or_eq_true, decide_eq_true_eq]
  exact ⟨fun hor => hor.elim (congrArg s.find) id, .inr⟩

/-- The name of a class is its least element. -/
theorem find_le (h : Represents edits s) {a b : α} (hab : Joined edits a b) : s.find a ≤ b :=
  h.find_eq hab ▸ h.least.find b

/-- The name of a class depends on the closure only. -/
theorem find_unique (h : Represents edits s) {a r : α} (hr : Joined edits a r)
    (hle : ∀ b, Joined edits a b → r ≤ b) : s.find a = r :=
  le_antisymm (h.find_le hr) (hle _ (h.joined_find a))

/-- The entries are the inserted elements with their names. -/
theorem mem_entries_iff (h : Represents edits s) {x : α × α} :
    x ∈ s.entries ↔ Inserted edits x.1 ∧ s.find x.1 = x.2 := by
  rw [← h.known, contains_iff]
  constructor
  · intro hx
    have hfind := mem_of_known (a := x.1) (r := x.2) hx
    exact ⟨hfind, h.ordered.eq_of_mem hfind hx⟩
  · rintro ⟨hmem, heq⟩
    rw [heq] at hmem
    exact hmem

/-- The inserted elements and the closure determine the entries. -/
theorem entries_eq (h : Represents edits s) (h' : Represents edits' s')
    (hinserted : ∀ x, Inserted edits' x ↔ Inserted edits x)
    (hjoined : ∀ a b, Joined edits' a b ↔ Joined edits a b) : s'.entries = s.entries := by
  have hfind : ∀ a, s'.find a = s.find a := fun a =>
    h'.find_unique ((hjoined _ _).2 (h.joined_find a)) fun b hb => h.find_le ((hjoined _ _).1 hb)
  have hmem : ∀ x, x ∈ s'.entries ↔ x ∈ s.entries := by
    intro x
    rw [h'.mem_entries_iff, h.mem_entries_iff, hinserted, hfind]
  have hperm : s'.entries.Perm s.entries :=
    (List.perm_ext_iff_of_nodup (h'.ordered.imp fun hlt heq => hlt.ne (congrArg Prod.fst heq))
      (h.ordered.imp fun hlt heq => hlt.ne (congrArg Prod.fst heq))).2 hmem
  refine hperm.eq_of_pairwise (fun x y _ _ hxy hyx => ?_) h'.ordered h.ordered
  exact absurd hxy hyx.asymm

/-- The partition is determined by the inserted elements and the closure. -/
protected theorem eq (h : Represents edits s) (h' : Represents edits' s')
    (hinserted : ∀ x, Inserted edits' x ↔ Inserted edits x)
    (hjoined : ∀ a b, Joined edits' a b ↔ Joined edits a b) : s' = s :=
  congrArg DisjointSets.mk (h.entries_eq h' hinserted hjoined)

end Represents

/-! ## Looking for a representative -/

/-- One turn of the search for a representative: from an element to the name
recorded for it, unless that is the element itself. -/
def Climbs (s : DisjointSets α) (x y : α) : Prop :=
  lookup x s.entries = some y ∧ y ≠ x

/-- A search takes a step just from an element that is not its own name. -/
theorem climbs_iff {x y : α} : Climbs s x y ↔ y = s.find x ∧ y ≠ x := by
  unfold Climbs find
  cases hx : lookup x s.entries with
  | none => simp
  | some r => simp [eq_comm]

namespace Represents

/-- Every recorded name is recorded as its own name. -/
theorem lookup_name (h : Represents edits s) {x r : α} (hr : lookup x s.entries = some r) :
    lookup r s.entries = some r := by
  have hroot := h.rooted _ (mem_of_lookup hr)
  obtain ⟨q, hq⟩ := exists_lookup hroot
  rw [hq, h.ordered.eq_of_mem (mem_of_lookup hq) hroot]

/-- A search ends at the name of the class. -/
theorem not_climbs_find (h : Represents edits s) (a y : α) : ¬ Climbs s (s.find a) y := by
  rw [climbs_iff, find_find h.ordered h.rooted]
  exact fun hy => hy.2 hy.1

/-- The search for a representative ends. -/
theorem acc_climbs (h : Represents edits s) (a : α) : Acc (fun y x => Climbs s x y) a := by
  refine ⟨_, fun y hy => ⟨_, fun z hz => ?_⟩⟩
  obtain ⟨rfl, -⟩ := climbs_iff.1 hy
  exact absurd hz (h.not_climbs_find a z)

/-- Where the search cannot go on, it has found the name of the class. -/
theorem eq_find_of_climbs (h : Represents edits s) {a b : α}
    (hab : Relation.ReflTransGen (Climbs s) a b) (hend : ∀ c, ¬ Climbs s b c) :
    b = s.find a := by
  induction hab using Relation.ReflTransGen.head_induction_on with
  | refl =>
      by_contra hne
      exact hend (s.find b) (climbs_iff.2 ⟨rfl, Ne.symm hne⟩)
  | head hstep _ ih =>
      obtain ⟨rfl, -⟩ := climbs_iff.1 hstep
      rw [ih, find_find h.ordered h.rooted]

/-- The search goes on until it has found the name. -/
theorem search_iff (h : Represents edits s) {a b : α} :
    (Relation.ReflTransGen (Climbs s) a b ∧ ∀ c, ¬ Climbs s b c) ↔ b = s.find a := by
  refine ⟨fun hb => h.eq_find_of_climbs hb.1 hb.2, ?_⟩
  rintro rfl
  refine ⟨?_, h.not_climbs_find a⟩
  by_cases hself : s.find a = a
  · rw [hself]
  · exact .single (climbs_iff.2 ⟨rfl, hself⟩)

/-! ## Members and classes -/

/-- The members under a name are sorted. -/
theorem pairwise_membersOf (h : Represents edits s) (name : α) :
    (s.membersOf name).Pairwise (· < ·) :=
  List.pairwise_map.2 (h.ordered.filter _)

/-- The names are sorted. -/
theorem pairwise_names (h : Represents edits s) : s.names.Pairwise (· < ·) :=
  List.pairwise_map.2 (h.ordered.filter _)

/-- The members under the name of an element are what was inserted and is joined with it. -/
theorem mem_membersOf_find (h : Represents edits s) {a b : α} :
    b ∈ s.membersOf (s.find a) ↔ Inserted edits b ∧ Joined edits a b := by
  rw [mem_membersOf_iff h.ordered, h.known, eq_comm, h.find_eq_iff]

/-- The representatives are the inserted elements that name themselves. -/
theorem mem_names_iff (h : Represents edits s) {r : α} :
    r ∈ s.names ↔ Inserted edits r ∧ s.find r = r := by
  constructor
  · intro hr
    obtain ⟨⟨k, q⟩, hmem, rfl⟩ := List.mem_map.1 hr
    obtain ⟨hmem, heq⟩ := List.mem_filter.1 hmem
    have hq : q = k := by simpa using heq
    exact h.mem_entries_iff.1 (hq ▸ hmem)
  · intro hr
    exact List.mem_map.2 ⟨(r, r), List.mem_filter.2 ⟨h.mem_entries_iff.2 hr, by simp⟩, rfl⟩

/-- What was not inserted is alone. -/
theorem members_eq_singleton (h : Represents edits s) {a : α} (ha : ¬ Inserted edits a) :
    s.members a = [a] := by
  have hnil : s.membersOf (s.find a) = [] := by
    refine List.eq_nil_iff_forall_not_mem.2 fun b hb => ha ?_
    obtain ⟨hb, hab⟩ := h.mem_membersOf_find.1 hb
    rcases hab.eq_or_inserted with rfl | ⟨ha, -⟩
    · exact hb
    · exact ha
  rw [members, hnil]

/-- The members of an inserted element are those under its name. -/
theorem members_eq_membersOf (h : Represents edits s) {a : α} (ha : Inserted edits a) :
    s.members a = s.membersOf (s.find a) := by
  have hmem : a ∈ s.membersOf (s.find a) :=
    h.mem_membersOf_find.2 ⟨ha, (joined_equivalence edits).refl a⟩
  rw [members]
  split
  case h_1 hnil =>
      rw [hnil] at hmem
      cases hmem
  case h_2 => rfl

/-- Members are sorted. -/
theorem pairwise_members (h : Represents edits s) (a : α) :
    (s.members a).Pairwise (· < ·) := by
  by_cases ha : Inserted edits a
  · rw [h.members_eq_membersOf ha]
    exact h.pairwise_membersOf _
  · rw [h.members_eq_singleton ha]
    exact List.pairwise_singleton _ _

/-- The members of a class are what is joined to its elements. -/
theorem mem_members_iff (h : Represents edits s) {a b : α} :
    b ∈ s.members a ↔ Joined edits a b := by
  by_cases ha : Inserted edits a
  · rw [h.members_eq_membersOf ha, h.mem_membersOf_find]
    refine ⟨And.right, fun hab => ⟨?_, hab⟩⟩
    rcases hab.eq_or_inserted with rfl | ⟨-, hb⟩
    · exact ha
    · exact hb
  · rw [h.members_eq_singleton ha, List.mem_singleton]
    constructor
    · rintro rfl
      exact (joined_equivalence edits).refl b
    · intro hab
      rcases hab.eq_or_inserted with rfl | ⟨ha', -⟩
      · rfl
      · exact absurd ha' ha

/-- The classes are the members under each name. -/
theorem classes_eq (h : Represents edits s) : s.classes = s.names.map s.members := by
  refine List.map_congr_left fun r hr => ?_
  obtain ⟨hr, hname⟩ := h.mem_names_iff.1 hr
  rw [h.members_eq_membersOf hr, hname]

end Represents

/-! ## The closure -/

/-- The partition is the equivalence closure of the unions among the calls, with
classes that are named by their least members. -/
structure IsClosure (edits : List (Edit α)) (s : DisjointSets α) : Prop where
  /-- Being in one class is the closure of the unions. -/
  same_iff : ∀ a b, s.same a b = true ↔ Joined edits a b
  /-- The name of a class is its least member. -/
  find_isLeast : ∀ a, IsLeast {b | Joined edits a b} (s.find a)
  /-- The search that follows the recorded names ends. -/
  search_ends : ∀ a, Acc (fun y x => Climbs s x y) a
  /-- The search stops at the name of the class, and nowhere else. -/
  search_finds : ∀ a b, (Relation.ReflTransGen (Climbs s) a b ∧ ∀ c, ¬ Climbs s b c) ↔ b = s.find a
  /-- Every recorded name is itself a representative. -/
  recorded : ∀ a r, lookup a s.entries = some r → lookup r s.entries = some r ∧ s.find r = r
  /-- The members of a class are listed in order. -/
  members_sorted : ∀ a, (s.members a).Pairwise (· < ·)
  mem_members : ∀ a b, b ∈ s.members a ↔ Joined edits a b
  /-- The classes of the inserted elements are listed once each, in the order of
  their representatives. -/
  classes_sorted : ∃ names : List α, names.Pairwise (· < ·) ∧
    (∀ r, r ∈ names ↔ Inserted edits r ∧ s.find r = r) ∧ s.classes = names.map s.members

/-- A table that represents edits is the closure of their unions. -/
theorem Represents.isClosure (h : Represents edits s) : IsClosure edits s where
  same_iff _ _ := h.same_iff
  find_isLeast a := ⟨h.joined_find a, fun _ hb => h.find_le hb⟩
  search_ends := h.acc_climbs
  search_finds _ _ := h.search_iff
  recorded a r hr := by
    have hname := h.lookup_name hr
    exact ⟨hname, by rw [find, hname, Option.getD_some]⟩
  members_sorted := h.pairwise_members
  mem_members _ _ := h.mem_members_iff
  classes_sorted := ⟨s.names, h.pairwise_names, fun _ => h.mem_names_iff, h.classes_eq⟩

/-- Any sequence of insertions and unions builds the equivalence closure of its
unions.  Calls that insert the same elements and unite the same pairs build the
same partition, in whatever order and however often they are made. -/
theorem build_isClosure (edits : List (Edit α)) :
    IsClosure edits (build edits) ∧
      ∀ edits' : List (Edit α), (∀ x, Inserted edits' x ↔ Inserted edits x) →
        (∀ a b, United edits' a b ↔ United edits a b) → build edits' = build edits := by
  have h := represents_build edits
  refine ⟨h.isClosure, fun edits' hinserted hunited => ?_⟩
  refine h.eq (represents_build edits') hinserted fun a b => ⟨?_, ?_⟩
  · exact fun hab => hab.mono fun c d => (hunited c d).1
  · exact fun hab => hab.mono fun c d => (hunited c d).2

/-- Two classes, the larger one put together by two unions. -/
def twoClasses : List (Edit Nat) :=
  [.union 3 1, .insert 5, .union 4 3]

/-- The same unions in another order, one of them made twice. -/
def twoClassesReordered : List (Edit Nat) :=
  [.union 3 4, .insert 5, .insert 1, .union 1 3, .union 3 1]

/-- Two classes, built in two orders. -/
theorem twoClasses_isClosure :
    IsClosure twoClasses (build twoClasses) ∧
      build twoClassesReordered = build twoClasses ∧
      (build twoClasses).entries = [(1, 1), (3, 1), (4, 1), (5, 5)] ∧
      (build twoClasses).classes = [[1, 3, 4], [5]] := by
  have hinserted : ∀ x, Inserted twoClassesReordered x ↔ Inserted twoClasses x := by
    intro x
    simp [Inserted, twoClasses, twoClassesReordered, exists_or]
    omega
  have hunited : ∀ a b, United twoClassesReordered a b ↔ United twoClasses a b := by
    intro a b
    simp only [United, twoClasses, twoClassesReordered, List.mem_cons, Edit.union.injEq,
      reduceCtorEq, List.not_mem_nil, or_false, false_or]
    omega
  obtain ⟨hclosure, hsame⟩ := build_isClosure twoClasses
  exact ⟨hclosure, hsame _ hinserted hunited, by decide, by decide⟩

end DisjointSets
end FusionCompiler
