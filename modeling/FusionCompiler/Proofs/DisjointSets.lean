import Mathlib.Order.Defs.Unbundled
import FusionCompiler.DisjointSets

/-!
# Classes of related elements

A partition that only ever joins related elements has classes of related
elements: whatever equivalence the joined pairs respect, every element is
equivalent to the name of its class.  In turn, elements that have been joined
stay members of one class, as every element is listed with one name only.

Main results:

- Theorems `DisjointSets.Within.insert` and `DisjointSets.Within.union`: adding
  an element and joining two related ones keep the classes inside the relation.
- Theorem `DisjointSets.Within.find`: an element is related to its class name.
- Theorem `DisjointSets.Within.membersOf`: the members of a class are related to
  its name.
- Theorems `DisjointSets.Together.union` and `DisjointSets.together_union`: joined
  elements are listed together from then on.
- Theorem `DisjointSets.find_find`: the name of a class is the name of its own class.
- Theorem `DisjointSets.Together.mem_membersOf`: elements that are listed together
  are members of the same classes.
-/

namespace FusionCompiler
namespace DisjointSets

variable {α : Type} {R : α → α → Prop} {s : DisjointSets α}

/-- Every element is related to the name of its class. -/
def Within (R : α → α → Prop) (s : DisjointSets α) : Prop :=
  ∀ x ∈ s.entries, R x.1 x.2

/-- Nothing is together. -/
protected theorem Within.empty : Within R (empty : DisjointSets α) := by
  intro x hx
  cases hx

variable [DecidableEq α]

/-- A search finds an entry. -/
theorem mem_of_lookup {x r : α} {entries : List (α × α)} (h : lookup x entries = some r) :
    (x, r) ∈ entries := by
  induction entries with
  | nil => cases h
  | cons y rest ih =>
      obtain ⟨k, q⟩ := y
      rw [lookup] at h
      split at h
      case isTrue hk =>
          cases h
          rw [hk]
          exact List.mem_cons_self
      case isFalse => exact List.mem_cons_of_mem _ (ih h)

namespace Within

/-- An element is related to its class name. -/
protected theorem find (h : Within R s) (hR : Equivalence R) (x : α) : R x (s.find x) := by
  unfold DisjointSets.find
  cases hx : lookup x s.entries with
  | none => exact hR.refl x
  | some r => exact h _ (mem_of_lookup hx)

/-- Renaming a class within an equivalence. -/
theorem rename (h : Within R s) (hR : Equivalence R) {old new : α} (hnew : R old new) :
    Within R ⟨DisjointSets.rename old new s.entries⟩ := by
  intro y hy
  obtain ⟨⟨k, r⟩, hz, rfl⟩ := List.mem_map.1 hy
  dsimp only
  split
  case isTrue hr => exact hR.trans (hr ▸ h _ hz) hnew
  case isFalse => exact h _ hz

/-- The members of a class are related to its name. -/
protected theorem membersOf (h : Within R s) {name a : α} (ha : a ∈ s.membersOf name) :
    R a name := by
  obtain ⟨⟨k, r⟩, hy, rfl⟩ := List.mem_map.1 ha
  obtain ⟨hmem, hr⟩ := List.mem_filter.1 hy
  have hr' : r = name := by simpa using hr
  exact hr' ▸ h _ hmem

end Within

/-- Both elements are listed with the same name. -/
def Together (s : DisjointSets α) (a b : α) : Prop :=
  ∃ r, (a, r) ∈ s.entries ∧ (b, r) ∈ s.entries

/-- A listed element has a recorded name. -/
theorem exists_lookup {a r : α} {entries : List (α × α)} (h : (a, r) ∈ entries) :
    ∃ r, lookup a entries = some r := by
  induction entries with
  | nil => cases h
  | cons z rest ih =>
      obtain ⟨k, q⟩ := z
      rw [lookup]
      split
      · exact ⟨q, rfl⟩
      case isFalse hk =>
          rcases List.mem_cons.1 h with heq | h
          · cases heq
            exact absurd rfl hk
          · exact ih h

/-- An inserted element is listed with the name that is found for it. -/
theorem mem_of_known {a r : α} (h : (a, r) ∈ s.entries) :
    (a, s.find a) ∈ s.entries := by
  obtain ⟨r, hr⟩ := exists_lookup h
  unfold find
  rw [hr]
  exact mem_of_lookup hr

/-- What is contained has an entry under its own name. -/
theorem contains_iff {a : α} : s.contains a = true ↔ (a, s.find a) ∈ s.entries := by
  unfold contains
  rw [Option.isSome_iff_exists]
  exact ⟨fun ⟨_, hr⟩ => mem_of_known (mem_of_lookup hr), exists_lookup⟩

/-- What is together stays together under another name. -/
theorem Together.rename {a b : α} (h : Together s a b) (old new : α) :
    Together ⟨DisjointSets.rename old new s.entries⟩ a b := by
  obtain ⟨r, ha, hb⟩ := h
  exact ⟨if r = old then new else r, List.mem_map.2 ⟨_, ha, rfl⟩, List.mem_map.2 ⟨_, hb, rfl⟩⟩

variable [LT α] [DecidableLT α]

/-- The entries are the new one and the old ones. -/
theorem mem_insertEntry {x : α} {y : α × α} {entries : List (α × α)}
    (h : y ∈ insertEntry x entries) : y = (x, x) ∨ y ∈ entries := by
  induction entries with
  | nil => exact .inl (List.mem_singleton.1 h)
  | cons z rest ih =>
      rw [insertEntry] at h
      split at h
      · exact .inr h
      · split at h
        · exact List.mem_cons.1 h
        · rcases List.mem_cons.1 h with rfl | h
          · exact .inr List.mem_cons_self
          · exact (ih h).imp id (List.mem_cons_of_mem z)

namespace Within

/-- A new element is related to itself. -/
protected theorem insert (h : Within R s) (hR : Equivalence R) (x : α) : Within R (s.insert x) := by
  intro y hy
  rcases mem_insertEntry hy with rfl | hy
  · exact hR.refl x
  · exact h y hy

/-- Joining two related elements keeps the classes inside the relation. -/
protected theorem union (h : Within R s) (hR : Equivalence R) {a b : α} (hab : R a b) :
    Within R (s.union a b) := by
  have ht : Within R ((s.insert a).insert b) := (h.insert hR a).insert hR b
  have hnames : R (((s.insert a).insert b).find a) (((s.insert a).insert b).find b) :=
    hR.trans (hR.symm (ht.find hR a)) (hR.trans hab (ht.find hR b))
  unfold DisjointSets.union
  dsimp only
  split
  · exact ht
  · split
    · exact ht.rename hR (hR.symm hnames)
    · exact ht.rename hR hnames

end Within

/-! ## Elements of one class -/

/-- Old entries stay. -/
theorem mem_insertEntry_of_mem {x : α} {y : α × α} {entries : List (α × α)} (h : y ∈ entries) :
    y ∈ insertEntry x entries := by
  induction entries with
  | nil => cases h
  | cons z rest ih =>
      rw [insertEntry]
      split
      · exact h
      · split
        · exact List.mem_cons_of_mem _ h
        · rcases List.mem_cons.1 h with rfl | h
          · exact List.mem_cons_self
          · exact List.mem_cons_of_mem z (ih h)

/-- What was inserted has an entry. -/
theorem exists_mem_insert (s : DisjointSets α) (x : α) : ∃ r, (x, r) ∈ (s.insert x).entries := by
  unfold insert
  generalize s.entries = entries
  induction entries with
  | nil => exact ⟨x, List.mem_cons_self⟩
  | cons z rest ih =>
      obtain ⟨k, q⟩ := z
      rw [insertEntry]
      dsimp only
      split
      case isTrue hk => exact ⟨q, hk ▸ List.mem_cons_self⟩
      case isFalse =>
          split
          · exact ⟨x, List.mem_cons_self⟩
          · obtain ⟨r, hr⟩ := ih
            exact ⟨r, List.mem_cons_of_mem _ hr⟩

namespace Together

variable {a b : α}

/-- What is together stays together beside a new element. -/
protected theorem insert (h : Together s a b) (x : α) : Together (s.insert x) a b := by
  obtain ⟨r, ha, hb⟩ := h
  exact ⟨r, mem_insertEntry_of_mem ha, mem_insertEntry_of_mem hb⟩

/-- Elements that are listed together stay so. -/
protected theorem union (h : Together s a b) (x y : α) : Together (s.union x y) a b := by
  have ht : Together ((s.insert x).insert y) a b := (h.insert x).insert y
  unfold DisjointSets.union
  dsimp only
  split
  · exact ht
  · split
    · exact ht.rename _ _
    · exact ht.rename _ _

end Together

/-- Joined elements are listed together. -/
theorem together_union (s : DisjointSets α) (a b : α) : Together (s.union a b) a b := by
  have ha : (a, ((s.insert a).insert b).find a) ∈ ((s.insert a).insert b).entries := by
    obtain ⟨r, hr⟩ := exists_mem_insert s a
    exact mem_of_known (mem_insertEntry_of_mem hr)
  have hb : (b, ((s.insert a).insert b).find b) ∈ ((s.insert a).insert b).entries := by
    obtain ⟨r, hr⟩ := exists_mem_insert (s.insert a) b
    exact mem_of_known hr
  unfold DisjointSets.union
  dsimp only
  split
  case isTrue heq => exact ⟨_, ha, heq ▸ hb⟩
  case isFalse hne =>
      split
      · refine ⟨((s.insert a).insert b).find a, List.mem_map.2 ⟨_, ha, ?_⟩, List.mem_map.2 ⟨_, hb, ?_⟩⟩
        · simp [hne]
        · simp
      · refine ⟨((s.insert a).insert b).find b, List.mem_map.2 ⟨_, ha, ?_⟩, List.mem_map.2 ⟨_, hb, ?_⟩⟩
        · simp
        · simp [Ne.symm hne]

/-! ## Ordered entries -/

/-- The elements are listed in increasing order, each once. -/
def Ordered (s : DisjointSets α) : Prop :=
  s.entries.Pairwise fun x y => x.1 < y.1

variable [IsStrictTotalOrder α (· < ·)]

namespace Ordered

omit [DecidableEq α] [DecidableLT α] [IsStrictTotalOrder α (· < ·)] in
/-- No entries are in order. -/
protected theorem empty : Ordered (empty : DisjointSets α) :=
  List.Pairwise.nil

/-- Entries stay in order when one is inserted. -/
protected theorem insert (h : Ordered s) (x : α) : Ordered (s.insert x) := by
  unfold DisjointSets.insert Ordered
  unfold Ordered at h
  generalize s.entries = entries at h
  induction entries with
  | nil => exact List.pairwise_singleton _ _
  | cons z rest ih =>
      obtain ⟨hz, hrest⟩ := List.pairwise_cons.1 h
      rw [insertEntry]
      split
      case isTrue => exact h
      case isFalse hne =>
          split
          case isTrue hlt =>
              refine List.pairwise_cons.2 ⟨fun y hy => ?_, h⟩
              rcases List.mem_cons.1 hy with rfl | hy
              · exact hlt
              · exact trans_of (· < ·) hlt (hz y hy)
          case isFalse hnlt =>
              have hlt : z.1 < x := by
                rcases trichotomous_of (· < ·) z.1 x with hlt | heq | hlt
                · exact hlt
                · exact absurd heq hne
                · exact absurd hlt hnlt
              refine List.pairwise_cons.2 ⟨fun y hy => ?_, ih hrest⟩
              rcases mem_insertEntry hy with rfl | hy
              · exact hlt
              · exact hz y hy

omit [DecidableLT α] [IsStrictTotalOrder α (· < ·)] in
/-- Another name does not change the order of entries. -/
theorem rename (h : Ordered s) (old new : α) :
    Ordered ⟨DisjointSets.rename old new s.entries⟩ :=
  List.pairwise_map.2 h

/-- Entries stay in order in a union. -/
protected theorem union (h : Ordered s) (a b : α) : Ordered (s.union a b) := by
  have ht : Ordered ((s.insert a).insert b) := (h.insert a).insert b
  unfold DisjointSets.union
  dsimp only
  split
  · exact ht
  · split
    · exact ht.rename _ _
    · exact ht.rename _ _

omit [DecidableEq α] [DecidableLT α] in
/-- An element is listed with one name. -/
theorem eq_of_mem (h : Ordered s) {a r r' : α} (hr : (a, r) ∈ s.entries)
    (hr' : (a, r') ∈ s.entries) : r = r' := by
  unfold Ordered at h
  generalize s.entries = entries at h hr hr'
  induction entries with
  | nil => cases hr
  | cons z rest ih =>
      obtain ⟨hz, hrest⟩ := List.pairwise_cons.1 h
      have hnot : ∀ q, (a, q) ∈ rest → z.1 ≠ a := by
        rintro q hq rfl
        exact irrefl_of (· < ·) z.1 (hz (z.1, q) hq)
      rcases List.mem_cons.1 hr with hz₁ | hm₁
      · rcases List.mem_cons.1 hr' with hz₂ | hm₂
        · exact congrArg Prod.snd (hz₁.trans hz₂.symm)
        · exact absurd (congrArg Prod.fst hz₁).symm (hnot r' hm₂)
      · rcases List.mem_cons.1 hr' with hz₂ | hm₂
        · exact absurd (congrArg Prod.fst hz₂).symm (hnot r hm₁)
        · exact ih hrest hm₁ hm₂

end Ordered

/-! ## Names of names -/

/-- Every name is listed as an element of the class it names. -/
def Rooted (s : DisjointSets α) : Prop :=
  ∀ x ∈ s.entries, (x.2, x.2) ∈ s.entries

namespace Rooted

omit [DecidableEq α] [LT α] [DecidableLT α] [IsStrictTotalOrder α (· < ·)] in
/-- No name is missing. -/
protected theorem empty : Rooted (empty : DisjointSets α) := by
  intro x hx
  cases hx

omit [IsStrictTotalOrder α (· < ·)] in
/-- A new element is its own name. -/
protected theorem insert (h : Rooted s) (x : α) : Rooted (s.insert x) := by
  intro y hy
  rcases mem_insertEntry hy with rfl | hy
  · exact hy
  · exact mem_insertEntry_of_mem (h y hy)

omit [LT α] [DecidableLT α] [IsStrictTotalOrder α (· < ·)] in
/-- A class may take the name of another one. -/
theorem rename (h : Rooted s) {new : α} (hnew : (new, new) ∈ s.entries) (old : α) :
    Rooted ⟨DisjointSets.rename old new s.entries⟩ := by
  have hmem : ∀ r, (r, r) ∈ s.entries → r ≠ old ∨ r = new →
      (r, r) ∈ DisjointSets.rename old new s.entries := by
    intro r hr hkept
    refine List.mem_map.2 ⟨(r, r), hr, ?_⟩
    rcases hkept with hne | rfl
    · simp [hne]
    · simp
  intro y hy
  obtain ⟨⟨k, r⟩, hr, rfl⟩ := List.mem_map.1 hy
  dsimp only
  split
  case isTrue => exact hmem new hnew (.inr rfl)
  case isFalse hne => exact hmem r (h (k, r) hr) (.inl hne)

omit [IsStrictTotalOrder α (· < ·)] in
/-- After a union, names are names of themselves. -/
protected theorem union (h : Rooted s) (a b : α) : Rooted (s.union a b) := by
  have ht : Rooted ((s.insert a).insert b) := (h.insert a).insert b
  obtain ⟨q, hq⟩ := exists_mem_insert s a
  obtain ⟨r, hr⟩ := exists_mem_insert (s.insert a) b
  have ha := ht _ (mem_of_known (mem_insertEntry_of_mem (x := b) hq))
  have hb := ht _ (mem_of_known hr)
  unfold DisjointSets.union
  dsimp only
  split
  · exact ht
  · split
    · exact ht.rename ha _
    · exact ht.rename hb _

end Rooted

omit [DecidableLT α] in
/-- The name of a class is the name of its own class. -/
theorem find_find (hs : Ordered s) (h : Rooted s) (a : α) : s.find (s.find a) = s.find a := by
  unfold find
  cases ha : lookup a s.entries with
  | none => simp [ha]
  | some r =>
      have hmem := h _ (mem_of_lookup ha)
      exact hs.eq_of_mem (mem_of_known hmem) hmem

omit [DecidableLT α] in
/-- Elements that are listed together have one class name. -/
theorem Together.find_eq {a b : α} (h : Together s a b) (hs : Ordered s) : s.find a = s.find b := by
  obtain ⟨r, ha, hb⟩ := h
  have hname : ∀ c, (c, r) ∈ s.entries → s.find c = r := fun c hc =>
    hs.eq_of_mem (mem_of_known hc) hc
  rw [hname a ha, hname b hb]

omit [DecidableLT α] in
/-- The members of a class are the inserted elements with its name. -/
theorem mem_membersOf_iff (hs : Ordered s) {a name : α} :
    a ∈ s.membersOf name ↔ s.contains a = true ∧ s.find a = name := by
  rw [contains_iff]
  constructor
  · intro ha
    obtain ⟨⟨k, r⟩, hmem, rfl⟩ := List.mem_map.1 ha
    obtain ⟨hmem, hr⟩ := List.mem_filter.1 hmem
    have hknown := mem_of_known hmem
    refine ⟨hknown, ?_⟩
    rw [hs.eq_of_mem hknown hmem]
    simpa using hr
  · rintro ⟨hmem, rfl⟩
    exact List.mem_map.2 ⟨_, List.mem_filter.2 ⟨hmem, by simp⟩, rfl⟩

omit [DecidableLT α] in
/-- Elements that are listed together are members of the same classes. -/
theorem Together.mem_membersOf {a b name : α} (h : Together s a b) (hs : Ordered s)
    (ha : a ∈ s.membersOf name) : b ∈ s.membersOf name := by
  obtain ⟨-, hname⟩ := (mem_membersOf_iff hs).1 ha
  rw [h.find_eq hs] at hname
  obtain ⟨r, -, hb⟩ := h
  exact (mem_membersOf_iff hs).2 ⟨contains_iff.2 (mem_of_known hb), hname⟩

end DisjointSets
end FusionCompiler
