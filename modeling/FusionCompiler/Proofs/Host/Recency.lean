import Mathlib.Data.List.Nodup
import FusionCompiler.Host.LruCache

/-!
# What a cache remembers

A log lists what each request to a cache led to.  The log alone determines what a
cache of a given capacity holds: the distinct keys of the requests that succeeded
since the cache was last cleared, those used most recently, each with the value
that was made for it when it last entered.

The cache itself knows only a stamp for each entry.  Its entries in the order of
their stamps, the latest first, are the link between the two: a hit moves an entry
to the front, and the entry that makes room for another one is the last.

Main results:

- Theorem `LruCache.InOrder.makeRoom`: a full cache gives up the last entry.
- Theorems `LruCache.Recalls.hit`, `LruCache.Recalls.made`,
  `LruCache.Recalls.failed` and `LruCache.Recalls.clear`: a cache recalls its log
  after each kind of event.
- Theorem `LruCache.Recalls.keys_perm` and `LruCache.Recalls.find?_eq`: the keys
  and values of a cache that recalls its log.
-/

namespace FusionCompiler
namespace LruCache

variable {κ ρ : Type}

/-! ## Logs -/

/-- What a request to a cache or its clearing led to. -/
inductive Event (κ ρ : Type) where
  | hit (k : κ)
  | made (k : κ) (r : ρ)
  | failed (k : κ)
  | cleared

namespace Event

def isRequest : Event κ ρ → Bool
  | .cleared => false
  | _ => true

/-- The keys of the requests that succeeded since the last clearing, the latest first, in a log that
lists the latest events first. -/
def served : List (Event κ ρ) → List κ
  | [] | .cleared :: _ => []
  | .hit k :: log | .made k _ :: log => k :: served log
  | .failed _ :: log => served log

/-- The value that was made for a key when it last entered the cache. -/
def lastMade [BEq κ] (k : κ) : List (Event κ ρ) → Option ρ
  | [] | .cleared :: _ => none
  | .made k' r :: log => if k' == k then some r else lastMade k log
  | .hit _ :: log | .failed _ :: log => lastMade k log

end Event

open Event

variable [BEq κ]

/-- The keys that a cache of some capacity holds after a log. -/
def recentKeys (capacity : Nat) (log : List (Event κ ρ)) : List κ :=
  (served log).eraseDups.take (max 1 capacity)

/-! ## Distinct keys by recency -/

section Distinct

variable [LawfulBEq κ] {k : κ} {l : List κ} {n : Nat}

/-- A test may be made before or after duplicates are dropped. -/
theorem filter_eraseDups (p : κ → Bool) (l : List κ) :
    l.eraseDups.filter p = (l.filter p).eraseDups := by
  induction h : l.length using Nat.strongRecOn generalizing l with
  | ind n ih =>
  cases l with
  | nil => rfl
  | cons a l =>
      have hshort : (l.filter fun b => !b == a).length < n := by
        have hle := List.length_filter_le (fun b => !b == a) l
        simp only [List.length_cons] at h
        omega
      have hrest := ih _ hshort (l.filter fun b => !b == a) rfl
      rw [List.eraseDups_cons]
      by_cases ha : p a
      · rw [List.filter_cons_of_pos ha, List.filter_cons_of_pos ha, List.eraseDups_cons, hrest,
          List.filter_filter, List.filter_filter]
        simp only [Bool.and_comm]
      · rw [List.filter_cons_of_neg ha, List.filter_cons_of_neg ha, hrest, List.filter_filter]
        -- what passes the test is not the element that fails it
        congr 1
        refine List.filter_congr fun b _ => ?_
        cases hb : p b with
        | false => rfl
        | true =>
            have hne : b ≠ a := fun heq => ha (heq ▸ hb)
            simpa using hne

/-- Without duplicates, nothing occurs twice. -/
theorem nodup_eraseDups (l : List κ) : l.eraseDups.Nodup := by
  induction h : l.length using Nat.strongRecOn generalizing l with
  | ind n ih =>
  cases l with
  | nil => exact List.nodup_nil
  | cons a l =>
      rw [List.eraseDups_cons, ← filter_eraseDups]
      refine List.nodup_cons.2 ⟨by simp, (ih l.length ?_ l rfl).filter _⟩
      simp only [List.length_cons] at h
      omega

/-- The first of a list stays in front when duplicates are dropped. -/
theorem eraseDups_cons_eq (k : κ) (l : List κ) :
    (k :: l).eraseDups = k :: l.eraseDups.erase k := by
  rw [List.eraseDups_cons, ← filter_eraseDups, (nodup_eraseDups l).erase_eq_filter]
  rfl

/-- Among the most recent ones, a key makes room for one more. -/
theorem take_erase_of_mem (h : k ∈ l.take (n + 1)) :
    (l.erase k).take n = (l.take (n + 1)).erase k := by
  induction l generalizing n with
  | nil => simp at h
  | cons a l ih =>
      by_cases ha : a == k
      · simp [List.erase_cons, ha]
      · have hne : k ≠ a := fun heq => ha (by simp [heq])
        rw [List.take_succ_cons, List.mem_cons] at h
        have hl := h.resolve_left hne
        cases n with
        | zero => simp at hl
        | succ n => simp [ha, ih hl]

/-- A key that is not among the most recent ones leaves them as they are. -/
theorem take_erase_of_not_mem (h : k ∉ l.take n) : (l.erase k).take n = l.take n := by
  induction l generalizing n with
  | nil => rfl
  | cons a l ih =>
      cases n with
      | zero => simp
      | succ n =>
          rw [List.take_succ_cons, List.mem_cons, not_or] at h
          have ha : ¬ a == k := fun heq => h.1 (by simpa using (beq_iff_eq.1 heq).symm)
          simp [ha, ih h.2]

variable {capacity : Nat} {log log' : List (Event κ ρ)}

/-- The most recent keys are distinct. -/
theorem nodup_recentKeys : (recentKeys capacity log).Nodup :=
  (nodup_eraseDups _).sublist (List.take_sublist _ _)

omit [LawfulBEq κ] in
/-- If nothing was served, there are no most recent keys. -/
theorem recentKeys_of_served_nil (h : served log = []) : recentKeys capacity log = [] := by
  simp [recentKeys, h]

/-- A key that is used again moves to the front. -/
theorem recentKeys_used_again (hlog : served log' = k :: served log)
    (hk : k ∈ recentKeys capacity log) :
    recentKeys capacity log' = k :: (recentKeys capacity log).erase k := by
  unfold recentKeys at hk ⊢
  rw [hlog, eraseDups_cons_eq]
  obtain ⟨n, hn⟩ : ∃ n, max 1 capacity = n + 1 := ⟨max 1 capacity - 1, by omega⟩
  rw [hn] at hk ⊢
  rw [List.take_succ_cons, take_erase_of_mem hk]

/-- A new key takes the room of the last one if there are as many as there can be. -/
theorem recentKeys_new (hlog : served log' = k :: served log)
    (hk : k ∉ recentKeys capacity log) :
    recentKeys capacity log' = k ::
      (if capacity ≤ (recentKeys capacity log).length then (recentKeys capacity log).dropLast
        else recentKeys capacity log) := by
  unfold recentKeys at hk ⊢
  rw [hlog, eraseDups_cons_eq]
  obtain ⟨n, hn⟩ : ∃ n, max 1 capacity = n + 1 := ⟨max 1 capacity - 1, by omega⟩
  rw [hn] at hk ⊢
  have hout : k ∉ (served log).eraseDups.take n := fun h =>
    hk ((List.take_sublist_take_left (Nat.le_succ n)).subset h)
  rw [List.take_succ_cons, take_erase_of_not_mem hout]
  congr 1
  rw [List.length_take]
  split
  case isTrue hfull =>
      rw [List.dropLast_eq_take, List.take_take, List.take_eq_take_iff, List.length_take]
      omega
  case isFalse hroom =>
      have hshort : (served log).eraseDups.length ≤ n := by omega
      rw [List.take_of_length_le hshort, List.take_of_length_le (by omega)]

end Distinct

/-! ## Entries in the order of their stamps -/

omit [BEq κ] in
/-- A list of the entries of a cache, the latest first. -/
structure InOrder (c : LruCache κ ρ) (L : List (κ × Entry ρ)) : Prop where
  perm : L.Perm c.entries
  descending : L.Pairwise fun a b => b.2.lastUsed < a.2.lastUsed
  stamped : ∀ e ∈ L, e.2.lastUsed ≤ c.tick
  distinct : (L.map (·.1)).Nodup

namespace InOrder

variable {c : LruCache κ ρ} {L : List (κ × Entry ρ)} {e : κ × Entry ρ} {k : κ} {r : ρ}

omit [BEq κ] in
/-- As many entries as keys in order. -/
theorem length_eq (h : c.InOrder L) : L.length = c.entries.length :=
  h.perm.length_eq

omit [BEq κ] in
/-- The clock does not change the order. -/
theorem advance (h : c.InOrder L) : c.advance.InOrder L :=
  ⟨h.perm, h.descending, fun e he => Nat.le_succ_of_le (h.stamped e he), h.distinct⟩

variable [LawfulBEq κ]

/-- A key has the value of its entry. -/
theorem find?_eq_some (h : c.InOrder L) :
    c.find? k = some r ↔ ∃ t, (k, ⟨r, t⟩) ∈ L := by
  have hdistinct : (c.entries.map (·.1)).Nodup := (h.perm.map _).nodup_iff.1 h.distinct
  simp only [find?, Option.map_eq_some_iff, h.perm.mem_iff]
  constructor
  · rintro ⟨⟨v, t⟩, hv, rfl⟩
    obtain ⟨l₁, l₂, hl, -⟩ := List.lookup_eq_some_iff.1 hv
    exact ⟨t, by simp [hl]⟩
  · rintro ⟨t, ht⟩
    obtain ⟨l₁, l₂, hl⟩ := List.append_of_mem ht
    refine ⟨⟨r, t⟩, List.lookup_eq_some_iff.2 ⟨l₁, l₂, hl, fun p hp => ?_⟩, rfl⟩
    rw [hl, List.map_append, List.map_cons, List.nodup_append] at hdistinct
    simpa using (hdistinct.2.2 p.1 (List.mem_map_of_mem hp) k (by simp)).symm

/-- A key is not found just if it has no entry. -/
theorem find?_eq_none (h : c.InOrder L) : c.find? k = none ↔ k ∉ L.map (·.1) := by
  rw [Option.eq_none_iff_forall_ne_some]
  constructor
  · intro hnone hk
    obtain ⟨⟨k', v, t⟩, he, rfl⟩ := List.mem_map.1 hk
    exact hnone v (h.find?_eq_some.2 ⟨t, he⟩)
  · intro hk r hr
    obtain ⟨t, ht⟩ := h.find?_eq_some.1 hr
    exact hk (List.mem_map_of_mem ht)

/-- An entry splits the entries into those used later and those used earlier, which have other
keys. -/
theorem split (h : c.InOrder L) (he : e ∈ L) :
    ∃ l₁ l₂, L = l₁ ++ e :: l₂ ∧ ∀ d ∈ l₁ ++ l₂, ¬ d.1 == e.1 := by
  obtain ⟨l₁, l₂, rfl⟩ := List.append_of_mem he
  refine ⟨l₁, l₂, rfl, fun d hd heq => ?_⟩
  have hdistinct := h.distinct
  rw [List.map_append, List.map_cons, List.nodup_middle, List.nodup_cons, ← List.map_append]
    at hdistinct
  exact hdistinct.1 (List.mem_map.2 ⟨d, hd, beq_iff_eq.1 heq⟩)

/-- A hit moves an entry to the front. -/
theorem hit (h : c.InOrder L) (hearly : ∀ e ∈ L, e.2.lastUsed < c.tick) (hk : c.find? k = some r) :
    (c.hit k r).InOrder ((k, ⟨r, c.tick⟩) :: L.filter fun e => !(e.1 == k)) := by
  obtain ⟨t, ht⟩ := h.find?_eq_some.1 hk
  obtain ⟨l₁, l₂, rfl, hne⟩ := h.split ht
  have hfilter : (l₁ ++ (k, ⟨r, t⟩) :: l₂).filter (fun e => !(e.1 == k)) = l₁ ++ l₂ := by
    rw [List.filter_append, List.filter_cons_of_neg (by simp), ← List.filter_append,
      List.filter_eq_self]
    simpa using hne
  rw [hfilter]
  have hsub : (l₁ ++ l₂).Sublist (l₁ ++ (k, ⟨r, t⟩) :: l₂) :=
    (List.sublist_cons_self _ _).append_left l₁
  refine ⟨?_, List.pairwise_cons.2 ⟨fun e he => hearly e (hsub.subset he),
    h.descending.sublist hsub⟩, fun e he => ?_, ?_⟩
  · -- stamping leaves the other entries alone
    have hstamp : ∀ l : List (κ × Entry ρ), (∀ e ∈ l, ¬ e.1 == k) →
        l.map (fun e => if e.1 == k then (e.1, { e.2 with lastUsed := c.tick }) else e) = l :=
      fun l hl => (List.map_congr_left fun e he => if_neg (hl e he)).trans (List.map_id' l)
    have hmap := h.perm.map fun e =>
      if e.1 == k then (e.1, { e.2 with lastUsed := c.tick }) else e
    rw [List.map_append, List.map_cons,
      hstamp l₁ fun e he => hne e (List.mem_append_left _ he),
      hstamp l₂ fun e he => hne e (List.mem_append_right _ he)] at hmap
    refine List.perm_middle.symm.trans (List.Perm.trans ?_ hmap)
    simp
  · obtain rfl | he := List.mem_cons.1 he
    · exact Nat.le_refl _
    · exact h.stamped e (hsub.subset he)
  · refine List.nodup_cons.2 ⟨fun hmem => ?_, h.distinct.sublist (hsub.map _)⟩
    obtain ⟨e, he, heq⟩ := List.mem_map.1 hmem
    exact hne e he (beq_iff_eq.2 heq)

omit [BEq κ] [LawfulBEq κ] in
/-- The entry used least recently is the last one. -/
theorem oldest?_eq (h : c.InOrder (L ++ [e])) : c.oldest? = some e.1 := by
  have he : e ∈ c.entries := h.perm.subset (by simp)
  obtain ⟨m, hm⟩ := Option.isSome_iff_exists.1
    (List.isSome_minOn?_of_mem (f := fun e : κ × Entry ρ => e.2.lastUsed) he)
  have hle : m.2.lastUsed ≤ e.2.lastUsed := by
    have := List.apply_get_minOn?_le_of_mem (f := fun e : κ × Entry ρ => e.2.lastUsed) he
    simpa [hm] using this
  have hmem : m ∈ L ++ [e] := h.perm.symm.subset (List.minOn?_mem hm)
  unfold oldest?
  rw [hm]
  obtain hL | hlast := List.mem_append.1 hmem
  · have hlt := (List.pairwise_append.1 h.descending).2.2 m hL e (by simp)
    omega
  · rw [List.mem_singleton.1 hlast]
    rfl

/-- The entry that is least recent goes. -/
theorem evict (h : c.InOrder (L ++ [e])) : (c.evict e.1).InOrder L := by
  have hsub : L.Sublist (L ++ [e]) := List.sublist_append_left L [e]
  refine ⟨?_, h.descending.sublist hsub, fun d hd => h.stamped d (hsub.subset hd),
    h.distinct.sublist (hsub.map _)⟩
  obtain ⟨hdistinct, -, hother⟩ := List.nodup_append.1 (List.map_append ▸ h.distinct)
  have hfilter : (L ++ [e]).filter (fun d => !(d.1 == e.1)) = L := by
    rw [List.filter_append, List.filter_cons_of_neg (by simp), List.filter_nil, List.append_nil,
      List.filter_eq_self]
    intro d hd
    simpa using hother d.1 (List.mem_map_of_mem hd) e.1 (by simp)
  have hperm := h.perm.filter fun d => !(d.1 == e.1)
  rwa [hfilter] at hperm

/-- A full cache gives up its last entry. -/
theorem makeRoom (h : c.InOrder L) :
    c.makeRoom.InOrder (if c.capacity ≤ L.length then L.dropLast else L) := by
  unfold LruCache.makeRoom
  rw [h.length_eq]
  split
  case isTrue =>
      obtain rfl | ⟨l, e, rfl⟩ := List.eq_nil_or_concat' L
      · have hnone : c.oldest? = none := by
          simp [oldest?, List.perm_nil.1 h.perm.symm]
        rw [hnone]
        exact h
      · rw [h.oldest?_eq, List.dropLast_concat]
        exact h.evict
  case isFalse => exact h

omit [BEq κ] [LawfulBEq κ] in
/-- A new entry comes first. -/
theorem insert (h : c.InOrder L) (hearly : ∀ e ∈ L, e.2.lastUsed < c.tick)
    (hk : k ∉ L.map (·.1)) : (c.insert k r).InOrder ((k, ⟨r, c.tick⟩) :: L) := by
  refine ⟨h.perm.cons _, List.pairwise_cons.2 ⟨hearly, h.descending⟩, fun e he => ?_,
    List.nodup_cons.2 ⟨hk, h.distinct⟩⟩
  obtain rfl | he := List.mem_cons.1 he
  · exact Nat.le_refl _
  · exact h.stamped e he

end InOrder

/-- Making room takes an entry out and counts that. -/
theorem makeRoom_eq (c : LruCache κ ρ) : c.makeRoom =
    { c with entries := c.makeRoom.entries, evictions := c.makeRoom.evictions } := by
  unfold makeRoom
  split
  · cases c.oldest? <;> rfl
  · rfl

/-- Making room only removes entries. -/
theorem makeRoom_sublist (c : LruCache κ ρ) : c.makeRoom.entries.Sublist c.entries := by
  unfold makeRoom
  split
  · cases c.oldest? with
    | none => exact List.Sublist.refl _
    | some k => exact List.filter_sublist
  · exact List.Sublist.refl _

/-! ## Caches and their logs -/

/-- The keys that have a value. -/
def keys (c : LruCache κ ρ) : List κ :=
  c.entries.map (·.1)

/-- A cache holds what its log determines, and its counters count the events of the log. -/
structure Recalls (c : LruCache κ ρ) (log : List (Event κ ρ)) : Prop where
  order : ∃ L, c.InOrder L ∧ L.map (·.1) = recentKeys c.capacity log
  values : ∀ e ∈ c.entries, lastMade e.1 log = some e.2.value
  requests : c.hits + c.misses = log.countP Event.isRequest
  cached : c.cached = c.entries.length

namespace Recalls

variable {c : LruCache κ ρ} {log : List (Event κ ρ)} {k : κ} {r : ρ}

/-- An empty cache recalls nothing. -/
theorem empty (capacity : Nat) : Recalls ({ capacity } : LruCache κ ρ) [] :=
  ⟨⟨[], ⟨.nil, .nil, by simp, .nil⟩, (recentKeys_of_served_nil rfl).symm⟩, by simp, rfl, rfl⟩

/-- A cleared cache recalls nothing. -/
theorem clear (h : c.Recalls log) : c.clear.Recalls (.cleared :: log) :=
  ⟨⟨[], ⟨.nil, .nil, by simp, .nil⟩, (recentKeys_of_served_nil rfl).symm⟩,
    by simp [LruCache.clear],
    by simpa [LruCache.clear, isRequest] using h.requests, rfl⟩

/-- A request that fails leaves the entries and their stamps. -/
theorem failed (h : c.Recalls log) : c.advance.miss.Recalls (.failed k :: log) := by
  obtain ⟨L, hL, hkeys⟩ := h.order
  refine ⟨⟨L, ⟨hL.perm, hL.descending, hL.advance.stamped, hL.distinct⟩, hkeys⟩, h.values, ?_,
    h.cached⟩
  have := h.requests
  simp only [miss, advance, List.countP_cons, isRequest, if_true]
  omega

/-- The keys of a cache are those its log determines. -/
theorem keys_perm (h : c.Recalls log) : c.keys.Perm (recentKeys c.capacity log) := by
  obtain ⟨L, hL, hkeys⟩ := h.order
  rw [← hkeys]
  exact (hL.perm.map _).symm

variable [LawfulBEq κ]

/-- The keys of a cache are distinct. -/
theorem nodup_keys (h : c.Recalls log) : c.keys.Nodup :=
  h.keys_perm.nodup_iff.2 nodup_recentKeys

/-- A cached key has the value that was made for it when it last entered. -/
theorem find?_eq (h : c.Recalls log) (hk : k ∈ c.keys) :
    ∃ r, c.find? k = some r ∧ lastMade k log = some r := by
  obtain ⟨L, hL, -⟩ := h.order
  obtain ⟨⟨k, r, t⟩, he, rfl⟩ := List.mem_map.1 hk
  exact ⟨r, hL.find?_eq_some.2 ⟨t, hL.perm.symm.subset he⟩, h.values _ he⟩

/-- A key that is found becomes the most recent one. -/
theorem hit (h : c.Recalls log) (hk : c.find? k = some r) :
    (c.advance.hit k r).Recalls (.hit k :: log) := by
  obtain ⟨L, hL, hkeys⟩ := h.order
  have hearly : ∀ e ∈ L, e.2.lastUsed < c.advance.tick := fun e he =>
    Nat.lt_succ_of_le (hL.stamped e he)
  have hhit := hL.advance.hit hearly hk
  obtain ⟨t, ht⟩ := hL.find?_eq_some.1 hk
  refine ⟨⟨_, hhit, ?_⟩, ?_, ?_, ?_⟩
  · have hmem : k ∈ recentKeys c.capacity log := hkeys ▸ List.mem_map_of_mem ht
    rw [List.map_cons]
    change _ = recentKeys c.capacity _
    rw [recentKeys_used_again rfl hmem, ← hkeys, hL.distinct.erase_eq_filter, List.filter_map]
    rfl
  · intro e he
    obtain ⟨d, hd, rfl⟩ := List.mem_map.1 he
    have hd := h.values d hd
    split
    · exact hd
    · exact hd
  · have := h.requests
    simp only [LruCache.hit, LruCache.advance, List.countP_cons, isRequest, if_true]
    omega
  · simpa [LruCache.hit, LruCache.advance, refreshed] using h.cached

/-- A key that is not found is made, and becomes the most recent one. -/
theorem made (h : c.Recalls log) (hk : c.find? k = none) :
    (c.advance.miss.makeRoom.insert k r).Recalls (.made k r :: log) := by
  obtain ⟨L, hL, hkeys⟩ := h.order
  have hout : k ∉ L.map (·.1) := hL.find?_eq_none.1 hk
  have hmiss : c.advance.miss.InOrder L :=
    ⟨hL.perm, hL.descending, hL.advance.stamped, hL.distinct⟩
  have hroom := hmiss.makeRoom
  have heq := c.advance.miss.makeRoom_eq
  have hsub : (if c.capacity ≤ L.length then L.dropLast else L).Sublist L := by
    split
    · exact List.dropLast_sublist L
    · exact List.Sublist.refl L
  refine ⟨⟨_, hroom.insert (fun e he => ?_) fun hmem => hout ((hsub.map _).subset hmem), ?_⟩,
    fun e he => ?_, ?_, ?_⟩
  · rw [heq]
    exact Nat.lt_succ_of_le (hL.stamped e (hsub.subset he))
  · have hcapacity : (c.advance.miss.makeRoom.insert k r).capacity = c.capacity := by
      rw [heq]
      rfl
    rw [hcapacity, recentKeys_new rfl (hkeys ▸ hout), ← hkeys, List.length_map, List.map_cons]
    congr 1
    change (if c.capacity ≤ L.length then L.dropLast else L).map _ = _
    split
    · exact List.map_dropLast ..
    · rfl
  · obtain rfl | he := List.mem_cons.1 he
    · simp [lastMade]
    · -- the entries that stay have other keys
      have hold := (makeRoom_sublist _).subset he
      have hne : ¬ k == e.1 := fun hkey => hout
        (List.mem_map.2 ⟨e, hL.perm.symm.subset hold, (beq_iff_eq.1 hkey).symm⟩)
      simpa [lastMade, hne] using h.values e hold
  · have := h.requests
    rw [heq]
    simp only [LruCache.insert, miss, advance, List.countP_cons, isRequest, if_true]
    omega
  · rfl

end Recalls

end LruCache
end FusionCompiler
