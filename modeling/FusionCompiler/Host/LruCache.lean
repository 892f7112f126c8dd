/-!
# Least-recently-used caches

A bounded table from keys to made values.  The cache counts its requests, and
each entry is stamped with the count at its last use.  A hit refreshes the stamp
of its entry.  A value that is made anew is stamped as it enters, and takes the
room of the entry with the least stamp when the cache is full.  A failure to make
a value leaves the entries as they are.
-/

namespace FusionCompiler

/-- A made value and the time of its last use. -/
structure LruCache.Entry (ρ : Type) where
  value : ρ
  lastUsed : Nat

/-- A bounded cache with counters. -/
structure LruCache (κ ρ : Type) where
  capacity : Nat
  /-- One entry for each key that has a value. -/
  entries : List (κ × LruCache.Entry ρ) := []
  /-- The time, which passes with each request. -/
  tick : Nat := 0
  hits : Nat := 0
  misses : Nat := 0
  /-- The number of entries, counted when one enters. -/
  cached : Nat := 0
  evictions : Nat := 0
  /-- The value handed out last. -/
  recent : Option ρ := none

namespace LruCache

variable {κ ρ ε : Type} [BEq κ]

/-- The value of a key. -/
def find? (c : LruCache κ ρ) (k : κ) : Option ρ :=
  (c.entries.lookup k).map (·.value)

/-- Whether a key has a value. -/
def contains (c : LruCache κ ρ) (k : κ) : Bool :=
  (c.find? k).isSome

/-- The entries other than that of a key. -/
def others (c : LruCache κ ρ) (k : κ) : List (κ × Entry ρ) :=
  c.entries.filter fun e => !(e.1 == k)

/-- Lets time pass. -/
def advance (c : LruCache κ ρ) : LruCache κ ρ :=
  { c with tick := c.tick + 1 }

/-- The entries, with that of a key stamped anew. -/
def refreshed (c : LruCache κ ρ) (k : κ) : List (κ × Entry ρ) :=
  c.entries.map fun e => if e.1 == k then (e.1, { e.2 with lastUsed := c.tick }) else e

/-- Records that the value of a key is handed out again. -/
def hit (c : LruCache κ ρ) (k : κ) (r : ρ) : LruCache κ ρ :=
  { c with entries := c.refreshed k, hits := c.hits + 1, recent := some r }

/-- Records that a key has no value. -/
def miss (c : LruCache κ ρ) : LruCache κ ρ :=
  { c with misses := c.misses + 1 }

/-- The key used least recently. -/
def oldest? (c : LruCache κ ρ) : Option κ :=
  (c.entries.minOn? (·.2.lastUsed)).map (·.1)

/-- Takes an entry out to make room for another one. -/
def evict (c : LruCache κ ρ) (k : κ) : LruCache κ ρ :=
  { c with entries := c.others k, evictions := c.evictions + 1 }

/-- Makes room for a new entry where there is none. -/
def makeRoom (c : LruCache κ ρ) : LruCache κ ρ :=
  if c.capacity ≤ c.entries.length then c.oldest?.elim c c.evict else c

/-- Stamps and adds the value of a new key. -/
def insert (c : LruCache κ ρ) (k : κ) (r : ρ) : LruCache κ ρ :=
  { c with
    entries := (k, ⟨r, c.tick⟩) :: c.entries
    cached := c.entries.length + 1
    recent := some r }

/-- The value of a key, made on a miss. -/
def obtain {m : Type → Type} [Monad m] (c : LruCache κ ρ) (k : κ) (make : m (Except ε ρ)) :
    m (Except ε ρ × LruCache κ ρ) :=
  let c := c.advance
  match c.find? k with
  | some r => pure (.ok r, c.hit k r)
  | none => do
    match ← make with
    | .ok r => return (.ok r, c.miss.makeRoom.insert k r)
    | .error e => return (.error e, c.miss)

/-- Forgets all values; the time and the other counters stay. -/
def clear (c : LruCache κ ρ) : LruCache κ ρ :=
  { c with entries := [], cached := 0, recent := none }

end LruCache
end FusionCompiler
