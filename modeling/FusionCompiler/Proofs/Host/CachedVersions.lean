import FusionCompiler.Host.ExecutorCache
import FusionCompiler.Proofs.Host.Recency

/-!
# Cached versions of a fusion

A cache over a fusion answers calls and is cleared now and then.  After every
sequence of such uses it holds the versions for the signatures used most
recently, as many as its capacity says and at least one.  Other caches share the
loaded modules, so each call may find other modules than the one before left.

Main results:

- Theorems `ExecutorCache.versionFor_hit` and `ExecutorCache.versionFor_miss`:
  what a call does when its signature is cached and when it is not.
- Theorem `ExecutorCache.after_recalls`: a cache recalls its uses.
- Theorem `ExecutorCache.holdsMostRecent`: what a cache holds and counts after
  every sequence of uses.
-/

namespace FusionCompiler
namespace ExecutorCache

open LruCache

variable {c : ExecutorCache} {args : List Argument} {modules : Modules}

/-- What a call depends on. -/
def signatures (args : List Argument) : List ArgumentSignature :=
  args.map (·.signature)

/-- The outcome of compiling the fusion of a cache for some arguments. -/
def compiled (c : ExecutorCache) (args : List Argument) (modules : Modules) :
    Except RunError SegmentedExecutor × Modules :=
  (SegmentedExecutor.compile c.fusion args c.settings).run.run modules

/-- The outcome of a call, and the cache after it. -/
def answer (c : ExecutorCache) (args : List Argument) (modules : Modules) :
    Except RunError SegmentedExecutor × ExecutorCache :=
  ((c.versionFor args).run modules).1

/-! ## One call -/

/-- A call whose signature is cached compiles nothing. -/
theorem versionFor_hit {e : SegmentedExecutor} (h : c.versions.find? (signatures args) = some e) :
    (c.versionFor args).run modules =
      ((.ok e, { c with versions := c.versions.advance.hit (signatures args) e }), modules) := by
  have hfind : c.versions.advance.find? (args.map (·.signature)) = some e := h
  simp only [versionFor, obtain, hfind]
  rfl

/-- A call whose signature is not cached compiles, and what it makes enters the cache. -/
theorem versionFor_miss (h : c.versions.find? (signatures args) = none) :
    (c.versionFor args).run modules =
      match c.compiled args modules with
      | (.ok e, loaded) => ((.ok e, { c with
          versions := c.versions.advance.miss.makeRoom.insert (signatures args) e }), loaded)
      | (.error x, loaded) =>
        ((.error x, { c with versions := c.versions.advance.miss }), loaded) := by
  have hfind : c.versions.advance.find? (args.map (·.signature)) = none := h
  simp only [versionFor, obtain, hfind, compiled, StateT.run_bind]
  cases hrun : (SegmentedExecutor.compile c.fusion args c.settings).run.run modules with
  | mk outcome loaded => cases outcome <;> rfl

/-- A call fails only if it compiles and that fails, and then only time passes and a miss is
counted. -/
theorem answer_error {x : RunError} (h : (c.answer args modules).1 = .error x) :
    (c.compiled args modules).1 = .error x ∧ (c.answer args modules).2 = { c with
      versions := { c.versions with
        tick := c.versions.tick + 1
        misses := c.versions.misses + 1 } } := by
  unfold answer at h ⊢
  cases hfind : c.versions.find? (signatures args) with
  | some e =>
      rw [versionFor_hit hfind] at h
      cases h
  | none =>
      rw [versionFor_miss hfind] at h ⊢
      cases hcompiled : c.compiled args modules with
      | mk outcome loaded =>
      rw [hcompiled] at h
      cases outcome with
      | ok e => cases h
      | error y =>
          cases h
          exact ⟨rfl, rfl⟩

/-- A call gives the cached version, and otherwise what compiling gives. -/
theorem answer_outcome : (c.answer args modules).1 =
    match c.versions.find? (signatures args) with
    | some e => .ok e
    | none => (c.compiled args modules).1 := by
  unfold answer
  cases hfind : c.versions.find? (signatures args) with
  | some e => rw [versionFor_hit hfind]
  | none =>
      rw [versionFor_miss hfind]
      cases c.compiled args modules with
      | mk outcome loaded => cases outcome <;> rfl

/-- The versions after a call. -/
theorem answer_versions : (c.answer args modules).2.versions =
    match c.versions.find? (signatures args), (c.compiled args modules).1 with
    | some e, _ => c.versions.advance.hit (signatures args) e
    | none, .ok e => c.versions.advance.miss.makeRoom.insert (signatures args) e
    | none, .error _ => c.versions.advance.miss := by
  unfold answer
  cases hfind : c.versions.find? (signatures args) with
  | some e => rw [versionFor_hit hfind]
  | none =>
      rw [versionFor_miss hfind]
      cases c.compiled args modules with
      | mk outcome loaded => cases outcome <;> rfl

/-! ## Sequences of uses -/

/-- A use of a cache: a call, with the modules loaded at that moment, or a clearing. -/
inductive Use where
  | call (args : List Argument) (modules : Modules)
  | clear

namespace Use

def isCall : Use → Bool
  | .call _ _ => true
  | .clear => false

/-- The cache after a use. -/
def apply (c : ExecutorCache) : Use → ExecutorCache
  | .call args modules => (c.answer args modules).2
  | .clear => c.clear

/-- What a use leads to. -/
def event (c : ExecutorCache) : Use → Event (List ArgumentSignature) SegmentedExecutor
  | .clear => .cleared
  | .call args modules =>
    match c.versions.find? (signatures args), (c.compiled args modules).1 with
    | some _, _ => .hit (signatures args)
    | none, .ok e => .made (signatures args) e
    | none, .error _ => .failed (signatures args)

theorem isRequest_event (u : Use) (c : ExecutorCache) : (u.event c).isRequest = u.isCall := by
  cases u with
  | clear => rfl
  | call args modules =>
      simp only [event]
      split <;> rfl

/-- A cache recalls one more use. -/
theorem recalls (u : Use) {log : List (Event (List ArgumentSignature) SegmentedExecutor)}
    (h : c.versions.Recalls log) : (u.apply c).versions.Recalls (u.event c :: log) := by
  cases u with
  | clear => exact h.clear
  | call args modules =>
      simp only [apply, event, answer_versions]
      cases hfind : c.versions.find? (signatures args) with
      | some e => exact h.hit hfind
      | none =>
          cases (c.compiled args modules).1 with
          | ok e => exact h.made hfind
          | error x => exact h.failed

/-- A use keeps the capacity. -/
theorem capacity_apply (u : Use) (c : ExecutorCache) :
    (u.apply c).versions.capacity = c.versions.capacity := by
  cases u with
  | clear => rfl
  | call args modules =>
      simp only [apply, answer_versions]
      split
      · rfl
      · rw [makeRoom_eq]
        rfl
      · rfl

end Use

/-- The cache after a sequence of uses. -/
def after (c : ExecutorCache) (uses : List Use) : ExecutorCache :=
  uses.foldl Use.apply c

/-- What a sequence of uses leads to, the latest first. -/
def events (c : ExecutorCache) : List Use → List (Event (List ArgumentSignature) SegmentedExecutor)
  | [] => []
  | u :: uses => (u.apply c).events uses ++ [u.event c]

theorem capacity_after (c : ExecutorCache) (uses : List Use) :
    (c.after uses).versions.capacity = c.versions.capacity := by
  induction uses generalizing c with
  | nil => rfl
  | cons u uses ih => exact (ih (u.apply c)).trans (u.capacity_apply c)

/-- Requests are calls. -/
theorem countP_events (c : ExecutorCache) (uses : List Use) :
    (c.events uses).countP Event.isRequest = uses.countP Use.isCall := by
  induction uses generalizing c with
  | nil => rfl
  | cons u uses ih =>
      simp only [events, List.countP_append, ih, List.countP_cons, List.countP_nil, Nat.zero_add,
        u.isRequest_event]

/-- A cache recalls its uses. -/
theorem after_recalls {log : List (Event (List ArgumentSignature) SegmentedExecutor)}
    (h : c.versions.Recalls log) (uses : List Use) :
    (c.after uses).versions.Recalls (c.events uses ++ log) := by
  induction uses generalizing c log with
  | nil => exact h
  | cons u uses ih =>
      rw [events, List.append_assoc]
      exact ih (u.recalls h)

/-- After every sequence of calls and clearings, a cache holds the distinct signatures of the calls
that succeeded since the last clearing that were used most recently, as many as its capacity and at
least one, each with what was compiled for it when it last entered the cache.  Hits and misses count
the calls, and the number of cached versions is up to date.  A further call gives the cached version
or else what compiling gives, and if it fails only time passes and a miss is counted. -/
theorem holdsMostRecent (f : Fusion) (s : Settings) (uses : List Use) :
    let c := (make f s).after uses
    let log := (make f s).events uses
    (c.versions.keys.Nodup ∧ c.versions.keys.Perm
      ((Event.served log).eraseDups.take (max 1 s.cacheCapacity))) ∧
    (∀ k ∈ c.versions.keys,
      ∃ e, c.versions.find? k = some e ∧ Event.lastMade k log = some e) ∧
    c.versions.hits + c.versions.misses = uses.countP Use.isCall ∧
    c.versions.cached = c.versions.keys.length ∧
    ∀ args modules,
      ((c.answer args modules).1 = match c.versions.find? (signatures args) with
        | some e => .ok e
        | none => (c.compiled args modules).1) ∧
      ∀ x, (c.answer args modules).1 = .error x → (c.answer args modules).2 = { c with
        versions := { c.versions with
          tick := c.versions.tick + 1
          misses := c.versions.misses + 1 } } := by
  intro c log
  have h : c.versions.Recalls log := by
    have := after_recalls (c := make f s) (.empty s.cacheCapacity) uses
    rwa [List.append_nil] at this
  have hcapacity : c.versions.capacity = s.cacheCapacity := capacity_after (make f s) uses
  refine ⟨⟨h.nodup_keys, ?_⟩, fun k hk => h.find?_eq hk, ?_, ?_, fun args modules =>
    ⟨answer_outcome, fun x hx => (answer_error hx).2⟩⟩
  · have := h.keys_perm
    rwa [hcapacity] at this
  · rw [h.requests]
    exact countP_events (make f s) uses
  · rw [h.cached, keys, List.length_map]

end ExecutorCache
end FusionCompiler
