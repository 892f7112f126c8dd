import Mathlib
import FusionCompiler.Proofs.Kernel.Folding
import FusionCompiler.Proofs.Lower.Lifetimes

/-!
# Storage in shared memory

Every shared allocation of a body gets a range of bytes.  A tensor either opens a
range of its own behind all others, at a multiple of sixteen, or it takes over the
range of a host that is large enough and that no tensor needs any more.  The next
tensor may take over the same host later on.

Tensors that are alive at the same position have disjoint ranges.  The invariant
behind this compares every tensor with every host: its range lies outside of the
host, or it is dead by the end of the host's recorded lifetime.

Whether a size fits into a host is decided on the text of the two sizes.  The
equality test takes the literals `0.0` and `-0.0` for equal, so that two sizes may
be taken for equal although they are not.  The layout is sound where this does
not happen, in particular if no floating-point literal occurs in the sizes.

Main results:

- Theorem `Kernel.SharedPlan.Laid.place`: placing one tensor keeps the layout sound.
- Theorem `Kernel.planSharedMemory_laidOut`: the layout of a body is sound.
-/

namespace FusionCompiler
namespace Kernel

open Scalar (Env)

variable {env : Env} {n m : Int}

/-! ## Sizes -/

/-- The shared allocations of a body. -/
def sharedAllocations (body : List Stmt) : List Allocation :=
  (body.filterMap Stmt.allocation?).filter (·.memory == .shared)

/-- The scalar stands for a number of elements. -/
def IsSize (env : Env) (s : Scalar) : Prop :=
  ∃ n, s.evaluate env = some (.int n) ∧ 0 ≤ n

/-- Sizes that the equality test takes for equal have one value. -/
def EqualSizesAgree (env : Env) (sizes : List Scalar) : Prop :=
  ∀ s ∈ sizes, ∀ t ∈ sizes, (s == t) = true → s.evaluate env = t.evaluate env

/-- The number that a scalar stands for. -/
def number (env : Env) (s : Scalar) : Int :=
  (s.evaluateInt env).getD 0

/-- A scalar with an integer value is read as this number. -/
theorem number_eq {s : Scalar} (h : s.evaluate env = some (.int n)) : number env s = n := by
  simp [number, Scalar.evaluateInt, h, Constant.toInt]

/-- A size has a value, which is not negative. -/
theorem IsSize.evaluate {s : Scalar} (h : IsSize env s) :
    s.evaluate env = some (.int (number env s)) ∧ 0 ≤ number env s := by
  obtain ⟨n, hn, hpos⟩ := h
  rw [number_eq hn]
  exact ⟨hn, hpos⟩

/-- Sizes without floating-point literals are told apart by the equality test. -/
theorem equalSizesAgree_of_floatFree {sizes : List Scalar}
    (h : ∀ s ∈ sizes, s.floatFree = true) : EqualSizesAgree env sizes := by
  intro s hs t _ hst
  rw [Scalar.eq_of_beq_floatFree (.inl (h s hs)) hst]

/-- What fits is not larger. -/
theorem number_le_of_fits {sizes : List Scalar} (hagree : EqualSizesAgree env sizes) {s t : Scalar}
    (hs : s ∈ sizes) (ht : t ∈ sizes) (h : fits s t = true) : number env s ≤ number env t := by
  unfold fits at h
  split at h
  case h_1 a b ha hb =>
      have hsa : s = .int a := by cases s <;> simp_all [Scalar.int?]
      have htb : t = .int b := by cases t <;> simp_all [Scalar.int?]
      subst hsa htb
      simpa [number, Scalar.evaluateInt, Scalar.evaluate, Constant.toInt] using h
  case h_2 =>
      simp only [number, Scalar.evaluateInt, hagree s hs t ht h, Int.le_refl]

/-! ## Rounding -/

/-- The next multiple of sixteen. -/
def roundUp16 (n : Int) : Int :=
  (n + 15) / 16 * 16

/-- Rounding up to a multiple of sixteen is no less. -/
theorem le_roundUp16 (n : Int) : n ≤ roundUp16 n := by
  unfold roundUp16
  omega

/-- Rounding up gives a multiple of sixteen. -/
theorem dvd_roundUp16 (n : Int) : 16 ∣ roundUp16 n := by
  unfold roundUp16
  omega

/-- Behind a multiple of sixteen, rounding looks at the rest only. -/
theorem roundUp16_add (h : 16 ∣ m) (n : Int) : roundUp16 (m + n) = m + roundUp16 n := by
  unfold roundUp16
  omega

/-- An aligned offset has the rounded-up value, if that fits a machine word. -/
theorem evaluate_align16 {s : Scalar} (hs : s.evaluate env = some (.int n)) (hn : 0 ≤ n)
    (hfits : Fits64 (roundUp16 n)) : (align16 s).evaluate env = some (.int (roundUp16 n)) := by
  -- the last multiple of sixteen in a word is sixteen below the end of the word
  have hsum : Fits64 (n + 16 - 1) := by
    unfold Fits64 roundUp16 int64Range at hfits
    unfold Fits64 int64Range
    dsimp only at hfits ⊢
    omega
  have hquotient : (s.ceilDiv (.int 16)).evaluate env = some (.int ((n + 15) / 16)) := by
    apply Scalar.evaluate_mkBinary_of_fits _ hs rfl
    · unfold roundUp16 at hfits
      exact hfits.of_le (by omega) (by omega)
    · simp only [Scalar.exactInt?]
      rw [if_pos ⟨by decide, hsum⟩]
      congr 3
      omega
  exact Scalar.evaluate_mkBinary_of_fits rfl hquotient rfl hfits

/-! ## Ranges -/

namespace SharedBuffer

/-- Bytes of the elements of a buffer. -/
def length (env : Env) (b : SharedBuffer) : Int :=
  number env b.size * b.dtype.bytes

/-- The bytes that a buffer occupies. -/
def range (env : Env) (b : SharedBuffer) : Set Int :=
  Set.Ico (number env b.offset) (number env b.offset + b.length env)

/-- The buffer starts at a multiple of sixteen and ends before the given number of bytes. -/
def Inside (env : Env) (total : Int) (b : SharedBuffer) : Prop :=
  ∃ o, b.offset.evaluate env = some (.int o) ∧ 0 ≤ o ∧ 16 ∣ o ∧ o + b.length env ≤ total

/-- The buffer lies at the start of a host that is large enough for it. -/
structure HostedBy (env : Env) (b h : SharedBuffer) : Prop where
  dtype : h.dtype = b.dtype
  offset : h.offset = b.offset
  size : number env b.size ≤ number env h.size
  host : ∀ v, b.host = some v → h.tensor = v

variable {b h : SharedBuffer}

/-- A buffer is not shorter than nothing. -/
theorem length_nonneg (hsize : IsSize env b.size) : 0 ≤ b.length env :=
  Int.mul_nonneg hsize.evaluate.2 (Int.natCast_nonneg _)

/-- What is hosted is no longer than its host. -/
theorem HostedBy.length_le (hb : b.HostedBy env h) : b.length env ≤ h.length env := by
  unfold length
  rw [hb.dtype]
  exact Int.mul_le_mul_of_nonneg_right hb.size (Int.natCast_nonneg _)

/-- What is hosted lies within its host. -/
theorem HostedBy.range_subset (hb : b.HostedBy env h) : b.range env ⊆ h.range env := by
  have hlength := hb.length_le
  unfold range
  rw [hb.offset]
  apply Set.Ico_subset_Ico_right
  omega

/-- What is hosted lies inside if its host does. -/
theorem HostedBy.inside (hb : b.HostedBy env h) (hh : h.Inside env n) : b.Inside env n := by
  obtain ⟨o, ho, hpos, hdvd, hend⟩ := hh
  have hlength := hb.length_le
  rw [hb.offset] at ho
  exact ⟨o, ho, hpos, hdvd, by omega⟩

/-- What lies inside lies inside a larger memory. -/
theorem Inside.mono (hb : b.Inside env n) (hnm : n ≤ m) : b.Inside env m := by
  obtain ⟨o, ho, hpos, hdvd, hend⟩ := hb
  exact ⟨o, ho, hpos, hdvd, by omega⟩

/-- What ends before a buffer starts has no byte in common with it. -/
theorem Inside.disjoint (hb : b.Inside env n) (hn : n ≤ number env h.offset) :
    Disjoint (b.range env) (h.range env) := by
  obtain ⟨o, ho, -, -, hend⟩ := hb
  unfold range
  rw [Set.Ico_disjoint_Ico, number_eq ho]
  omega

end SharedBuffer

/-! ## Hosts -/

/-- The bytes of several buffers, each rounded up. -/
def footprint (env : Env) (buffers : List SharedBuffer) : Int :=
  (buffers.map fun b => roundUp16 (b.length env)).sum

/-- Footprints are added up. -/
theorem footprint_append (l l' : List SharedBuffer) :
    footprint env (l ++ l') = footprint env l + footprint env l' := by
  simp [footprint]

/-- A footprint is a multiple of sixteen. -/
theorem dvd_footprint (l : List SharedBuffer) : 16 ∣ footprint env l := by
  induction l with
  | nil => exact Int.dvd_zero 16
  | cons b l ih => exact Int.dvd_add (dvd_roundUp16 _) ih

/-- Storage of which every buffer has its own: one behind the other, each at a multiple of
sixteen. -/
structure Stacked (env : Env) (sizes : List Scalar) (total : Scalar) (own : List SharedBuffer) :
    Prop where
  total : ∃ u, total.evaluate env = some (.int u) ∧ 0 ≤ u ∧ roundUp16 u = footprint env own
  sized : ∀ h ∈ own, h.size ∈ sizes
  inside : ∀ h ∈ own, h.Inside env (footprint env own)
  separate : own.Pairwise fun h g => Disjoint (h.range env) (g.range env)

variable {sizes : List Scalar} {total : Scalar} {own : List SharedBuffer}

/-- Nothing is stacked. -/
theorem Stacked.nil (env : Env) (sizes : List Scalar) : Stacked env sizes .zero [] where
  total := ⟨0, rfl, Int.le_refl 0, rfl⟩
  sized := by simp
  inside := by simp
  separate := .nil

/-- A buffer behind all others starts at their footprint. -/
theorem Stacked.push (hown : Stacked env sizes total own) {h : SharedBuffer}
    (hoffset : h.offset = align16 total) (hmem : h.size ∈ sizes) (hsize : IsSize env h.size)
    (hfits : Fits64 (footprint env (own ++ [h]))) :
    Stacked env sizes (h.offset.add (h.size.mul (.int h.dtype.bytes))) (own ++ [h]) ∧
      h.offset.evaluate env = some (.int (footprint env own)) := by
  obtain ⟨u, hu, hpos, hround⟩ := hown.total
  have hlength := SharedBuffer.length_nonneg hsize
  have hup := le_roundUp16 (h.length env)
  have hfoot : footprint env (own ++ [h]) = footprint env own + roundUp16 (h.length env) := by
    rw [footprint_append]
    simp [footprint]
  have hfoot₀ : 0 ≤ footprint env own := by
    have := le_roundUp16 u
    omega
  have hstart : h.offset.evaluate env = some (.int (footprint env own)) := by
    rw [hoffset, ← hround]
    exact evaluate_align16 hu hpos (hfits.of_le (by omega) (by omega))
  have hbytes : (h.size.mul (.int h.dtype.bytes)).evaluate env = some (.int (h.length env)) :=
    Scalar.evaluate_mkBinary_of_fits rfl hsize.evaluate.1 rfl (hfits.of_le hlength (by omega))
  refine ⟨⟨⟨footprint env own + h.length env, ?_, by omega, ?_⟩, ?_, ?_, ?_⟩, hstart⟩
  · exact Scalar.evaluate_mkBinary_of_fits rfl hstart hbytes (hfits.of_le (by omega) (by omega))
  · rw [roundUp16_add (dvd_footprint own), hfoot]
  · simpa [or_imp, forall_and] using ⟨hown.sized, hmem⟩
  · intro g hg
    rcases List.mem_append.1 hg with hg | hg
    · exact (hown.inside g hg).mono (by omega)
    · rw [List.mem_singleton.1 hg]
      exact ⟨_, hstart, hfoot₀, dvd_footprint own, by omega⟩
  · rw [List.pairwise_append]
    refine ⟨hown.separate, List.pairwise_singleton _ _, fun g hg b hb => ?_⟩
    rw [List.mem_singleton.1 hb]
    exact (hown.inside g hg).disjoint (by rw [number_eq hstart])

/-- A host as the buffer that opened it. -/
def SharedHost.buffer (h : SharedHost) : SharedBuffer :=
  ⟨h.tensor, h.dtype, h.size, h.offset, none⟩

/-- A reused host stays where it is among the hosts; only its lifetime grows. -/
theorem takeOver_eq_some {r : SharedRequest} {pinned : List ValueId}
    {hosts hosts' : List SharedHost}
    {h : SharedHost} (heq : takeOver r pinned hosts = some (h, hosts')) :
    r.canReuse pinned h = true ∧ ∃ before after, hosts = before ++ h :: after ∧
      hosts' = before ++ { h with last := Max.max h.last r.life.last } :: after := by
  induction hosts generalizing hosts' with
  | nil => cases heq
  | cons g rest ih =>
      rw [takeOver] at heq
      split at heq
      case isTrue hreuse =>
          cases heq
          exact ⟨hreuse, [], rest, rfl, rfl⟩
      case isFalse =>
          obtain ⟨⟨found, rest'⟩, hfound, hcons⟩ := Option.map_eq_some_iff.1 heq
          cases hcons
          obtain ⟨hreuse, before, after, rfl, rfl⟩ := ih hfound
          exact ⟨hreuse, g :: before, after, rfl, rfl⟩

/-- Taking over a host keeps the buffers of all hosts. -/
theorem map_buffer_takeOver {r : SharedRequest} {pinned : List ValueId}
    {hosts hosts' : List SharedHost} {h : SharedHost}
    (heq : takeOver r pinned hosts = some (h, hosts')) :
    hosts'.map SharedHost.buffer = hosts.map SharedHost.buffer := by
  obtain ⟨-, before, after, rfl, rfl⟩ := takeOver_eq_some heq
  simp [SharedHost.buffer]

/-! ## Placing one tensor -/

/-- What is placed so far is sound. -/
structure SharedPlan.Laid (env : Env) (life : ValueId → Lifetime) (sizes : List Scalar)
    (p : SharedPlan) : Prop where
  stacked : Stacked env sizes p.total (p.hosts.map SharedHost.buffer)
  hosted : ∀ b ∈ p.buffers, ∃ h ∈ p.hosts.map SharedHost.buffer, b.HostedBy env h
  /-- A tensor lies outside of a host, or is dead by the end of the host's lifetime. -/
  passed : ∀ h ∈ p.hosts, ∀ b ∈ p.buffers,
    Disjoint (b.range env) (h.buffer.range env) ∨ (life b.tensor).last ≤ h.last
  /-- Of two tensors with a byte in common, one is dead before the other is alive. -/
  apart : p.buffers.Pairwise fun b c =>
    Disjoint (b.range env) (c.range env) ∨ (life b.tensor).last < (life c.tensor).first

namespace SharedPlan.Laid

variable {life : ValueId → Lifetime} {pinned : List ValueId} {p : SharedPlan} {r : SharedRequest}

/-- An empty plan is laid out. -/
theorem empty (env : Env) (life : ValueId → Lifetime) (sizes : List Scalar) :
    Laid env life sizes {} where
  stacked := .nil env sizes
  hosted := by simp
  passed := by simp
  apart := .nil

/-- A tensor takes over a host whose recorded lifetime is over. -/
theorem takeOver (hp : p.Laid env life sizes) (hagree : EqualSizesAgree env sizes)
    (hsize : r.size ∈ sizes) (hlife : r.life = life r.tensor) {h : SharedHost}
    {hosts : List SharedHost} (heq : Kernel.takeOver r pinned p.hosts = some (h, hosts)) :
    Laid env life sizes { p with
      hosts, buffers := p.buffers ++ [⟨r.tensor, r.dtype, r.size, h.offset, some h.tensor⟩] } := by
  have hmap := map_buffer_takeOver heq
  obtain ⟨hreuse, before, after, hhosts, rfl⟩ := takeOver_eq_some heq
  obtain ⟨hdtype, hdead, hfits⟩ : h.dtype = r.dtype ∧ h.last < r.life.first ∧
      fits r.size h.size = true := by
    simp only [SharedRequest.canReuse, Bool.and_eq_true, beq_iff_eq, decide_eq_true_eq] at hreuse
    exact ⟨hreuse.1.1.2, hreuse.1.2, hreuse.2⟩
  set b : SharedBuffer := ⟨r.tensor, r.dtype, r.size, h.offset, some h.tensor⟩
  set h' : SharedHost := { h with last := Max.max h.last r.life.last }
  have hmem : h ∈ p.hosts := by simp [hhosts]
  have hhosted : b.HostedBy env h.buffer := by
    refine ⟨hdtype, rfl, number_le_of_fits hagree hsize ?_ hfits, fun v hv => ?_⟩
    · exact hp.stacked.sized _ (List.mem_map_of_mem hmem)
    · exact Option.some.inj hv
  have hseparate := hp.stacked.separate
  rw [hhosts, List.map_append, List.map_cons, List.pairwise_append, List.pairwise_cons]
    at hseparate
  obtain ⟨-, ⟨hafter, -⟩, hbefore⟩ := hseparate
  refine ⟨?_, ?_, ?_, ?_⟩
  · rw [hmap]
    exact hp.stacked
  · rw [hmap]
    intro c hc
    rcases List.mem_append.1 hc with hc | hc
    · exact hp.hosted c hc
    · rw [List.mem_singleton.1 hc]
      exact ⟨_, List.mem_map_of_mem hmem, hhosted⟩
  · intro g hg c hc
    rcases List.mem_append.1 hc with hc | hc
    · rcases List.mem_append.1 hg with hg | hg
      · exact hp.passed g (by simp [hhosts, hg]) c hc
      · rcases List.mem_cons.1 hg with rfl | hg
        · exact (hp.passed h hmem c hc).imp_right fun hlast => by
            dsimp only [h']
            omega
        · exact hp.passed g (by simp [hhosts, hg]) c hc
    · rw [List.mem_singleton.1 hc]
      rcases List.mem_append.1 hg with hg | hg
      · left
        apply Disjoint.mono_left hhosted.range_subset
        exact (hbefore _ (List.mem_map_of_mem hg) _ List.mem_cons_self).symm
      · rcases List.mem_cons.1 hg with rfl | hg
        · right
          dsimp only [b, h']
          rw [← hlife]
          omega
        · left
          apply Disjoint.mono_left hhosted.range_subset
          exact hafter _ (List.mem_map_of_mem hg)
  · rw [List.pairwise_append]
    refine ⟨hp.apart, List.pairwise_singleton _ _, fun c hc d hd => ?_⟩
    rw [List.mem_singleton.1 hd]
    rcases hp.passed h hmem c hc with hdisjoint | hlast
    · exact .inl (hdisjoint.mono_right hhosted.range_subset)
    · right
      dsimp only [b]
      rw [← hlife]
      omega

/-- A tensor opens a range of its own. -/
theorem openHost (hp : p.Laid env life sizes) (hsize : r.size ∈ sizes)
    (hevaluates : IsSize env r.size)
    (hlife : r.life = life r.tensor) {h : SharedHost}
    (hh : h = ⟨r.tensor, r.dtype, r.size, align16 p.total, r.life.last⟩)
    (hfits : Fits64 (footprint env (p.hosts.map SharedHost.buffer ++ [h.buffer]))) :
    Laid env life sizes {
      hosts := p.hosts ++ [h]
      buffers := p.buffers ++ [h.buffer]
      total := (align16 p.total).add (r.size.mul (.int r.dtype.bytes)) } := by
  subst hh
  set h : SharedHost := ⟨r.tensor, r.dtype, r.size, align16 p.total, r.life.last⟩
  set b := h.buffer
  obtain ⟨hstacked, hstart⟩ := hp.stacked.push (h := b) rfl hsize hevaluates hfits
  have hmap : (p.hosts ++ [h]).map SharedHost.buffer = p.hosts.map SharedHost.buffer ++ [b] := by
    rw [List.map_append, List.map_singleton]
  -- every range so far ends before the new one starts
  have hbehind : ∀ c ∈ p.buffers, Disjoint (c.range env) (b.range env) := by
    intro c hc
    obtain ⟨h, hh, hhosted⟩ := hp.hosted c hc
    exact (hhosted.inside (hp.stacked.inside h hh)).disjoint (by rw [number_eq hstart])
  refine ⟨?_, ?_, ?_, ?_⟩
  · rw [hmap]
    exact hstacked
  · rw [hmap]
    intro c hc
    rcases List.mem_append.1 hc with hc | hc
    · obtain ⟨h, hh, hhosted⟩ := hp.hosted c hc
      exact ⟨h, by simp [hh], hhosted⟩
    · rw [List.mem_singleton.1 hc]
      exact ⟨b, by simp, rfl, rfl, Int.le_refl _, by simp [b, SharedHost.buffer]⟩
  · intro g hg c hc
    rcases List.mem_append.1 hg with hg | hg
    · rcases List.mem_append.1 hc with hc | hc
      · exact hp.passed g hg c hc
      · rw [List.mem_singleton.1 hc]
        have hinside := hp.stacked.inside _ (List.mem_map_of_mem hg)
        exact .inl (hinside.disjoint (by rw [number_eq hstart])).symm
    · rw [List.mem_singleton.1 hg]
      rcases List.mem_append.1 hc with hc | hc
      · exact .inl (hbehind c hc)
      · rw [List.mem_singleton.1 hc]
        right
        dsimp only [b, h, SharedHost.buffer]
        rw [hlife]
  · rw [List.pairwise_append]
    refine ⟨hp.apart, List.pairwise_singleton _ _, fun c hc d hd => ?_⟩
    rw [List.mem_singleton.1 hd]
    exact .inl (hbehind c hc)

/-- Placing one tensor keeps the layout sound. -/
theorem place (hp : p.Laid env life sizes) (hagree : EqualSizesAgree env sizes)
    (hsize : r.size ∈ sizes) (hevaluates : IsSize env r.size) (hlife : r.life = life r.tensor)
    (hfits : Fits64 (footprint env ((p.place pinned r).hosts.map SharedHost.buffer))) :
    (p.place pinned r).Laid env life sizes := by
  unfold SharedPlan.place at hfits ⊢
  cases heq : Kernel.takeOver r pinned p.hosts with
  | some found =>
      obtain ⟨h, hosts⟩ := found
      exact hp.takeOver hagree hsize hlife heq
  | none =>
      rw [heq] at hfits
      apply hp.openHost hsize hevaluates hlife rfl
      simpa using hfits

end SharedPlan.Laid

/-! ## Placing all tensors -/

variable {life : ValueId → Lifetime} {pinned : List ValueId}

/-- The hosts are the buffers with storage of their own. -/
theorem map_buffer_foldl (rs : List SharedRequest) {p : SharedPlan}
    (hp : p.hosts.map SharedHost.buffer = p.buffers.filter (·.host.isNone)) :
    (rs.foldl (SharedPlan.place pinned) p).hosts.map SharedHost.buffer =
      (rs.foldl (SharedPlan.place pinned) p).buffers.filter (·.host.isNone) := by
  apply List.foldlRecOn (motive := fun p : SharedPlan =>
    p.hosts.map SharedHost.buffer = p.buffers.filter (·.host.isNone)) _ _ hp
  intro p hp r _
  unfold SharedPlan.place
  split
  case h_1 heq => simp [map_buffer_takeOver heq, hp]
  case h_2 => simp [hp, SharedHost.buffer]

/-- Placing a tensor never makes the storage smaller. -/
theorem footprint_le_place (pinned : List ValueId) (p : SharedPlan) {r : SharedRequest}
    (hr : IsSize env r.size) :
    footprint env (p.hosts.map SharedHost.buffer) ≤
      footprint env ((p.place pinned r).hosts.map SharedHost.buffer) := by
  unfold SharedPlan.place
  cases heq : takeOver r pinned p.hosts with
  | some found => simp only [map_buffer_takeOver heq, Int.le_refl]
  | none =>
      have hlength := SharedBuffer.length_nonneg (b := ⟨r.tensor, r.dtype, r.size, .zero, none⟩) hr
      have hup := le_roundUp16 (number env r.size * r.dtype.bytes)
      simp only [SharedBuffer.length] at hlength
      simp only [List.map_append, footprint_append]
      simp only [footprint, List.map_cons, List.map_nil, List.sum_cons, List.sum_nil,
        SharedHost.buffer, SharedBuffer.length]
      omega

/-- Further requests do not make the footprint smaller. -/
theorem footprint_le_foldl (pinned : List ValueId) (rs : List SharedRequest) (p : SharedPlan)
    (hrs : ∀ r ∈ rs, IsSize env r.size) :
    footprint env (p.hosts.map SharedHost.buffer) ≤
      footprint env ((rs.foldl (SharedPlan.place pinned) p).hosts.map SharedHost.buffer) := by
  induction rs generalizing p with
  | nil => exact Int.le_refl _
  | cons r rs ih =>
      have hplace := footprint_le_place pinned p (hrs r List.mem_cons_self)
      exact hplace.trans (ih _ fun s hs => hrs s (List.mem_cons_of_mem r hs))

/-- Placing all tensors gives a sound layout. -/
theorem SharedPlan.Laid.foldl (hagree : EqualSizesAgree env sizes) (rs : List SharedRequest)
    {p : SharedPlan} (hp : p.Laid env life sizes)
    (hrs : ∀ r ∈ rs, r.size ∈ sizes ∧ IsSize env r.size ∧ r.life = life r.tensor)
    (hfits : Fits64
      (footprint env ((rs.foldl (SharedPlan.place pinned) p).hosts.map SharedHost.buffer))) :
    (rs.foldl (SharedPlan.place pinned) p).Laid env life sizes := by
  induction rs generalizing p with
  | nil => exact hp
  | cons r rs ih =>
      obtain ⟨hsize, hevaluates, hlife⟩ := hrs r List.mem_cons_self
      have hrest : ∀ s ∈ rs, s.size ∈ sizes ∧ IsSize env s.size ∧ s.life = life s.tensor :=
        fun s hs => hrs s (List.mem_cons_of_mem r hs)
      have hpos : 0 ≤ footprint env (p.hosts.map SharedHost.buffer) := by
        obtain ⟨u, -, hu, hround⟩ := hp.stacked.total
        have := le_roundUp16 u
        omega
      have hplace := footprint_le_place pinned p hevaluates
      have hend := footprint_le_foldl pinned rs (p.place pinned r)
        fun s hs => (hrest s hs).2.1
      refine ih (hp.place hagree hsize hevaluates hlife ?_) hrest hfits
      exact hfits.of_le (by omega) hend

/-! ## The layout of a body -/

/-- The bytes of the buffers with storage of their own, each rounded up. -/
def SharedLayout.footprint (env : Env) (l : SharedLayout) : Int :=
  Kernel.footprint env (l.buffers.filter (·.host.isNone))

/-- The layout of shared memory for a body is sound. -/
structure LaidOut (env : Env) (dtypeOf : ValueId → DataType) (body : List Stmt)
    (l : SharedLayout) : Prop where
  /-- There is a buffer for every shared allocation. -/
  allocated : (l.buffers.map fun b => (b.tensor, b.dtype, b.size)).Perm
    ((sharedAllocations body).map fun a => (a.tensor, dtypeOf a.tensor, a.size))
  bytes : l.bytes.evaluate env = some (.int (l.footprint env))
  aligned : 16 ∣ l.footprint env
  inside : ∀ b ∈ l.buffers, b.Inside env (l.footprint env)
  /-- A buffer that reuses storage has a host with storage of its own. -/
  hosted : ∀ b ∈ l.buffers, ∀ v, b.host = some v →
    ∃ h ∈ l.buffers, h.tensor = v ∧ h.host = none ∧ b.HostedBy env h
  /-- Tensors that are alive at one position have no byte in common. -/
  apart : l.buffers.Pairwise fun b c =>
    (∃ i, Stmt.LiveAt body b.tensor i ∧ Stmt.LiveAt body c.tensor i) →
      Disjoint (b.range env) (c.range env)

/-- Each request gets a buffer of its tensor, type and size, in the order of requests. -/
theorem buffers_foldl (rs : List SharedRequest) (p : SharedPlan) :
    (rs.foldl (SharedPlan.place pinned) p).buffers.map (fun b => (b.tensor, b.dtype, b.size)) =
      p.buffers.map (fun b => (b.tensor, b.dtype, b.size)) ++
        rs.map fun r => (r.tensor, r.dtype, r.size) := by
  induction rs generalizing p with
  | nil => simp
  | cons r rs ih =>
      rw [List.foldl_cons, ih]
      unfold SharedPlan.place
      split <;> simp

/-- The layout of shared memory is sound for every body: every buffer evaluates to a range at a
multiple of sixteen inside of the total, reuses storage of its own type that is large enough, and
shares no byte with a tensor that is alive at the same time. -/
theorem planSharedMemory_laidOut (dtypeOf : ValueId → DataType) (body : List Stmt) (env : Env)
    (hsizes : ∀ a ∈ sharedAllocations body, IsSize env a.size)
    (hagree : EqualSizesAgree env ((sharedAllocations body).map (·.size)))
    (hfits : Fits64 ((planSharedMemory dtypeOf body).footprint env)) :
    LaidOut env dtypeOf body (planSharedMemory dtypeOf body) := by
  set walk := Stmt.lifetimesAll body {} with hwalk
  set life : ValueId → Lifetime := fun v =>
    (walk.live.lookup v).getD ⟨walk.position, walk.position⟩ with hlife
  set requests := (sharedRequests dtypeOf (broadcastTensors body) body).mergeSort
    SharedRequest.comesBefore with hrequests
  have hperm : requests.Perm (sharedRequests dtypeOf (broadcastTensors body) body) :=
    List.mergeSort_perm _ _
  have hmem : ∀ r ∈ requests, r.size ∈ (sharedAllocations body).map (·.size) ∧
      IsSize env r.size ∧ r.life = life r.tensor := by
    intro r hr
    obtain ⟨a, ha, rfl⟩ := List.mem_map.1 (hperm.mem_iff.1 hr)
    exact ⟨List.mem_map_of_mem ha, hsizes a ha, rfl⟩
  set plan := requests.foldl (SharedPlan.place (broadcastTensors body)) {} with hplan
  have hlayout : planSharedMemory dtypeOf body = ⟨plan.buffers, align16 plan.total⟩ := rfl
  have hown : plan.hosts.map SharedHost.buffer = plan.buffers.filter (·.host.isNone) :=
    map_buffer_foldl requests rfl
  rw [hlayout] at hfits ⊢
  simp only [SharedLayout.footprint, ← hown] at hfits
  have hlaid : plan.Laid env life ((sharedAllocations body).map (·.size)) :=
    SharedPlan.Laid.foldl hagree requests (.empty env life _) hmem hfits
  have hfoot : SharedLayout.footprint env ⟨plan.buffers, align16 plan.total⟩ =
      footprint env (plan.hosts.map SharedHost.buffer) := by
    rw [SharedLayout.footprint, hown]
  constructor
  case allocated =>
      rw [hplan, buffers_foldl]
      simp only [List.map_nil, List.nil_append]
      apply (hperm.map _).trans
      simp [sharedRequests, sharedAllocations, Function.comp_def]
  case bytes =>
      obtain ⟨u, hu, hpos, hround⟩ := hlaid.stacked.total
      rw [hfoot, ← hround]
      exact evaluate_align16 hu hpos (hround ▸ hfits)
  case aligned =>
      rw [hfoot]
      exact dvd_footprint _
  case inside =>
      intro b hb
      obtain ⟨h, hh, hhosted⟩ := hlaid.hosted b hb
      rw [hfoot]
      exact hhosted.inside (hlaid.stacked.inside h hh)
  case hosted =>
      intro b hb v hv
      obtain ⟨h, hh, hhosted⟩ := hlaid.hosted b hb
      have hbuffer : h ∈ plan.buffers ∧ h.host = none := by
        rw [hown] at hh
        simpa using hh
      exact ⟨h, hbuffer.1, hhosted.host v hv, hbuffer.2, hhosted⟩
  case apart =>
      refine hlaid.apart.imp fun {b c} hbc ⟨i, hb, hc⟩ => hbc.resolve_right fun hlt => ?_
      obtain ⟨t, ht, -, hlast⟩ := Stmt.covers_of_liveAt hb
      obtain ⟨s, hs, hfirst, -⟩ := Stmt.covers_of_liveAt hc
      simp only [hlife, hwalk, ht, hs, Option.getD_some] at hlt
      omega

/-- Requests that are in order are placed as they come. -/
theorem planSharedMemory_of_ordered (dtypeOf : ValueId → DataType) (body : List Stmt)
    (h : (sharedRequests dtypeOf (broadcastTensors body) body).Pairwise
      fun a b => a.comesBefore b = true) :
    planSharedMemory dtypeOf body =
      let plan := (sharedRequests dtypeOf (broadcastTensors body) body).foldl
        (SharedPlan.place (broadcastTensors body)) {}
      ⟨plan.buffers, align16 plan.total⟩ := by
  simp only [planSharedMemory, List.mergeSort_of_pairwise h]

/-! ## A chain of copies -/

/-- Each of the tensors `1` to `4` is the negation of the one before; `1`, `2` and `3` are shared
and as long as tensor `0`. -/
def negatedInTurn : List Stmt :=
  let element (v : Nat) : Element := ⟨⟨v⟩, .float, .loop ⟨v⟩⟩
  let negation (v : Nat) : Stmt :=
    .loop ⟨⟨v⟩, .size ⟨0⟩ 0, .serial, ⟨0⟩⟩
      [.op (.unary .neg (element v) (.element (element (v - 1))))]
  let shared (v : Nat) : Stmt :=
    .allocate { tensor := ⟨v⟩, memory := .shared, dtype := .float, size := .size ⟨0⟩ 0 }
  [shared 1, shared 2, shared 3, negation 1, negation 2, negation 3, negation 4]

/-- Every dimension has three elements. -/
def threeElements : Env where
  size := fun _ _ => some 3

/-- The third tensor takes over the storage of the first one. -/
theorem negatedInTurn_laidOut :
    (planSharedMemory (fun _ => .float) negatedInTurn).host? ⟨3⟩ = some ⟨1⟩ ∧
      (planSharedMemory (fun _ => .float) negatedInTurn).footprint threeElements = 32 ∧
      LaidOut threeElements (fun _ => .float) negatedInTurn
        (planSharedMemory (fun _ => .float) negatedInTurn) := by
  have hsize : ∀ a ∈ sharedAllocations negatedInTurn, a.size = .size ⟨0⟩ 0 := by
    simp [sharedAllocations, negatedInTurn, Stmt.allocation?]
  have hplan := planSharedMemory_of_ordered (fun _ => .float) negatedInTurn
    (by decide +kernel)
  have hfoot : (planSharedMemory (fun _ => .float) negatedInTurn).footprint threeElements = 32 := by
    rw [hplan]
    decide +kernel
  refine ⟨?_, hfoot, planSharedMemory_laidOut _ _ _ ?_ ?_ ?_⟩
  · rw [hplan]
    decide +kernel
  · intro a ha
    rw [hsize a ha]
    exact ⟨3, rfl, by decide⟩
  · apply equalSizesAgree_of_floatFree
    intro s hs
    obtain ⟨a, ha, rfl⟩ := List.mem_map.1 hs
    rw [hsize a ha]
    rfl
  · rw [hfoot]
    decide

/-! ## Sizes that differ in the sign of a zero -/

/-- Two shared tensors, used one after the other.  Their sizes are written alike but for the sign
of a zero, which decides between 100 elements and one. -/
def signedZeros : List Stmt :=
  let size (zero : Float) : Scalar :=
    .select (.binary .lt (.binary .div (.float 1.0) (.float zero)) (.float 0.0)) (.int 100) (.int 1)
  let shared (v : Nat) (zero : Float) : Stmt :=
    .allocate { tensor := ⟨v⟩, memory := .shared, dtype := .float, size := size zero }
  let clear (v : Nat) : Stmt := .op (.init ⟨⟨v⟩, .float, .int 0⟩ (.float 0.0))
  [shared 0 0.0, shared 1 (-0.0), clear 0, clear 1]

/-- The second tensor takes over the storage of the first one, which is too small. -/
theorem signedZeros_not_laidOut :
    (∀ a ∈ sharedAllocations signedZeros, IsSize {} a.size) ∧
      (planSharedMemory (fun _ => .float) signedZeros).footprint {} = 16 ∧
      ¬ LaidOut {} (fun _ => .float) signedZeros
        (planSharedMemory (fun _ => .float) signedZeros) := by
  have hplan := planSharedMemory_of_ordered (fun _ => .float) signedZeros
    (by decide +kernel)
  have hfoot : (planSharedMemory (fun _ => .float) signedZeros).footprint {} = 16 := by
    rw [hplan]
    decide +kernel
  have hlength : ((planSharedMemory (fun _ => .float) signedZeros).buffers.any fun b =>
      decide (b.length {} = 400)) = true := by
    rw [hplan]
    decide +kernel
  refine ⟨?_, hfoot, fun h => ?_⟩
  · intro a ha
    rcases List.mem_cons.1 ha with rfl | ha
    · exact ⟨1, rfl, by decide⟩
    · rw [List.mem_singleton.1 ha]
      exact ⟨100, rfl, by decide⟩
  · obtain ⟨b, hb, hbytes⟩ := List.any_eq_true.1 hlength
    have hbytes := of_decide_eq_true hbytes
    obtain ⟨o, -, hpos, -, hend⟩ := h.inside b hb
    rw [hfoot] at hend
    omega

end Kernel
end FusionCompiler
