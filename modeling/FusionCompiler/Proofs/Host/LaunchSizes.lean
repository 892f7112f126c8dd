import FusionCompiler.Host.Binding
import FusionCompiler.Lower.Lowered
import FusionCompiler.Proofs.Schedule.FrozenCalls
import FusionCompiler.Proofs.Words

/-!
# Sizes of a launch

A launch type is as wide as the widest loop bound to it.  Widths and bytes are
worked out as 64-bit integers and then stored in 32 bits each, so that a launch is
what its extents ask for as long as they are below `2 ^ 32`.  Above that a width
keeps its remainder only, and where that is zero the launch has no threads.  The
number of threads is a product of six widths in a word of 64 bits, and a launch
whose threads do not fit is empty as well where the word keeps nothing of them.

Main results:

- Theorem `Binding.launchSize_narrowed`: the size of a launch type is the largest
  of its extents up to a multiple of the modulus.
- Theorem `LaunchDims.threads_eq_zero_iff`: a launch whose threads can be counted
  has none if and only if one of its sizes is zero.
- Theorem `Kernel.dynamicSharedBytes_of_fits`: the shared memory that is planned is
  that of buffers and workspace, if a word holds it.
- Theorem `Binding.launchDims_exact_iff`: a launch is as wide as its extents, and
  has the shared memory that is planned, if and only if these are below the
  modulus; how many threads it has, and when it is empty.
-/

namespace FusionCompiler

open Results

/-! ## Widths -/

/-- The largest of zero and the values of some scalars, all of which are known. -/
structure Kernel.IsWidest (env : Scalar.Env) (extents : Scalar → Prop) (w : Int) : Prop where
  nonneg : 0 ≤ w
  le : ∀ s, extents s → ∃ n, s.evaluateInt env = some n ∧ n ≤ w
  reached : w = 0 ∨ ∃ s, extents s ∧ s.evaluateInt env = some w

/-- What the extents recorded for a launch type ask for: one where there are none, else the largest
of zero and their values. -/
inductive Kernel.IsWidth (env : Scalar.Env) : Option (List Scalar) → Int → Prop where
  | unused : IsWidth env none 1
  | used {extents : List Scalar} {w : Int} (h : IsWidest env (· ∈ extents) w) :
      IsWidth env (some extents) w

namespace Kernel

variable {env : Scalar.Env} {extents : Option (List Scalar)} {w w' : Int}

theorem IsWidest.unique {s : Scalar → Prop} (h : IsWidest env s w) (h' : IsWidest env s w') :
    w = w' := by
  have hle : ∀ {w w'}, IsWidest env s w → IsWidest env s w' → w ≤ w' := by
    intro w w' h h'
    rcases h.reached with rfl | ⟨x, hx, hw⟩
    · exact h'.nonneg
    · obtain ⟨n, hn, hle⟩ := h'.le x hx
      cases hw.symm.trans hn
      exact hle
  exact le_antisymm (hle h h') (hle h' h)

theorem IsWidth.unique (h : IsWidth env extents w) (h' : IsWidth env extents w') : w = w' := by
  cases h with
  | unused => cases h'; rfl
  | used h =>
      cases h' with
      | used h' => exact h.unique h'

theorem IsWidth.nonneg (h : IsWidth env extents w) : 0 ≤ w := by
  cases h with
  | unused => decide
  | used h => exact h.nonneg

instance (env : Scalar.Env) (extents : Option (List Scalar)) (w : Int) :
    Decidable (IsWidth env extents w) :=
  match extents with
  | none => decidable_of_iff (w = 1) ⟨fun h => h ▸ .unused, fun h => h.unique .unused⟩
  | some extents =>
    decidable_of_iff (0 ≤ w ∧ (∀ s ∈ extents, (s.evaluateInt env).any (· ≤ w) = true) ∧
        (w = 0 ∨ ∃ s ∈ extents, s.evaluateInt env = some w)) <| by
      simp only [Option.any_eq_true, decide_eq_true_eq]
      exact ⟨fun h => .used ⟨h.1, h.2.1, h.2.2⟩, fun h => by cases h with
        | used h => exact ⟨h.nonneg, h.le, h.reached⟩⟩

/-! ## Shared memory -/

/-- Bytes of dynamic shared memory that a launch needs, as an integer. -/
def plannedBytes (k : Kernel) (sharedBytes threads : Int) : Int :=
  if k.summary.needsWorkspace then
    (sharedBytes + 15).tdiv 16 * 16 + k.summary.workspaceBytes * threads
  else sharedBytes

/-- The shared memory of a launch is what buffers and workspace need, if a word holds it. -/
theorem dynamicSharedBytes_of_fits (k : Kernel) {sharedBytes threads : Int}
    (hbuffers : Fits64 (sharedBytes + 15)) (hplanned : Fits64 (k.plannedBytes sharedBytes threads)) :
    k.dynamicSharedBytes sharedBytes (wrapped64 threads) = k.plannedBytes sharedBytes threads := by
  unfold plannedBytes at hplanned ⊢
  unfold dynamicSharedBytes
  split
  case isTrue hworkspace =>
    rw [if_pos hworkspace] at hplanned
    dsimp only
    rw [wrapped64_of_fits hbuffers, ← wrapped64_of_fits hplanned]
    -- a word keeps a sum of remainders as it keeps the sum
    have hproduct := (wrapped64_modEq threads).mul_left (k.summary.workspaceBytes : Int)
    exact wrapped64_congr (((wrapped64_modEq _).trans hproduct).add_left _)
  case isFalse => rfl

end Kernel

/-! ## Threads of a launch -/

namespace LaunchDims

variable {d : LaunchDims}

/-- The number of threads is the product of the sizes, as far as a word keeps it. -/
theorem threads_eq (d : LaunchDims) : d.threads = d.sizes.prod % wordModulus := by
  unfold threads blocks threadsPerBlock
  rw [run_wordProduct, run_wordProduct, run_wordProduct, List.prod_cons, List.prod_singleton,
    ← Nat.mul_mod, ← List.prod_append, List.take_append_drop]

/-- A signed word keeps the same of the threads of a block as of the exact product of its sizes. -/
theorem wrapped64_threadsPerBlock (d : LaunchDims) :
    wrapped64 d.threadsPerBlock = wrapped64 (d.sizes.drop 3).prod := by
  rw [threadsPerBlock, run_wordProduct, Int.natCast_emod]
  exact wrapped64_congr (Int.mod_modEq _ _)

/-- A launch whose threads can be counted has none if and only if one of its sizes is zero. -/
theorem threads_eq_zero_iff (h : d.sizes.prod < wordModulus) : d.threads = 0 ↔ 0 ∈ d.sizes := by
  rw [threads_eq, Nat.mod_eq_of_lt h, List.prod_eq_zero_iff]

end LaunchDims

namespace Binding

variable {k : Kernel} {env : Scalar.Env} {d : LaunchDims} {t : ParallelType}

/-! ## Sizes -/

theorem evaluate_eq_ok {s : Scalar} {what : Quantity} {n : Int} :
    evaluate env s what = .ok n ↔ s.evaluateInt env = some n := by
  unfold evaluate
  cases s.evaluateInt env with
  | none => simp
  | some m => simp

/-- The largest of some extents and of a start value. -/
theorem foldlM_max {what : Scalar → Quantity} {extents : List Scalar} {m w : Int}
    (h : extents.foldlM (fun (n : Int) s => do
      return Max.max n (← evaluate env s (what s))) m = .ok w) :
    m ≤ w ∧ (∀ s ∈ extents, ∃ n, s.evaluateInt env = some n ∧ n ≤ w) ∧
      (w = m ∨ ∃ s ∈ extents, s.evaluateInt env = some w) := by
  induction extents generalizing m with
  | nil =>
      cases h
      exact ⟨le_rfl, by simp, .inl rfl⟩
  | cons s extents ih =>
      rw [List.foldlM_cons] at h
      obtain ⟨m', hm', h⟩ := bind_eq_ok.1 h
      obtain ⟨n, hn, hmax⟩ := bind_eq_ok.1 hm'
      rw [evaluate_eq_ok] at hn
      cases hmax
      obtain ⟨hle, hall, hreached⟩ := ih h
      have hn_le : n ≤ w := le_trans (le_max_right m n) hle
      refine ⟨le_trans (le_max_left m n) hle, List.forall_mem_cons.2 ⟨⟨n, hn, hn_le⟩, hall⟩, ?_⟩
      rcases hreached with rfl | ⟨s', hs', hw⟩
      · rcases max_choice m n with hmax | hmax
        · exact .inl hmax
        · exact .inr ⟨s, List.mem_cons_self, by rw [hn, hmax]⟩
      · exact .inr ⟨s', List.mem_cons_of_mem s hs', hw⟩

/-- The size of a launch type is its width up to a multiple of the modulus. -/
theorem launchSize_narrowed {n : Nat} (h : launchSize k env none t = .ok n) :
    ∃ w, Kernel.IsWidth env (k.summary.launch.get? t) w ∧ (n : Int) = w % launchModulus := by
  unfold launchSize at h
  cases hget : k.summary.launch.get? t with
  | none =>
      rw [hget] at h
      cases h
      exact ⟨1, .unused, by decide⟩
  | some extents =>
      rw [hget] at h
      obtain ⟨w, hfold, h⟩ := bind_eq_ok.1 h
      cases h
      obtain ⟨hnonneg, hle, hreached⟩ := foldlM_max hfold
      refine ⟨w, .used ⟨hnonneg, hle, hreached⟩, ?_⟩
      rw [Int.natCast_emod, Int.toNat_of_nonneg hnonneg]

/-- The shared memory of a launch is what its kernel needs up to a multiple of the modulus. -/
theorem sharedBytes_narrowed {threads : Int} {bytes : Nat}
    (h : sharedBytes k env none threads = .ok bytes) :
    ∃ n, k.summary.sharedBytes.evaluateInt env = some n ∧
      (bytes : Int) = max 0 (k.dynamicSharedBytes n threads) % launchModulus := by
  obtain ⟨n, hn, h⟩ := bind_eq_ok.1 h
  cases h
  refine ⟨n, evaluate_eq_ok.1 hn, ?_⟩
  rw [Int.natCast_emod, Int.ofNat_toNat, max_comm]

/-- The sizes of a launch without overrides stand in the order of the launch types. -/
theorem launchDims_cases (h : launchDims k env {} = .ok d) :
    d.sizes = ParallelType.launchTypes.map d.extent ∧
      (∀ t, t.isLaunch = true → launchSize k env none t = .ok (d.extent t)) ∧
      sharedBytes k env none (wrapped64 d.threadsPerBlock) = .ok d.sharedBytes := by
  obtain ⟨sizes, hsizes, h⟩ := bind_eq_ok.1 h
  obtain ⟨bytes, hbytes, h⟩ := bind_eq_ok.1 h
  cases h
  simp only [ParallelType.launchTypes, List.zipIdx_cons, List.zipIdx_nil, List.mapM_cons,
    List.mapM_nil, bind_eq_ok] at hsizes
  obtain ⟨_, hbx, _, ⟨_, hby, _, ⟨_, hbz, _, ⟨_, htx, _, ⟨_, hty, _, ⟨_, htz, _, h₆, h₅⟩, h₄⟩, h₃⟩,
    h₂⟩, h₁⟩, h₀⟩ := hsizes
  cases h₆; cases h₅; cases h₄; cases h₃; cases h₂; cases h₁; cases h₀
  refine ⟨rfl, fun t ht => ?_, hbytes⟩
  cases t <;> first | assumption | cases ht

theorem mem_launchTypes : t ∈ ParallelType.launchTypes ↔ t.isLaunch = true := by
  cases t <;> decide

/-! ## What a launch stands for -/

/-- The widths and the bytes of dynamic shared memory that a launch is to have. -/
structure Intends (k : Kernel) (env : Scalar.Env) (d : LaunchDims) (width : ParallelType → Int)
    (bytes : Int) : Prop where
  width : ∀ t, t.isLaunch = true → Kernel.IsWidth env (k.summary.launch.get? t) (width t)
  /-- What buffers and workspace need is exact, if a word holds it. -/
  planned : ∀ n, k.summary.sharedBytes.evaluateInt env = some n → Fits64 (n + 15) →
    Fits64 (k.plannedBytes n (d.sizes.drop 3).prod) →
      bytes = max 0 (k.plannedBytes n (d.sizes.drop 3).prod)
  bytes : ∃ n, k.summary.sharedBytes.evaluateInt env = some n ∧
    bytes = max 0 (k.dynamicSharedBytes n (wrapped64 d.threadsPerBlock))

/-- What is worked out for buffers and workspace is what a launch is to have. -/
theorem Intends.of_widths {width : ParallelType → Int} {n : Int}
    (hwidth : ∀ t, t.isLaunch = true → Kernel.IsWidth env (k.summary.launch.get? t) (width t))
    (hn : k.summary.sharedBytes.evaluateInt env = some n) :
    Intends k env d width (max 0 (k.dynamicSharedBytes n (wrapped64 d.threadsPerBlock))) := by
  refine ⟨hwidth, fun m hm hbuffers hplanned => ?_, n, hn, rfl⟩
  obtain rfl := Option.some.inj (hn.symm.trans hm)
  rw [LaunchDims.wrapped64_threadsPerBlock, k.dynamicSharedBytes_of_fits hbuffers hplanned]

/-- The product of the widths of a launch, of each of which 32 bits are kept. -/
def widthProduct (width : ParallelType → Int) : Int :=
  (ParallelType.launchTypes.map fun t => width t % launchModulus).prod

/-- A number is kept as it is if and only if it is below the modulus. -/
theorem emod_launchModulus_eq_iff {w : Int} (h : 0 ≤ w) :
    w % launchModulus = w ↔ w < launchModulus := by
  have hpos : (0 : Int) < launchModulus := by decide
  exact ⟨fun heq => heq ▸ Int.emod_lt_of_pos w hpos, fun hlt => Int.emod_eq_of_lt h hlt⟩

/-- A launch without overrides has the widths and the shared memory that its extents ask for if and
only if these are below the modulus, else it has their remainders.  It has as many threads as a word
keeps of the product of these widths; if a word holds the product, the launch is empty if and only
if a width is a multiple of the modulus. -/
theorem launchDims_exact_iff (h : launchDims k env {} = .ok d) :
    ∃ width bytes, Intends k env d width bytes ∧
      (∀ t, t.isLaunch = true → (d.extent t : Int) = width t % launchModulus) ∧
      (d.sharedBytes : Int) = bytes % launchModulus ∧
      ((∀ t, t.isLaunch = true → (d.extent t : Int) = width t) ∧ (d.sharedBytes : Int) = bytes ↔
        (∀ t, t.isLaunch = true → width t < launchModulus) ∧ bytes < launchModulus) ∧
      (d.threads : Int) = widthProduct width % wordModulus ∧
      (widthProduct width < wordModulus →
        (d.threads = 0 ↔ ∃ t, t.isLaunch = true ∧ (launchModulus : Int) ∣ width t)) := by
  obtain ⟨hsizes, hextents, hbytes⟩ := launchDims_cases h
  choose! width hwidth hextent using fun t ht => launchSize_narrowed (hextents t ht)
  obtain ⟨n, hn, hshared⟩ := sharedBytes_narrowed hbytes
  have hproduct : widthProduct width = (d.sizes.prod : Int) := by
    rw [widthProduct, hsizes, Nat.cast_list_prod, List.map_map]
    refine congrArg List.prod (List.map_congr_left fun t ht => ?_)
    exact (hextent t (mem_launchTypes.1 ht)).symm
  refine ⟨width, _, .of_widths hwidth hn, hextent, hshared, ?_, ?_, fun hfits => ?_⟩
  · rw [hshared, emod_launchModulus_eq_iff (le_max_left 0 _)]
    refine and_congr_left fun _ => forall₂_congr fun t ht => ?_
    rw [hextent t ht, emod_launchModulus_eq_iff (hwidth t ht).nonneg]
  · rw [hproduct, LaunchDims.threads_eq, Int.natCast_emod]
  · rw [hproduct] at hfits
    rw [LaunchDims.threads_eq_zero_iff (Int.ofNat_lt.1 hfits), hsizes, List.mem_map]
    refine exists_congr fun t => ?_
    rw [mem_launchTypes]
    refine and_congr_right fun ht => ?_
    rw [Int.dvd_iff_emod_eq_zero, ← hextent t ht, Int.natCast_eq_zero]

/-- A vector is negated twice, once in blocks of 128 threads and once in blocks of 64. -/
def unevenBlocks : List Call :=
  [.tensor [-1] [true] .float, .input ⟨0⟩, .unary .neg (.value ⟨0⟩), .output ⟨4⟩,
    .unary .neg (.value ⟨4⟩), .output ⟨6⟩, .split ⟨4⟩ 0 (.const 128) true,
    .parallelize ⟨4⟩ 0 .blockX, .parallelize ⟨4⟩ 1 .threadX, .split ⟨6⟩ 0 (.const 64) true,
    .parallelize ⟨6⟩ 0 .blockX, .parallelize ⟨6⟩ 1 .threadX]

/-- A vector of a thousand elements is launched with the larger number of blocks and with the larger
number of threads. -/
theorem unevenBlocks_exact :
    ∃ l d width bytes, Lowered.make (Fusion.attemptAll unevenBlocks {}) = .ok l ∧
      launchDims l.kernel { size := fun _ _ => some 1000 } {} = .ok d ∧
      Intends l.kernel { size := fun _ _ => some 1000 } d width bytes ∧
      width .blockX = 16 ∧ width .threadX = 128 ∧ d.extent .blockX = 16 ∧
      d.extent .threadX = 128 ∧ d.threads ≠ 0 := by
  have hrun : (Lowered.make (Fusion.attemptAll unevenBlocks {})).toOption.any (fun l =>
      (launchDims l.kernel { size := fun _ _ => some 1000 } {}).toOption.any fun d =>
        let get? := l.kernel.summary.launch.get?
        decide (Kernel.IsWidth { size := fun _ _ => some 1000 } (get? .blockX) 16 ∧
          Kernel.IsWidth { size := fun _ _ => some 1000 } (get? .threadX) 128 ∧
          d.extent .blockX = 16 ∧ d.extent .threadX = 128 ∧ d.threads ≠ 0)) = true := by
    decide +kernel
  obtain ⟨l, hl, hrun⟩ := (Option.any_eq_true _ _).1 hrun
  obtain ⟨d, hd, hchecks⟩ := (Option.any_eq_true _ _).1 hrun
  obtain ⟨hblocks, hthreads, hchecks⟩ := of_decide_eq_true hchecks
  have hdims := ok_of_toOption hd
  obtain ⟨width, bytes, hintends, -⟩ := launchDims_exact_iff hdims
  exact ⟨l, d, width, bytes, ok_of_toOption hl, hdims, hintends,
    (hintends.width .blockX rfl).unique hblocks, (hintends.width .threadX rfl).unique hthreads,
    hchecks⟩

/-- A vector is negated in blocks of `2 ^ 32` threads. -/
def hugeBlock : List Call :=
  [.tensor [4] [true] .float, .input ⟨0⟩, .unary .neg (.value ⟨0⟩), .output ⟨4⟩,
    .split ⟨4⟩ 0 (.const 4294967296) true, .parallelize ⟨4⟩ 1 .threadX]

/-- No width is zero, but the launch is empty. -/
theorem hugeBlock_not_launched :
    ∃ l d, Lowered.make (Fusion.attemptAll hugeBlock {}) = .ok l ∧
      launchDims l.kernel {} {} = .ok d ∧
      Kernel.IsWidth {} (l.kernel.summary.launch.get? .threadX) 4294967296 ∧
      d.extent .threadX = 0 ∧
      (∀ t ∈ ParallelType.launchTypes, ¬ Kernel.IsWidth {} (l.kernel.summary.launch.get? t) 0) ∧
      d.threads = 0 := by
  have hrun : (Lowered.make (Fusion.attemptAll hugeBlock {})).toOption.any (fun l =>
      (launchDims l.kernel {} {}).toOption.any fun d =>
        decide (Kernel.IsWidth {} (l.kernel.summary.launch.get? .threadX) 4294967296 ∧
          d.extent .threadX = 0 ∧
          (∀ t ∈ ParallelType.launchTypes, ¬ Kernel.IsWidth {} (l.kernel.summary.launch.get? t) 0) ∧
          d.threads = 0)) = true := by
    decide +kernel
  obtain ⟨l, hl, hrun⟩ := (Option.any_eq_true _ _).1 hrun
  obtain ⟨d, hd, hchecks⟩ := (Option.any_eq_true _ _).1 hrun
  exact ⟨l, d, ok_of_toOption hl, ok_of_toOption hd, of_decide_eq_true hchecks⟩

end Binding
end FusionCompiler
