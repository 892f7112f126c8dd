import Mathlib
import FusionCompiler.Heuristic.Choice
import FusionCompiler.Host.Alignment
import FusionCompiler.Host.Tensor
import FusionCompiler.Lower.Validate
import FusionCompiler.Proofs.Schedule.Calls

/-!
# Proposed schedules

A schedule is proposed from ranks, reductions and sizes.  A point-wise schedule is
proposed with vectors if all inputs are row-major and the width divides their
innermost sizes.  That is what the check of a launch asks for: a row-major layout has
no gaps, whatever dimensions are merged, and the innermost size divides the strides
of the others.

Whether a proposal can be carried out depends on more.  The check of the lowering
bounds the bytes of a vector, and these depend on the element type.  Transforms spread
along expressions only, so a tensor that has nothing to do with the reference keeps
its own leaves.

Main results:

- Theorem `Heuristic.check_of_rowMajor`: a row-major layout takes vectors of any
  width that divides its innermost size.
- Theorem `Heuristic.isRowMajor_rowMajorStrides`: contiguous tensors are row-major.
- Theorem `Heuristic.propose_vectorWidth`: what the checks say to a proposed width.
- Theorem `Heuristic.propose_cases`: one of the schedules proposes the parameters.
- Theorems `Heuristic.negatedDoubles_not_vectorizable` and
  `Heuristic.separateCopies_not_scheduled`: what a proposal overlooks.
-/

namespace FusionCompiler
namespace Heuristic

open Fusion Kernel LoopPlan

variable {f : Fusion} {args : Arguments} {w n : Nat} {v : ValueId}

/-- A fusion with the schedule that is proposed for arguments of given shapes, and its loops. -/
def scheduledPlan? (f : Fusion) (shapes : List ArgumentShape) : Option LoopPlan := do
  let args ← (Arguments.ofShapes f shapes).toOption
  let params ← (propose f args).toOption
  let f' ← ((schedule params).applyTo f).toOption
  let groups ← (LoopGroups.build f').toOption
  return ⟨f', groups⟩

/-! ## Row-major layouts -/

theorem rowMajorFrom_cons {p : Nat × Nat} {pairs : List (Nat × Nat)} :
    Pointwise.rowMajorFrom n (p :: pairs) = true ↔
      (1 < p.1 → p.2 = n) ∧ Pointwise.rowMajorFrom (n * p.1) pairs = true := by
  rw [Pointwise.rowMajorFrom, Bool.and_eq_true]
  refine and_congr_left fun _ => ?_
  by_cases hsize : 1 < p.1
  · simp [hsize]
  · simp [hsize]

theorem rowMajorFrom_append (n : Nat) (pairs pairs' : List (Nat × Nat)) :
    Pointwise.rowMajorFrom n (pairs ++ pairs') = (Pointwise.rowMajorFrom n pairs &&
      Pointwise.rowMajorFrom (n * (pairs.map Prod.fst).prod) pairs') := by
  induction pairs generalizing n with
  | nil => simp [Pointwise.rowMajorFrom]
  | cons p pairs ih =>
      rw [List.cons_append, Pointwise.rowMajorFrom, Pointwise.rowMajorFrom, ih, Bool.and_assoc,
        List.map_cons, List.prod_cons, Nat.mul_assoc]

theorem rowMajorFrom_take {pairs : List (Nat × Nat)} (m : Nat)
    (h : Pointwise.rowMajorFrom n pairs = true) :
    Pointwise.rowMajorFrom n (pairs.take m) = true := by
  rw [← List.take_append_drop m pairs, rowMajorFrom_append, Bool.and_eq_true] at h
  exact h.1

/-- What divides the number of elements inside divides the strides outside. -/
theorem dvd_of_rowMajorFrom {pairs : List (Nat × Nat)} {p : Nat × Nat}
    (h : Pointwise.rowMajorFrom n pairs = true) (hdvd : w ∣ n) (hp : p ∈ pairs) (hsize : 1 < p.1) :
    w ∣ p.2 := by
  induction pairs generalizing n with
  | nil => cases hp
  | cons q pairs ih =>
      obtain ⟨hstride, hrest⟩ := rowMajorFrom_cons.1 h
      rcases List.mem_cons.1 hp with rfl | hp
      · rwa [hstride hsize]
      · exact ih hrest (hdvd.mul_right q.1) hp

/-- Dimensions in row-major order have no gaps. -/
theorem gap?_of_rowMajorFrom {pairs : List (Nat × Nat)} {dims : List (Nat × Nat × Int)}
    (h : Pointwise.rowMajorFrom n pairs = true)
    (hdims : dims.map Prod.snd = pairs.map fun p => (p.1, (p.2 : Int))) :
    VectorAccess.gap? n dims = none := by
  induction pairs generalizing n dims with
  | nil =>
      rw [List.map_eq_nil_iff.1 hdims]
      rfl
  | cons p pairs ih =>
      obtain ⟨d, rest, rfl, hd, hrest⟩ := List.map_eq_cons_iff.1 hdims
      obtain ⟨dim, size, stride⟩ := d
      cases hd
      obtain ⟨hstride, h⟩ := rowMajorFrom_cons.1 h
      rw [VectorAccess.gap?, if_neg, ← Nat.cast_mul]
      · exact ih h hrest
      · by_cases hsize : 1 < p.1
        · simp [hstride hsize]
        · simp [hsize]

/-- The dimensions of a layout with their numbers, the innermost one apart. -/
theorem exists_innermost {sizes strides : List Nat} (hlength : strides.length = sizes.length)
    (hlast : sizes.getLast? = some n) :
    ∃ (init : List (Nat × Nat × Int)) (dim stride : Nat) (rest : List (Nat × Nat)),
      (List.range sizes.length).zip (sizes.zip (strides.map fun s : Nat => (s : Int))) =
        init ++ [(dim, n, (stride : Int))] ∧
      (sizes.zip strides).reverse = (n, stride) :: rest ∧
      init.reverse.map Prod.snd = rest.map fun p => (p.1, (p.2 : Int)) := by
  obtain ⟨outer, rfl⟩ := List.getLast?_eq_some_iff.1 hlast
  obtain ⟨steps, stride, rfl⟩ : ∃ steps stride, strides = steps ++ [stride] :=
    (List.eq_nil_or_concat' strides).resolve_left fun hnil => by simp [hnil] at hlength
  have hsteps : steps.length = outer.length := by simpa using hlength
  refine ⟨(List.range outer.length).zip (outer.zip (steps.map fun s : Nat => (s : Int))),
    outer.length, stride, (outer.zip steps).reverse, ?_, ?_, ?_⟩
  · rw [List.length_append, List.length_singleton, List.range_succ, List.map_append,
      List.zip_append (by simp [hsteps]), List.zip_append (by simp [hsteps])]
    rfl
  · rw [List.zip_append hsteps.symm, List.reverse_append]
    rfl
  · rw [List.map_reverse, List.map_snd_zip (by simp [hsteps]), List.zip_map_right,
      List.map_reverse]
    rfl

/-- A layout takes vectors if the innermost stride is one, no dimensions have gaps between them,
and the width divides the innermost size and the strides of the other dimensions. -/
theorem check_of_innermost {a : VectorAccess} {sizes : List Nat} {strides : List Int} {dim : Nat}
    {stride : Int} {init : List (Nat × Nat × Int)}
    (hdims : (List.range sizes.length).zip (sizes.zip strides) = init ++ [(dim, n, stride)])
    (hunit : 1 < n → stride = 1)
    (hgap : ∀ outer, VectorAccess.gap? 1 ((init ++ [(dim, n, stride)]).drop outer).reverse = none)
    (hdvd : a.width ∣ n) (houtside : ∀ d ∈ init, 1 < d.2.1 → (a.width : Int) ∣ d.2.2) :
    a.check sizes strides = .ok () := by
  have hnone : a.fault? sizes strides = none := by
    unfold VectorAccess.fault?
    rw [hdims]
    dsimp only
    generalize houter : (init ++ [(dim, n, stride)]).length -
      Min.min (Max.max a.mergedDims 1) (init ++ [(dim, n, stride)]).length = outer
    have hle : outer ≤ init.length := by
      rw [List.length_append, List.length_singleton] at houter
      omega
    have hinner : (decide (1 < n) && stride != 1) = false := by
      by_cases hwide : 1 < n
      · simp [hunit hwide]
      · simp [hwide]
    have hextent : (((init ++ [(dim, n, stride)]).drop outer).map fun d => d.2.1).foldl (· * ·) 1 %
        a.width = 0 := by
      rw [← List.prod_eq_foldl, List.drop_append_of_le_length hle]
      exact Nat.mod_eq_zero_of_dvd (hdvd.trans (List.dvd_prod (by simp)))
    have hmisfit : ((init ++ [(dim, n, stride)]).take outer).find? (fun d =>
        1 < d.2.1 && d.2.2 % (a.width : Int) != 0) = none := by
      rw [List.find?_eq_none, List.take_append_of_le_length hle]
      intro d hd
      have hfits := houtside d (List.mem_of_mem_take hd)
      by_cases hwide : 1 < d.2.1
      · simp [hwide, Int.emod_eq_zero_of_dvd (hfits hwide)]
      · simp [hwide]
    rw [List.getLast?_append_of_ne_nil _ (by simp), List.getLast?_singleton]
    simp only [hinner, hgap outer, hextent, hmisfit]
    simp
  rw [VectorAccess.check, hnone]

/-- A row-major layout takes vectors of any width that divides its innermost size, whatever
dimensions are merged. -/
theorem check_of_rowMajor {a : VectorAccess} {sizes strides : List Nat}
    (hlength : strides.length = sizes.length) (hrow : Pointwise.isRowMajor sizes strides = true)
    (hlast : sizes.getLast? = some n) (hdvd : a.width ∣ n) :
    a.check sizes (strides.map fun s : Nat => (s : Int)) = .ok () := by
  obtain ⟨init, dim, stride, rest, hdims, hpairs, hrest⟩ := exists_innermost hlength hlast
  rw [Pointwise.isRowMajor, hpairs] at hrow
  obtain ⟨hunit, hinner⟩ := rowMajorFrom_cons.1 hrow
  refine check_of_innermost hdims (fun hwide => by exact_mod_cast hunit hwide) (fun outer => ?_)
    hdvd fun d hd hwide => ?_
  · have htake := rowMajorFrom_take ((init ++ [(dim, n, (stride : Int))]).length - outer) hrow
    rw [List.reverse_drop, List.reverse_append]
    refine gap?_of_rowMajorFrom (n := 1) htake ?_
    rw [List.map_take, List.map_take, List.map_append, hrest]
    rfl
  · have hmem : d.2 ∈ init.reverse.map Prod.snd := List.mem_map_of_mem (List.mem_reverse.2 hd)
    rw [hrest] at hmem
    obtain ⟨q, hq, hqd⟩ := List.mem_map.1 hmem
    rw [← hqd] at hwide ⊢
    exact Int.natCast_dvd_natCast.2 (dvd_of_rowMajorFrom hinner (hdvd.mul_left 1) hq hwide)

/-! ## Contiguous layouts -/

theorem rowMajorStrides_cons {sizes : List Nat} (n : Nat) (hpos : ∀ k ∈ sizes, 0 < k) :
    rowMajorStrides (n :: sizes) = sizes.prod :: rowMajorStrides sizes := by
  induction sizes generalizing n with
  | nil => rfl
  | cons k sizes ih =>
      have hk := hpos k List.mem_cons_self
      rw [rowMajorStrides, ih k fun m hm => hpos m (List.mem_cons_of_mem k hm), List.prod_cons,
        Nat.max_eq_left hk, Nat.mul_comm]

theorem length_rowMajorStrides {sizes : List Nat} (hpos : ∀ k ∈ sizes, 0 < k) :
    (rowMajorStrides sizes).length = sizes.length := by
  induction sizes with
  | nil => rfl
  | cons k sizes ih =>
      have hrest : ∀ m ∈ sizes, 0 < m := fun m hm => hpos m (List.mem_cons_of_mem k hm)
      rw [rowMajorStrides_cons k hrest, List.length_cons, List.length_cons, ih hrest]

theorem contiguousStrides_eq (sizes : List Nat) :
    contiguousStrides sizes = (rowMajorStrides sizes).map fun s : Nat => (s : Int) := by
  induction sizes using rowMajorStrides.induct with
  | case1 => rfl
  | case2 => rfl
  | case3 n k sizes hnil ih =>
      rw [contiguousStrides, rowMajorStrides, ih, hnil]
      rfl
  | case4 n k sizes s strides hcons ih =>
      rw [contiguousStrides, rowMajorStrides, ih, hcons]
      simp

/-- Without empty dimensions, contiguous tensors are row-major. -/
theorem isRowMajor_rowMajorStrides {sizes : List Nat} (hpos : ∀ k ∈ sizes, 0 < k) :
    Pointwise.isRowMajor sizes (rowMajorStrides sizes) = true := by
  induction sizes with
  | nil => rfl
  | cons k sizes ih =>
      have hrest : ∀ m ∈ sizes, 0 < m := fun m hm => hpos m (List.mem_cons_of_mem k hm)
      have hfst : (sizes.zip (rowMajorStrides sizes)).map Prod.fst = sizes :=
        List.map_fst_zip (length_rowMajorStrides hrest).ge
      have hrow := ih hrest
      rw [Pointwise.isRowMajor] at hrow ⊢
      rw [rowMajorStrides_cons k hrest, List.zip_cons_cons, List.reverse_cons, rowMajorFrom_append,
        hrow, List.map_reverse, hfst, List.prod_reverse]
      simp [Pointwise.rowMajorFrom]

/-! ## Proposed widths -/

/-- Every access by vectors of a width fits a layout, whatever dimensions it merges. -/
def AcceptsVectors (w : Nat) (sizes : List Nat) (strides : List Int) : Prop :=
  ∀ a : VectorAccess, a.width = w → a.check sizes strides = .ok ()

/-- An argument with an innermost size of a rank is row-major. -/
theorem innermostSize?_eq {rank : Nat} (h : Pointwise.innermostSize? args rank v = some n) :
    ∃ sizes strides, args.sizes? v = some sizes ∧ args.strides? v = some strides ∧
      sizes.length = rank ∧ Pointwise.isRowMajor sizes strides = true ∧
      sizes.getLast? = some n := by
  unfold Pointwise.innermostSize? at h
  split at h
  case h_2 => cases h
  case h_1 sizes strides hsizes hstrides =>
      split at h
      case isFalse => cases h
      case isTrue hrow =>
          rw [Bool.and_eq_true, decide_eq_true_eq] at hrow
          exact ⟨sizes, strides, hsizes, hstrides, hrow.1, hrow.2, h⟩

/-- A width of more than one is two or four.  Then nothing is a broadcast, and each input has an
innermost size that the width divides. -/
theorem vectorWidth_cases {rank : Nat} (h : 1 < Pointwise.vectorWidth f args rank) :
    f.hasBroadcastRoot = false ∧ ∃ w : Nat, Pointwise.vectorWidth f args rank = w ∧
      (w = 2 ∨ w = 4) ∧ ∀ v ∈ f.inputTensors, ∃ n,
        Pointwise.innermostSize? args rank v = some n ∧ w ∣ n := by
  unfold Pointwise.vectorWidth at h ⊢
  split at h
  case isTrue => cases h
  case isFalse hrank =>
      rw [if_neg hrank]
      rw [Bool.or_eq_true, not_or, Bool.not_eq_true (f.hasBroadcastRoot)] at hrank
      refine ⟨hrank.2, ?_⟩
      split at h
      case h_1 => cases h
      case h_2 innermost hinnermost =>
          have hall : ∀ w : Nat, innermost.all (· % w == 0) = true → ∀ v ∈ f.inputTensors, ∃ n,
              Pointwise.innermostSize? args rank v = some n ∧ w ∣ n := by
            intro w hdvd v hv
            obtain ⟨n, hn, hsize⟩ := Results.exists_mem_mapM_some hinnermost hv
            exact ⟨n, hsize, Nat.dvd_of_mod_eq_zero (by simpa using List.all_eq_true.1 hdvd n hn)⟩
          split at h
          case isTrue hfour =>
              refine ⟨4, ?_, .inr rfl, hall 4 hfour⟩
              rw [if_pos hfour]
              rfl
          case isFalse hfour =>
              split at h
              case isFalse => cases h
              case isTrue htwo =>
                  refine ⟨2, ?_, .inl rfl, hall 2 htwo⟩
                  rw [if_neg hfour, if_pos htwo]
                  rfl

/-- The check of a leaf of constant width looks at the bytes of a vector only. -/
theorem vectorWidth_iff {leaf : AxisId} (hw : w = 2 ∨ w = 4)
    (hleaf : f.constInt? (f.extent leaf) = some (w : Int)) :
    LoopPlan.vectorWidth f v leaf = .ok w ↔ w * (f.dtype v).bytes ≤ 16 := by
  have hpower : LoopPlan.isPowerOfTwo w = true := by
    rcases hw with rfl | rfl <;> decide
  obtain ⟨k, rfl⟩ : ∃ k, w = k + 1 := ⟨w - 1, by omega⟩
  have heq : LoopPlan.vectorWidth f v leaf =
      if LoopPlan.isPowerOfTwo (k + 1) && (k + 1) * (f.dtype v).bytes ≤ 16 then .ok (k + 1)
      else .error (.invalidVectorize v .widthTooLarge) := by
    unfold LoopPlan.vectorWidth
    rw [hleaf]
  rw [heq, hpower, Bool.true_and]
  by_cases hbytes : (k + 1) * (f.dtype v).bytes ≤ 16
  · simp [hbytes]
  · simp [hbytes]

/-- A fusion gets the parameters that one of the schedules proposes. -/
theorem propose_cases {params : Params} (h : propose f args = .ok params) :
    (∃ p, params = .pointwise p ∧ Pointwise.propose f args = .ok p) ∨
      (∃ p, params = .reduction p ∧ Reduction.propose f args = .ok p) ∨
      ∃ p, params = .transpose p ∧ Transpose.propose? f args = some p := by
  unfold propose at h
  obtain ⟨_, -, h⟩ := Results.bind_eq_ok.1 h
  split at h
  case h_1 =>
      split at h
      case h_1 p hp =>
          cases h
          exact .inr (.inr ⟨p, rfl, hp⟩)
      case h_2 =>
          obtain ⟨p, hp, h⟩ := Results.bind_eq_ok.1 h
          cases h
          exact .inl ⟨p, rfl, hp⟩
  case h_2 =>
      obtain ⟨p, hp, h⟩ := Results.bind_eq_ok.1 h
      cases h
      exact .inr (.inl ⟨p, rfl, hp⟩)

/-- The width that is proposed is that of the reference. -/
theorem Pointwise.propose_vectorWidth_eq {params : PointwiseParams}
    (h : Pointwise.propose f args = .ok params) :
    ∃ v, Pointwise.reference f = .ok v ∧
      params.vectorWidth = Pointwise.vectorWidth f args (f.shape v).length := by
  obtain ⟨v, hv, h⟩ := Results.bind_eq_ok.1 h
  cases h
  exact ⟨v, hv, rfl⟩

/-- A proposed width of more than one is two or four.  The check of the lowering accepts it just
for elements of which a vector fills at most sixteen bytes.  The check of a launch accepts every
input, and contiguous tensors with the innermost size of an input. -/
theorem propose_vectorWidth {params : PointwiseParams} (h : propose f args = .ok (.pointwise params))
    (hwide : 1 < params.vectorWidth) :
    f.hasBroadcastRoot = false ∧ ∃ w : Nat, params.vectorWidth = w ∧ (w = 2 ∨ w = 4) ∧
      (∀ (g : Fusion) (v : ValueId) (leaf : AxisId), g.constInt? (g.extent leaf) = some (w : Int) →
        (LoopPlan.vectorWidth g v leaf = .ok w ↔ w * (g.dtype v).bytes ≤ 16)) ∧
      ∀ v ∈ f.inputTensors, ∃ sizes strides n, args.sizes? v = some sizes ∧
        args.strides? v = some strides ∧ sizes.getLast? = some n ∧
        (strides.length = sizes.length →
          AcceptsVectors w sizes (strides.map fun s : Nat => (s : Int))) ∧
        ∀ shape, (∀ k ∈ shape, 0 < k) → shape.getLast? = some n →
          AcceptsVectors w shape (contiguousStrides shape) := by
  obtain ⟨_, heq, hp⟩ | ⟨_, heq, -⟩ | ⟨_, heq, -⟩ := propose_cases h <;> cases heq
  obtain ⟨reference, -, hrank⟩ := Pointwise.propose_vectorWidth_eq hp
  rw [hrank] at hwide
  obtain ⟨hconcrete, w, hw, hvalue, hinputs⟩ := vectorWidth_cases hwide
  refine ⟨hconcrete, w, hrank.trans hw, hvalue, fun g v leaf hleaf => vectorWidth_iff hvalue hleaf,
    fun v hv => ?_⟩
  obtain ⟨n, hn, hdvd⟩ := hinputs v hv
  obtain ⟨sizes, strides, hsizes, hstrides, -, hrow, hlast⟩ := innermostSize?_eq hn
  refine ⟨sizes, strides, n, hsizes, hstrides, hlast, fun hlength a ha => ?_,
    fun shape hpos hshape a ha => ?_⟩
  · exact check_of_rowMajor hlength hrow hlast (ha ▸ hdvd)
  · rw [contiguousStrides_eq]
    exact check_of_rowMajor (length_rowMajorStrides hpos) (isRowMajor_rowMajorStrides hpos) hshape
      (ha ▸ hdvd)

/-- The negation of a vector. -/
def negatedVector (t : DataType) : List Call :=
  [.tensor [-1] [true] t, .input ⟨0⟩, .unary .neg (.value ⟨0⟩), .output ⟨4⟩]

/-- Four floats fill sixteen bytes. -/
theorem negatedFloats_vectorized :
    ∃ f args params, applyAll Schedule.replay (negatedVector .float) {} = some f ∧
      Arguments.ofShapes f [.contiguous .float [8]] = .ok args ∧
      propose f args = .ok (.pointwise params) ∧ params.vectorWidth = 4 ∧
      AcceptsVectors 4 [8] [1] := by
  have hrun : (applyAll Schedule.replay (negatedVector .float) {}).any (fun f =>
      decide (f.inputTensors = [⟨0⟩]) &&
        (Arguments.ofShapes f [.contiguous .float [8]]).toOption.any fun args =>
          decide (args.sizes? ⟨0⟩ = some [8]) && decide (args.strides? ⟨0⟩ = some [1]) &&
          match propose f args with
            | .ok (.pointwise params) => decide (params.vectorWidth = 4)
            | _ => false) = true := by
    cbv
  obtain ⟨f, hf, hrun⟩ := (Option.any_eq_true _ _).1 hrun
  obtain ⟨hinputs, hrun⟩ := Bool.and_eq_true_iff.1 hrun
  obtain ⟨args, hargs, hrun⟩ := (Option.any_eq_true _ _).1 hrun
  simp only [Bool.and_eq_true, decide_eq_true_eq] at hinputs hrun
  obtain ⟨⟨hsizes, hstrides⟩, hpropose⟩ := hrun
  split at hpropose
  case h_2 => cases hpropose
  case h_1 params hparams =>
      have hwidth : params.vectorWidth = 4 := of_decide_eq_true hpropose
      obtain ⟨-, w, hw, -, -, hall⟩ := propose_vectorWidth hparams (by rw [hwidth]; decide)
      obtain ⟨sizes, strides, n, hsizes', hstrides', -, haccepts, -⟩ :=
        hall ⟨0⟩ (by rw [hinputs]; exact List.mem_singleton.2 rfl)
      cases hsizes.symm.trans hsizes'
      cases hstrides.symm.trans hstrides'
      have hfour : w = 4 := by omega
      refine ⟨f, args, params, hf, Results.ok_of_toOption hargs, hparams, hwidth, ?_⟩
      rw [← hfour]
      exact haccepts rfl

/-- Four doubles fill more than sixteen bytes. -/
theorem negatedDoubles_not_vectorizable :
    ∃ f args params p, applyAll Schedule.replay (negatedVector .double) {} = some f ∧
      f.reductionTensors = [] ∧ Arguments.ofShapes f [.contiguous .double [4]] = .ok args ∧
      propose f args = .ok (.pointwise params) ∧ 1 < params.vectorWidth ∧
      scheduledPlan? f [.contiguous .double [4]] = some p ∧
      p.checkVectorization = .error (.invalidVectorize ⟨6⟩ .widthTooLarge) := by
  have hrun : (applyAll Schedule.replay (negatedVector .double) {}).any (fun f =>
      f.reductionTensors.isEmpty &&
        (Arguments.ofShapes f [.contiguous .double [4]]).toOption.any fun args =>
          (match propose f args with
            | .ok (.pointwise params) => decide (1 < params.vectorWidth)
            | _ => false) &&
          (scheduledPlan? f [.contiguous .double [4]]).any fun p =>
            match p.checkVectorization with
            | .error e => decide (e = .invalidVectorize ⟨6⟩ .widthTooLarge)
            | .ok _ => false) = true := by
    cbv
  obtain ⟨f, hf, hrun⟩ := (Option.any_eq_true _ _).1 hrun
  obtain ⟨hpointwise, hrun⟩ := Bool.and_eq_true_iff.1 hrun
  obtain ⟨args, hargs, hrun⟩ := (Option.any_eq_true _ _).1 hrun
  obtain ⟨hpropose, hrun⟩ := Bool.and_eq_true_iff.1 hrun
  obtain ⟨p, hp, hrun⟩ := (Option.any_eq_true _ _).1 hrun
  split at hpropose
  case h_2 => cases hpropose
  case h_1 params hparams =>
      split at hrun
      case h_2 => cases hrun
      case h_1 e he =>
          refine ⟨f, args, params, p, hf, List.isEmpty_iff.1 hpointwise,
            Results.ok_of_toOption hargs, hparams, of_decide_eq_true hpropose, hp, ?_⟩
          rw [he, of_decide_eq_true hrun]

/-! ## Tensors that have nothing to do with each other -/

/-- Copies of two tensors that have nothing to do with each other. -/
def separateCopies : List Call :=
  [.tensor [5] [true] .float, .tensor [7] [true] .float, .input ⟨0⟩, .input ⟨3⟩,
    .unary .neg (.value ⟨0⟩), .unary .neg (.value ⟨3⟩), .output ⟨7⟩, .output ⟨9⟩]

/-- Contiguous arguments for both. -/
def separateShapes : List ArgumentShape :=
  [.contiguous .float [5], .contiguous .float [7]]

theorem separateCopies_not_scheduled :
    ∃ f args params e, applyAll Schedule.replay separateCopies {} = some f ∧
      Arguments.ofShapes f separateShapes = .ok args ∧ propose f args = .ok params ∧
      (schedule params).applyTo f = .error e := by
  have hrun : ((applyAll Schedule.replay separateCopies {}).any fun f =>
      (Arguments.ofShapes f separateShapes).toOption.any fun args =>
        (propose f args).toOption.any fun params =>
          ((schedule params).applyTo f).toOption.isNone) = true := by
    cbv
  obtain ⟨f, hf, hrun⟩ := (Option.any_eq_true _ _).1 hrun
  obtain ⟨args, hargs, hrun⟩ := (Option.any_eq_true _ _).1 hrun
  obtain ⟨params, hparams, hrun⟩ := (Option.any_eq_true _ _).1 hrun
  cases hschedule : (schedule params).applyTo f with
  | error e =>
      exact ⟨f, args, params, e, hf, Results.ok_of_toOption hargs, Results.ok_of_toOption hparams,
        hschedule⟩
  | ok f' =>
      rw [hschedule] at hrun
      cases hrun

end Heuristic
end FusionCompiler
