import Mathlib
import FusionCompiler.Host.Alignment
import FusionCompiler.Proofs.Lower.MixedRadix

/-!
# Lanes in a layout without gaps

A layout fits an access by vectors if the merged dimensions have no gaps between
them, the width divides the number of elements in them, and it divides the strides
outside of them.  Where several axes are merged, the index of the merged axis is a
number with their indices as digits, and lanes are a run of such numbers from a
multiple of the width on.

A run changes the innermost digits only, and these are the indices of dimensions
without gaps, so the offset moves on as the number does.

Main results:

- Theorem `Kernel.VectorAccess.fits_of_fault?`: what a layout satisfies that passes
  the check of a launch.
- Theorem `Fusion.LaneRun.offset_eq`: lanes lie side by side.
- Theorem `Fusion.LaneRun.dvd_offset`: the first lane is aligned.
- Theorem `Fusion.LaneRun.below`: no lane overruns a dimension that the first lane
  does not.
-/

namespace FusionCompiler

open Fusion

/-! ## Layouts that fit -/

namespace Kernel.VectorAccess

variable {a : VectorAccess} {sizes : List Nat} {strides : List Int}

/-- Sizes and strides without gaps, the innermost first: where there is more than one element, the
stride is the number of elements inside. -/
def Gapless : Int → List (Int × Int) → Prop
  | _, [] => True
  | n, (size, stride) :: rest => (1 < size → stride = n) ∧ Gapless (n * size) rest

theorem gapless_of_gap? {n : Int} {dims : List (Nat × Nat × Int)} (h : gap? n dims = none) :
    Gapless n (dims.map fun d => ((d.2.1 : Int), d.2.2)) := by
  induction dims generalizing n with
  | nil => trivial
  | cons d dims ih =>
      obtain ⟨dim, size, stride⟩ := d
      rw [gap?] at h
      split at h
      case isTrue => cases h
      case isFalse hgap =>
          refine ⟨fun hsize => ?_, ih h⟩
          have hlt : 1 < size := Int.ofNat_lt.1 hsize
          simpa [hlt] using hgap

/-- A layout that fits an aligned access has no gaps in the merged dimensions, a number of elements
in them that the width divides, and outer strides that the width divides. -/
theorem fits_of_fault? (hlength : strides.length = sizes.length) (hwidth : 1 < a.width)
    (haligned : a.misaligned = false) (hmerged : 0 < a.mergedDims)
    (hcount : a.mergedDims ≤ sizes.length) (h : a.fault? sizes strides = none) :
    let dims := (sizes.map fun n : Nat => (n : Int)).zip strides
    Gapless 1 (dims.drop (sizes.length - a.mergedDims)).reverse ∧
      (a.width : Int) ∣
        ((sizes.map fun n : Nat => (n : Int)).drop (sizes.length - a.mergedDims)).prod ∧
      ∀ d ∈ dims.take (sizes.length - a.mergedDims), 1 < d.1 → (a.width : Int) ∣ d.2 := by
  set dims := (List.range sizes.length).zip (sizes.zip strides) with hdims
  have hsizes : dims.map (fun d => d.2.1) = sizes := by
    have hfst : (sizes.zip strides).map Prod.fst = sizes := List.map_fst_zip (by omega)
    have hsnd : dims.map Prod.snd = sizes.zip strides := List.map_snd_zip (by simp [hlength])
    have hcomp := congrArg (List.map Prod.fst) hsnd
    rwa [List.map_map, hfst] at hcomp
  have hpairs : dims.map (fun d => ((d.2.1 : Int), d.2.2)) =
      (sizes.map fun n : Nat => (n : Int)).zip strides := by
    have hsnd : dims.map Prod.snd = sizes.zip strides := List.map_snd_zip (by simp [hlength])
    rw [List.zip_map_left, ← hsnd, List.map_map]
    rfl
  have hn : dims.length = sizes.length := by simp [hdims, hlength]
  unfold fault? at h
  rw [← hdims] at h
  dsimp only at h
  have houter : dims.length - Min.min (Max.max a.mergedDims 1) dims.length =
      sizes.length - a.mergedDims := by omega
  rw [houter] at h
  split at h
  case h_1 hlast =>
      have hnil : dims = [] := List.getLast?_eq_none_iff.1 hlast
      rw [hnil] at hn
      simp at hn
      omega
  case h_2 dim size stride hlast =>
      rw [if_neg (by omega)] at h
      split at h
      case isTrue => cases h
      case isFalse =>
          rw [if_neg (by simp [haligned])] at h
          split at h
          case h_1 => cases h
          case h_2 hgap =>
              split at h
              case isTrue => cases h
              case isFalse hextent =>
                  refine ⟨?_, ?_, fun d hd hsize => ?_⟩
                  · have hgapless := gapless_of_gap? hgap
                    rwa [List.map_reverse, List.map_drop, hpairs] at hgapless
                  · have hprod : (dims.drop (sizes.length - a.mergedDims)).map (fun d => d.2.1) =
                        sizes.drop (sizes.length - a.mergedDims) := by
                      rw [List.map_drop, hsizes]
                    rw [hprod, ← List.prod_eq_foldl] at hextent
                    rw [← List.map_drop, ← Nat.cast_list_prod]
                    refine Int.natCast_dvd_natCast.2 (Nat.dvd_of_mod_eq_zero ?_)
                    simpa using hextent
                  · rw [Option.map_eq_none_iff, List.find?_eq_none] at h
                    rw [← hpairs, ← List.map_take] at hd
                    obtain ⟨d', hd', rfl⟩ := List.mem_map.1 hd
                    have hfit := h d' hd'
                    have hlt : 1 < d'.2.1 := Int.ofNat_lt.1 hsize
                    exact Int.dvd_of_emod_eq_zero (by simpa [hlt] using hfit)

end Kernel.VectorAccess

/-! ## Offsets along a run -/

namespace Fusion

open Kernel.VectorAccess (Gapless)

variable {e x y : AxisId → Int} {q : AxisId → Bool} {a : AxisId} {w l n : Int}
  {dims : List (AxisId × Int)}

/-- The offset that indices lead to along axes with strides; some axes are left out. -/
def offset (q : AxisId → Bool) (x : AxisId → Int) (dims : List (AxisId × Int)) : Int :=
  (dims.map fun d => if q d.1 then x d.1 * d.2 else 0).sum

theorem offset_append (dims dims' : List (AxisId × Int)) :
    offset q x (dims ++ dims') = offset q x dims + offset q x dims' := by
  simp [offset]

theorem offset_reverse (dims : List (AxisId × Int)) :
    offset q x dims.reverse = offset q x dims := by
  simp [offset, List.map_reverse, List.sum_reverse]

theorem offset_congr (h : ∀ d ∈ dims, q d.1 = true → y d.1 = x d.1) :
    offset q y dims = offset q x dims := by
  unfold offset
  congr 1
  refine List.map_congr_left fun d hd => ?_
  split
  case isTrue hq => rw [h d hd hq]
  case isFalse => rfl

theorem dvd_offset (h : ∀ d ∈ dims, q d.1 = true → w ∣ x d.1 * d.2) : w ∣ offset q x dims := by
  refine List.dvd_sum fun m hm => ?_
  obtain ⟨d, hd, rfl⟩ := List.mem_map.1 hm
  split
  case isTrue hq => exact h d hd hq
  case isFalse => exact dvd_zero w

/-- Without gaps, offsets differ as the numbers do, whatever the strides of single elements are. -/
theorem offset_sub_of_gapless (hgapless : Gapless n (dims.map fun d => (e d.1, d.2)))
    (hpos : ∀ d ∈ dims, 0 < e d.1) (hone : ∀ d ∈ dims, q d.1 = false → e d.1 = 1)
    (hsingle : ∀ d ∈ dims, q d.1 = true → e d.1 = 1 → y d.1 = x d.1) :
    offset q y dims - offset q x dims =
      n * (radix e y ((dims.map Prod.fst).filter q) -
        radix e x ((dims.map Prod.fst).filter q)) := by
  induction dims generalizing n with
  | nil => simp [offset, radix]
  | cons d dims ih =>
      obtain ⟨hstride, hrest⟩ := hgapless
      have hdiff := ih hrest (fun d hd => hpos d (List.mem_cons_of_mem _ hd))
        (fun d hd => hone d (List.mem_cons_of_mem _ hd))
        fun d hd => hsingle d (List.mem_cons_of_mem _ hd)
      have hd := hpos d List.mem_cons_self
      have hcons : ∀ z, offset q z (d :: dims) =
          (if q d.1 then z d.1 * d.2 else 0) + offset q z dims := fun z => by simp [offset]
      rw [hcons, hcons, List.map_cons, List.filter_cons]
      by_cases hq : q d.1 = true
      · rw [if_pos hq, if_pos hq, if_pos hq, radix, radix]
        by_cases hsize : 1 < e d.1
        · rw [hstride hsize]
          linear_combination hdiff
        · have hone : e d.1 = 1 := by omega
          rw [hone] at hdiff ⊢
          rw [hsingle d List.mem_cons_self hq hone]
          linear_combination hdiff
      · have hone := hone d List.mem_cons_self (by simpa using hq)
        rw [if_neg hq, if_neg hq, if_neg hq]
        rw [hone] at hdiff
        linear_combination hdiff

/-! ## Runs of merged axes -/

/-- The indices of axes at a lane and some lanes before it, at the first one: the number that the
merged axes have as their digits is a multiple of the width there, and the other axes keep their
indices. -/
structure LaneRun (e x y : AxisId → Int) (axes merged : List AxisId) (w l : Int) : Prop where
  low : 0 ≤ l
  high : l < w
  first : Digits e x merged
  later : Digits e y merged
  number : radix e y merged = radix e x merged + l
  aligned : w ∣ radix e x merged
  other : ∀ a ∈ axes, a ∉ merged → y a = x a

/-- The last of some axes. -/
def innermost (axes : List AxisId) (count : Nat) : List AxisId :=
  axes.drop (axes.length - count)

/-- The axes before the last ones. -/
def outermost (axes : List AxisId) (count : Nat) : List AxisId :=
  axes.take (axes.length - count)

/-- A layout without gaps in the innermost axes: the merged axes are the last ones, in order, the
width divides the number of elements of as many axes as are merged, and it divides the strides of
the others.  Axes that are left out have a single element. -/
structure Packed (e : AxisId → Int) (q : AxisId → Bool) (axes merged : List AxisId)
    (strides : List Int) (w : Int) (count : Nat) : Prop where
  nodup : axes.Nodup
  pos : ∀ a ∈ axes, 0 < e a
  listed : ∀ a ∈ merged, a ∈ axes
  single : ∀ a ∈ axes, q a = false → e a = 1
  count_le : count ≤ axes.length
  order : merged.filter q = ((axes.filter q).drop ((axes.filter q).length - count)).reverse
  length : strides.length = axes.length
  gapless : Gapless 1 (((axes.map e).zip strides).drop (axes.length - count)).reverse
  volume : w ∣ ((axes.map e).drop (axes.length - count)).prod
  strides : ∀ d ∈ ((axes.map e).zip strides).take (axes.length - count), 1 < d.1 → w ∣ d.2

namespace Packed

variable {axes merged : List AxisId} {strides : List Int} {count : Nat}

theorem axes_eq (axes : List AxisId) (count : Nat) :
    axes = outermost axes count ++ innermost axes count :=
  (List.take_append_drop _ _).symm

theorem mem_of_innermost (ha : a ∈ innermost axes count) : a ∈ axes :=
  List.mem_of_mem_drop ha

theorem not_mem_outermost (h : Packed e q axes merged strides w count)
    (ha : a ∈ innermost axes count) : a ∉ outermost axes count := by
  have hnodup := h.nodup
  rw [axes_eq axes count] at hnodup
  exact fun ha' => (List.nodup_append.1 hnodup).2.2 a ha' a ha rfl

/-- The merged axes begin with the innermost axes; the others are among the outermost ones. -/
theorem exists_outer (h : Packed e q axes merged strides w count) :
    ∃ outs, merged.filter q = ((innermost axes count).filter q).reverse ++ outs ∧
      ∀ a ∈ outs, a ∈ outermost axes count := by
  have hsplit : axes.filter q =
      (outermost axes count).filter q ++ (innermost axes count).filter q := by
    rw [← List.filter_append, ← axes_eq]
  have hinner : ((innermost axes count).filter q).length ≤ count := by
    have hle := List.length_filter_le q (innermost axes count)
    have hlength : (innermost axes count).length = axes.length - (axes.length - count) :=
      List.length_drop
    have hcount := h.count_le
    omega
  refine ⟨(((outermost axes count).filter q).drop ((axes.filter q).length - count)).reverse, ?_,
    fun a ha => ?_⟩
  · rw [h.order, ← List.reverse_append]
    congr 1
    conv_lhs => rw [hsplit]
    rw [List.drop_append_of_le_length]
    · rw [← hsplit]
    · rw [List.length_append]
      omega
  · rw [List.mem_reverse] at ha
    exact (List.mem_filter.1 (List.mem_of_mem_drop ha)).1

/-- The width divides the number of values that the innermost digits take. -/
theorem dvd_volume (h : Packed e q axes merged strides w count) :
    w ∣ Fusion.volume e ((innermost axes count).filter q).reverse := by
  have hsame : Fusion.volume e ((innermost axes count).filter q).reverse =
      Fusion.volume e (innermost axes count) := by
    rw [← volume_filter (q := q) fun a ha hq => h.single a (mem_of_innermost ha) hq]
    simp [Fusion.volume, List.map_reverse, List.prod_reverse]
  rw [hsame, Fusion.volume, innermost, List.map_drop]
  exact h.volume

/-- The dimensions of the layout, the outermost ones first. -/
theorem exists_dims (h : Packed e q axes merged strides w count) :
    ∃ outer inner : List (AxisId × Int), axes.zip strides = outer ++ inner ∧
      outer.map Prod.fst = outermost axes count ∧ inner.map Prod.fst = innermost axes count ∧
      Gapless 1 (inner.reverse.map fun d => (e d.1, d.2)) ∧
      ∀ d ∈ outer, 1 < e d.1 → w ∣ d.2 := by
  have hfst : (axes.zip strides).map Prod.fst = axes := List.map_fst_zip (by rw [h.length])
  have hzip : (axes.map e).zip strides = (axes.zip strides).map fun d => (e d.1, d.2) := by
    rw [List.zip_map_left]
    rfl
  refine ⟨(axes.zip strides).take (axes.length - count),
    (axes.zip strides).drop (axes.length - count), (List.take_append_drop _ _).symm, ?_, ?_, ?_,
    fun d hd => ?_⟩
  · rw [List.map_take, hfst, outermost]
  · rw [List.map_drop, hfst, innermost]
  · rw [List.map_reverse, List.map_drop, ← hzip]
    exact h.gapless
  · refine h.strides (e d.1, d.2) ?_
    rw [hzip, ← List.map_take]
    exact List.mem_map_of_mem hd

end Packed

namespace LaneRun

variable {axes merged : List AxisId} {strides : List Int} {count : Nat}

/-- Along a run only the innermost digits change. -/
theorem turns (h : LaneRun e x y axes merged w l)
    (hp : Packed e q axes merged strides w count) :
    ∃ outs, Digits e x (((innermost axes count).filter q).reverse ++ outs) ∧
      Digits e y (((innermost axes count).filter q).reverse ++ outs) ∧
      radix e y ((innermost axes count).filter q).reverse =
        radix e x ((innermost axes count).filter q).reverse + l ∧
      w ∣ radix e x ((innermost axes count).filter q).reverse ∧
      ∀ a ∈ outermost axes count, q a = true → y a = x a := by
  obtain ⟨outs, hfilter, houts⟩ := hp.exists_outer
  have hvolume := hp.dvd_volume
  have hdigits := h.first.filter q
  have hdigits' := h.later.filter q
  have hrun := h.first.run_filter (q := q) h.later h.low h.high h.number h.aligned
    (fun a ha hq => hp.single a (hp.listed a ha) hq) (by
      rw [hfilter, volume_append]
      exact Dvd.dvd.mul_right hvolume _)
  rw [hfilter] at hdigits hdigits' hrun
  obtain ⟨houtsEq, hinsRun, hinsDvd⟩ :=
    hdigits.run hdigits' h.low h.high hrun.1 hrun.2 fun _ => hvolume
  refine ⟨outs, hdigits, hdigits', hinsRun, hinsDvd, fun a ha hq => ?_⟩
  by_cases hmem : a ∈ merged
  · have hfiltered : a ∈ ((innermost axes count).filter q).reverse ++ outs :=
      hfilter ▸ List.mem_filter.2 ⟨hmem, hq⟩
    rcases List.mem_append.1 hfiltered with hin | hout
    · exact absurd ha (hp.not_mem_outermost (List.mem_filter.1 (List.mem_reverse.1 hin)).1)
    · exact houtsEq a hout
  · exact h.other a (List.mem_of_mem_take ha) hmem

/-- The lanes lie side by side. -/
theorem offset_eq (h : LaneRun e x y axes merged w l)
    (hp : Packed e q axes merged strides w count) :
    offset q y (axes.zip strides) = offset q x (axes.zip strides) + l := by
  obtain ⟨outs, hx, hy, hrun, hdvd, houter⟩ := h.turns hp
  obtain ⟨outer, inner, hdims, houterFst, hinnerFst, hgapless, -⟩ := hp.exists_dims
  have hinnerMem : ∀ d ∈ inner.reverse, d.1 ∈ innermost axes count := fun d hd =>
    hinnerFst ▸ List.mem_map_of_mem (List.mem_reverse.1 hd)
  have hfst : (inner.reverse.map Prod.fst).filter q =
      ((innermost axes count).filter q).reverse := by
    rw [List.map_reverse, hinnerFst, List.filter_reverse]
  have hsingle := Digits.run_single hx.take_left hy.take_left h.low h.high hrun hdvd hp.dvd_volume
  have hsub := offset_sub_of_gapless (q := q) (x := x) (y := y) hgapless
    (fun d hd => hp.pos d.1 (Packed.mem_of_innermost (hinnerMem d hd)))
    (fun d hd => hp.single d.1 (Packed.mem_of_innermost (hinnerMem d hd)))
    fun d hd hq => hsingle d.1
      (List.mem_reverse.2 (List.mem_filter.2 ⟨hinnerMem d hd, hq⟩))
  have hsame : offset q y outer = offset q x outer := offset_congr fun d hd hq =>
    houter d.1 (houterFst ▸ List.mem_map_of_mem hd) hq
  rw [hfst, offset_reverse, offset_reverse, hrun] at hsub
  rw [hdims, offset_append, offset_append, hsame]
  omega

/-- The first lane is aligned if axes of a single element are at index zero. -/
theorem dvd_offset (h : LaneRun e x y axes merged w l)
    (hp : Packed e q axes merged strides w count)
    (hzero : ∀ a ∈ axes, q a = true → e a = 1 → x a = 0) : w ∣ offset q x (axes.zip strides) := by
  obtain ⟨outs, -, -, -, hdvd, -⟩ := h.turns hp
  obtain ⟨outer, inner, hdims, houterFst, hinnerFst, hgapless, hstrides⟩ := hp.exists_dims
  have hinnerMem : ∀ d ∈ inner.reverse, d.1 ∈ axes := fun d hd =>
    Packed.mem_of_innermost (hinnerFst ▸ List.mem_map_of_mem (List.mem_reverse.1 hd))
  have hfst : (inner.reverse.map Prod.fst).filter q =
      ((innermost axes count).filter q).reverse := by
    rw [List.map_reverse, hinnerFst, List.filter_reverse]
  have hsub := offset_sub_of_gapless (q := q) (x := fun _ => 0) (y := x) hgapless
    (fun d hd => hp.pos d.1 (hinnerMem d hd)) (fun d hd => hp.single d.1 (hinnerMem d hd))
    fun d hd hq hone => hzero d.1 (hinnerMem d hd) hq hone
  have hnone : offset q (fun _ => 0) inner.reverse = 0 := by simp [offset]
  rw [hfst, hnone, offset_reverse, radix_zero] at hsub
  have houter : w ∣ offset q x outer := by
    refine Fusion.dvd_offset fun d hd hq => ?_
    have hmem : d.1 ∈ axes :=
      List.mem_of_mem_take (houterFst ▸ List.mem_map_of_mem (f := Prod.fst) hd)
    by_cases hsize : 1 < e d.1
    · exact Dvd.dvd.mul_left (hstrides d hd hsize) _
    · have hpos := hp.pos d.1 hmem
      rw [hzero d.1 hmem hq (by omega), Int.zero_mul]
      exact dvd_zero w
  rw [hdims, offset_append]
  refine Int.dvd_add houter ?_
  have heq : offset q x inner = radix e x ((innermost axes count).filter q).reverse := by omega
  rw [heq]
  exact hdvd

/-- No lane overruns an axis that the first lane does not. -/
theorem below (h : LaneRun e x y axes merged w l) (hp : Packed e q axes merged strides w count)
    (ha : a ∈ axes) (hq : q a = true) (hlt : x a < e a) : y a < e a := by
  obtain ⟨outs, hx, hy, hrun, hdvd, houter⟩ := h.turns hp
  rw [Packed.axes_eq axes count] at ha
  rcases List.mem_append.1 ha with ha | ha
  · rw [houter a ha hq]
    exact hlt
  · have hin : a ∈ ((innermost axes count).filter q).reverse :=
      List.mem_reverse.2 (List.mem_filter.2 ⟨ha, hq⟩)
    have hpos : ∀ b ∈ ((innermost axes count).filter q).reverse, 0 < e b := fun b hb =>
      hp.pos b (Packed.mem_of_innermost (List.mem_filter.1 (List.mem_reverse.1 hb)).1)
    exact (Digits.run_below hx.take_left hy.take_left hpos h.high hrun hdvd hp.dvd_volume a
      hin hlt)

end LaneRun
end Fusion

end FusionCompiler
