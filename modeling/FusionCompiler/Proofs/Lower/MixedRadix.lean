import Mathlib.Algebra.BigOperators.Group.List.Basic
import Mathlib.Tactic.Ring
import FusionCompiler.Lower.Validate
import FusionCompiler.Proofs.Lower.Tracing

/-!
# Merged axes as mixed-radix numbers

Merging axes makes one number of their indices: the index of the merged axis, with
the indices of the axes as its digits and their extents as its bases.  All digits
but the outermost one are below their bases; the outermost one may overrun where
the merged axis has been padded.

A run of numbers from a multiple of a width on changes the innermost digits only,
as soon as the width divides the number of values that these take.

Main results:

- Theorem `Fusion.Digits.eq_of_radix_eq`: a number determines its digits.
- Theorem `Fusion.Digits.run`: numbers from a multiple of the width on differ in
  their innermost digits only.
- Theorem `LoopPlan.mergedRoots?_radix`: an axis is the number whose digits are the
  root axes that it was merged from.
-/

namespace FusionCompiler

namespace Fusion

variable {e x y : AxisId → Int} {as bs : List AxisId} {a : AxisId} {w l : Int}

/-! ## Digits -/

/-- The number that has the indices of axes as its digits, the innermost axis first. -/
def radix (e x : AxisId → Int) : List AxisId → Int
  | [] => 0
  | a :: as => x a + e a * radix e x as

/-- The number of index tuples of axes. -/
def volume (e : AxisId → Int) (as : List AxisId) : Int :=
  (as.map e).prod

/-- No digit is negative, and all but the last one are below their bases. -/
def Digits (e x : AxisId → Int) : List AxisId → Prop
  | [] => True
  | a :: as => 0 ≤ x a ∧ (as ≠ [] → x a < e a) ∧ Digits e x as

theorem volume_cons : volume e (a :: as) = e a * volume e as := by
  simp [volume]

theorem volume_append : volume e (as ++ bs) = volume e as * volume e bs := by
  simp [volume]

theorem volume_pos (hpos : ∀ a ∈ as, 0 < e a) : 0 < volume e as := by
  induction as with
  | nil => simp [volume]
  | cons a as ih =>
      rw [volume_cons]
      have hrest := ih fun b hb => hpos b (List.mem_cons_of_mem a hb)
      exact Int.mul_pos (hpos a List.mem_cons_self) hrest

theorem radix_append : radix e x (as ++ bs) = radix e x as + volume e as * radix e x bs := by
  induction as with
  | nil => simp [radix, volume]
  | cons a as ih =>
      rw [List.cons_append, radix, ih, radix, volume_cons]
      ring

theorem radix_zero (as : List AxisId) : radix e (fun _ => 0) as = 0 := by
  induction as with
  | nil => rfl
  | cons a as ih => simp [radix, ih]

/-- Digits below their bases make a number below the number of tuples. -/
theorem radix_inside (h : ∀ a ∈ as, Inside e x a) :
    0 ≤ radix e x as ∧ radix e x as < volume e as := by
  induction as with
  | nil => simp [radix, volume]
  | cons a as ih =>
      obtain ⟨hlow, hhigh⟩ := h a List.mem_cons_self
      obtain ⟨hnonneg, hlt⟩ := ih fun b hb => h b (List.mem_cons_of_mem a hb)
      rw [radix, volume_cons]
      have hprod : 0 ≤ e a * radix e x as := Int.mul_nonneg (by omega) hnonneg
      have hle : e a * (radix e x as + 1) ≤ e a * volume e as :=
        Int.mul_le_mul_of_nonneg_left hlt (by omega)
      rw [Int.mul_add, Int.mul_one] at hle
      exact ⟨by omega, by omega⟩

namespace Digits

theorem of_inside (h : ∀ a ∈ as, Inside e x a) : Digits e x as := by
  induction as with
  | nil => trivial
  | cons a as ih =>
      obtain ⟨hlow, hhigh⟩ := h a List.mem_cons_self
      exact ⟨hlow, fun _ => hhigh, ih fun b hb => h b (List.mem_cons_of_mem a hb)⟩

theorem nonneg (h : Digits e x as) : ∀ a ∈ as, 0 ≤ x a := by
  induction as with
  | nil => simp
  | cons a as ih =>
      intro b hb
      rcases List.mem_cons.1 hb with rfl | hb
      · exact h.1
      · exact ih h.2.2 b hb

theorem append_left (h : Digits e x (as ++ bs)) (hne : bs ≠ []) : ∀ a ∈ as, Inside e x a := by
  induction as with
  | nil => simp
  | cons a as ih =>
      intro b hb
      obtain ⟨hlow, hhigh, hrest⟩ := h
      rcases List.mem_cons.1 hb with rfl | hb
      · exact ⟨hlow, hhigh (by simp [hne])⟩
      · exact ih hrest b hb

theorem append_right (h : Digits e x (as ++ bs)) : Digits e x bs := by
  induction as with
  | nil => exact h
  | cons a as ih => exact ih h.2.2

theorem take_left (h : Digits e x (as ++ bs)) : Digits e x as := by
  induction as with
  | nil => trivial
  | cons a as ih =>
      obtain ⟨hlow, hhigh, hrest⟩ := h
      exact ⟨hlow, fun hne => hhigh (by simp [hne]), ih hrest⟩

/-- Leaving digits out leaves the others as they are. -/
theorem filter (h : Digits e x as) (q : AxisId → Bool) : Digits e x (as.filter q) := by
  induction as with
  | nil => trivial
  | cons a as ih =>
      obtain ⟨hlow, hhigh, hrest⟩ := h
      rw [List.filter_cons]
      split
      · refine ⟨hlow, fun hne => hhigh ?_, ih hrest⟩
        rintro rfl
        exact hne rfl
      · exact ih hrest

/-- A number below the number of tuples has all its digits below their bases. -/
theorem inside (h : Digits e x as) (hpos : ∀ a ∈ as, 0 < e a) (hlt : radix e x as < volume e as) :
    ∀ a ∈ as, Inside e x a := by
  induction as with
  | nil => simp
  | cons a as ih =>
      obtain ⟨hlow, hhigh, hrest⟩ := h
      have hapos := hpos a List.mem_cons_self
      have hdown : radix e x as < volume e as := by
        rw [radix, volume_cons] at hlt
        by_contra hnot
        have hle : e a * volume e as ≤ e a * radix e x as :=
          Int.mul_le_mul_of_nonneg_left (by omega) (Int.le_of_lt hapos)
        omega
      have hall := ih hrest (fun b hb => hpos b (List.mem_cons_of_mem a hb)) hdown
      intro b hb
      rcases List.mem_cons.1 hb with rfl | hb
      · refine ⟨hlow, ?_⟩
        by_cases hnil : as = []
        · subst hnil
          simpa [radix, volume] using hlt
        · exact hhigh hnil
      · exact hall b hb

/-- A number determines its digits. -/
theorem eq_of_radix_eq (hx : Digits e x as) (hy : Digits e y as)
    (h : radix e y as = radix e x as) : ∀ a ∈ as, y a = x a := by
  induction as with
  | nil => simp
  | cons a as ih =>
      obtain ⟨hxlow, hxhigh, hxrest⟩ := hx
      obtain ⟨hylow, hyhigh, hyrest⟩ := hy
      intro b hb
      by_cases hnil : as = []
      · subst hnil
        rw [List.mem_singleton.1 hb]
        simpa [radix] using h
      · have hjoin : radix e y as * e a + y a = radix e x as * e a + x a := by
          rw [radix, radix] at h
          rw [Int.mul_comm _ (e a), Int.mul_comm _ (e a)]
          omega
        obtain ⟨hrest, hhead⟩ :=
          eq_of_mul_add_eq ⟨hylow, hyhigh hnil⟩ ⟨hxlow, hxhigh hnil⟩ hjoin
        rcases List.mem_cons.1 hb with rfl | hb
        · exact hhead
        · exact ih hxrest hyrest hrest b hb

/-- A number behind a multiple of a width, by less than the width, differs from it in the innermost
digits only, if the width divides the number of values that these take. -/
theorem run (hx : Digits e x (as ++ bs)) (hy : Digits e y (as ++ bs)) (hl : 0 ≤ l) (hlw : l < w)
    (hvalue : radix e y (as ++ bs) = radix e x (as ++ bs) + l) (hw : w ∣ radix e x (as ++ bs))
    (hvolume : bs ≠ [] → w ∣ volume e as) :
    (∀ b ∈ bs, y b = x b) ∧ radix e y as = radix e x as + l ∧ w ∣ radix e x as := by
  by_cases hnil : bs = []
  · subst hnil
    rw [List.append_nil] at hvalue hw
    exact ⟨by simp, hvalue, hw⟩
  · have hdvd := hvolume hnil
    obtain ⟨hxlow, hxhigh⟩ := radix_inside (hx.append_left hnil)
    have hyin := radix_inside (hy.append_left hnil)
    rw [radix_append] at hvalue hw
    rw [radix_append] at hvalue
    have hxw : w ∣ radix e x as :=
      (Int.dvd_add_left (Dvd.dvd.mul_right hdvd _)).1 hw
    -- the inner digits leave room for a whole run
    have hroom : radix e x as + l < volume e as := by
      have hgap : w ∣ volume e as - radix e x as := Int.dvd_sub hdvd hxw
      have hle := Int.le_of_dvd (by omega) hgap
      omega
    have hjoin : radix e y bs * volume e as + radix e y as =
        radix e x bs * volume e as + (radix e x as + l) := by
      rw [Int.mul_comm _ (volume e as), Int.mul_comm _ (volume e as)]
      omega
    obtain ⟨houter, hinner⟩ := eq_of_mul_add_eq hyin ⟨by omega, hroom⟩ hjoin
    exact ⟨hx.append_right.eq_of_radix_eq hy.append_right houter, hinner, hxw⟩

/-- Along a run, digits with a single value stay as they are. -/
theorem run_single (hx : Digits e x as) (hy : Digits e y as) (hl : 0 ≤ l) (hlw : l < w)
    (hvalue : radix e y as = radix e x as + l) (hw : w ∣ radix e x as) (hvolume : w ∣ volume e as) :
    ∀ a ∈ as, e a = 1 → y a = x a := by
  rcases List.eq_nil_or_concat as with rfl | ⟨as, b, rfl⟩
  · simp
  · rw [List.concat_eq_append] at *
    intro a ha hone
    rcases List.mem_append.1 ha with ha | ha
    · have hxa := hx.append_left (by simp) a ha
      have hya := hy.append_left (by simp) a ha
      unfold Inside at hxa hya
      omega
    · rw [List.mem_singleton] at ha
      subst ha
      refine (run hx hy hl hlw hvalue hw fun _ => ?_).1 a (by simp)
      simpa [volume_append, volume, hone] using hvolume

/-- Along a run, a digit stays below its base. -/
theorem run_below (hx : Digits e x as) (hy : Digits e y as) (hpos : ∀ a ∈ as, 0 < e a)
    (hlw : l < w) (hvalue : radix e y as = radix e x as + l)
    (hw : w ∣ radix e x as) (hvolume : w ∣ volume e as) : ∀ a ∈ as, x a < e a → y a < e a := by
  rcases List.eq_nil_or_concat as with rfl | ⟨as, b, rfl⟩
  · simp
  · rw [List.concat_eq_append] at *
    intro a ha hlt
    rcases List.mem_append.1 ha with ha | ha
    · exact (hy.append_left (by simp) a ha).2
    · rw [List.mem_singleton] at ha
      subst ha
      have hin : ∀ c ∈ as ++ [a], Inside e x c := by
        intro c hc
        rcases List.mem_append.1 hc with hc | hc
        · exact hx.append_left (by simp) c hc
        · rw [List.mem_singleton.1 hc]
          exact ⟨hx.nonneg a (by simp), hlt⟩
      have hgap : w ∣ volume e (as ++ [a]) - radix e x (as ++ [a]) := Int.dvd_sub hvolume hw
      have hle := Int.le_of_dvd (by have := (radix_inside hin).2; omega) hgap
      exact (hy.inside hpos (by omega) a (by simp)).2

end Digits

/-- Digits that are zero for want of a second value do not count. -/
theorem radix_filter {q : AxisId → Bool} (h : ∀ a ∈ as, q a = false → e a = 1 ∧ x a = 0) :
    radix e x (as.filter q) = radix e x as := by
  induction as with
  | nil => rfl
  | cons a as ih =>
      have hrest := ih fun b hb => h b (List.mem_cons_of_mem a hb)
      rw [List.filter_cons]
      split
      case isTrue => rw [radix, radix, hrest]
      case isFalse hq =>
          obtain ⟨hone, hzero⟩ := h a List.mem_cons_self (by simpa using hq)
          rw [radix, hone, hzero, hrest]
          omega

theorem volume_filter {q : AxisId → Bool} (h : ∀ a ∈ as, q a = false → e a = 1) :
    volume e (as.filter q) = volume e as := by
  induction as with
  | nil => rfl
  | cons a as ih =>
      have hrest := ih fun b hb => h b (List.mem_cons_of_mem a hb)
      rw [List.filter_cons]
      split
      case isTrue => rw [volume_cons, volume_cons, hrest]
      case isFalse hq =>
          rw [volume_cons, h a List.mem_cons_self (by simpa using hq), hrest, Int.one_mul]

/-- A run shows in the digits that remain when digits with a single value are left out. -/
theorem Digits.run_filter {q : AxisId → Bool} (hx : Digits e x as) (hy : Digits e y as)
    (hl : 0 ≤ l) (hlw : l < w) (hvalue : radix e y as = radix e x as + l) (hw : w ∣ radix e x as)
    (hone : ∀ a ∈ as, q a = false → e a = 1) (hvolume : w ∣ volume e (as.filter q)) :
    radix e y (as.filter q) = radix e x (as.filter q) + l ∧ w ∣ radix e x (as.filter q) := by
  rcases List.eq_nil_or_concat as with rfl | ⟨as, b, rfl⟩
  · exact ⟨hvalue, hw⟩
  · rw [List.concat_eq_append] at *
    have hxin := hx.append_left (by simp)
    have hyin := hy.append_left (by simp)
    have hzero : ∀ z, (∀ a ∈ as, Inside e z a) → ∀ a ∈ as, q a = false → e a = 1 ∧ z a = 0 := by
      intro z hz a ha hq
      have ha1 := hone a (List.mem_append_left _ ha) hq
      have hin := hz a ha
      unfold Inside at hin
      exact ⟨ha1, by omega⟩
    by_cases hb : q b = true
    · have hall : ∀ z, (∀ a ∈ as, Inside e z a) → radix e z ((as ++ [b]).filter q) =
          radix e z (as ++ [b]) := by
        intro z hz
        rw [List.filter_append, radix_append, radix_append, radix_filter (hzero z hz),
          volume_filter fun a ha hq => hone a (List.mem_append_left _ ha) hq]
        simp [hb]
      rw [hall y hyin, hall x hxin]
      exact ⟨hvalue, hw⟩
    · -- the last digit stays as it is, and the others are below their bases
      have hdrop : (as ++ [b]).filter q = as.filter q := by
        simp [List.filter_append, hb]
      rw [hdrop] at hvolume ⊢
      rw [volume_filter fun a ha hq => hone a (List.mem_append_left _ ha) hq] at hvolume
      obtain ⟨-, hrun⟩ := Digits.run hx hy hl hlw hvalue hw fun _ => hvolume
      rwa [radix_filter (hzero y hyin), radix_filter (hzero x hxin)]

end Fusion

/-! ## Merges -/

namespace LoopPlan

open Fusion

variable {f : Fusion} {e x : AxisId → Int} {a b : AxisId} {fuel : Nat} {stack roots : List AxisId}

/-- All axes met on the way to the root axes that axes were merged from. -/
def mergedAxes (f : Fusion) : Nat → List AxisId → List AxisId
  | _, [] => []
  | 0, _ => []
  | fuel + 1, a :: rest =>
    match origin? f a with
    | some (.merge outer inner _) => a :: mergedAxes f fuel (inner :: outer :: rest)
    | _ => a :: mergedAxes f fuel rest

/-- Where the search for root axes succeeds, it has followed all merges down to axes without
origin. -/
theorem mergedAxes_closed (h : mergedRoots? f fuel stack = some roots) :
    (∀ a ∈ stack, a ∈ mergedAxes f fuel stack) ∧ ∀ b ∈ mergedAxes f fuel stack,
      (origin? f b = none ∧ b ∈ roots) ∨ ∃ o i out, origin? f b = some (.merge o i out) ∧
        o ∈ mergedAxes f fuel stack ∧ i ∈ mergedAxes f fuel stack := by
  induction fuel generalizing stack roots with
  | zero =>
      cases stack with
      | nil => simp [mergedAxes]
      | cons a rest => cases h
  | succ fuel ih =>
      cases stack with
      | nil => simp [mergedAxes]
      | cons a rest =>
          rw [mergedRoots?] at h
          rw [mergedAxes]
          split at h
          case h_1 horigin =>
              obtain ⟨tail, htail, rfl⟩ := Option.map_eq_some_iff.1 h
              obtain ⟨hstack, hclosed⟩ := ih htail
              rw [horigin]
              refine ⟨fun b hb => ?_, fun b hb => ?_⟩
              · rcases List.mem_cons.1 hb with rfl | hb
                · exact List.mem_cons_self
                · exact List.mem_cons_of_mem a (hstack b hb)
              · rcases List.mem_cons.1 hb with rfl | hb
                · exact .inl ⟨horigin, List.mem_cons_self⟩
                · rcases hclosed b hb with ⟨hnone, hroot⟩ | ⟨o, i, out, hb, ho, hi⟩
                  · exact .inl ⟨hnone, List.mem_cons_of_mem a hroot⟩
                  · exact .inr ⟨o, i, out, hb, List.mem_cons_of_mem a ho, List.mem_cons_of_mem a hi⟩
          case h_2 o i out horigin =>
              obtain ⟨hstack, hclosed⟩ := ih h
              rw [horigin]
              refine ⟨fun b hb => ?_, fun b hb => ?_⟩
              · rcases List.mem_cons.1 hb with rfl | hb
                · exact List.mem_cons_self
                · exact List.mem_cons_of_mem a (hstack b (by simp [hb]))
              · rcases List.mem_cons.1 hb with rfl | hb
                · refine .inr ⟨o, i, out, horigin, ?_, ?_⟩
                  · exact List.mem_cons_of_mem _ (hstack o (by simp))
                  · exact List.mem_cons_of_mem _ (hstack i (by simp))
                · rcases hclosed b hb with hroot | ⟨o', i', out', hb, ho, hi⟩
                  · exact .inl hroot
                  · exact .inr
                      ⟨o', i', out', hb, List.mem_cons_of_mem a ho, List.mem_cons_of_mem a hi⟩
          case h_3 => cases h

/-- An axis is the number whose digits are the root axes that it was merged from. -/
theorem mergedRoots?_radix {P : AxisId → Prop}
    (hmerge : ∀ a o i out, P a → origin? f a = some (.merge o i out) →
      P o ∧ P i ∧ x o = x a / e i ∧ x i = x a % e i ∧ e a = e o * e i ∧ 0 < e i)
    (h : mergedRoots? f fuel stack = some roots) (hP : ∀ a ∈ stack, P a)
    (hstack : Digits e x stack) :
    radix e x roots = radix e x stack ∧ Digits e x roots ∧ (stack = [] → roots = []) ∧
      ∀ a ∈ roots, P a ∧ origin? f a = none := by
  induction fuel generalizing stack roots with
  | zero =>
      cases stack with
      | nil =>
          cases h
          exact ⟨rfl, trivial, fun _ => rfl, by simp⟩
      | cons a rest => cases h
  | succ fuel ih =>
      cases stack with
      | nil =>
          cases h
          exact ⟨rfl, trivial, fun _ => rfl, by simp⟩
      | cons a rest =>
          obtain ⟨hlow, hhigh, hrest⟩ := hstack
          have ha := hP a List.mem_cons_self
          have hPrest : ∀ b ∈ rest, P b := fun b hb => hP b (List.mem_cons_of_mem a hb)
          rw [mergedRoots?] at h
          split at h
          case h_1 horigin =>
              obtain ⟨tail, htail, rfl⟩ := Option.map_eq_some_iff.1 h
              obtain ⟨hradix, hdigits, hnil, hroots⟩ := ih htail hPrest hrest
              refine ⟨by rw [radix, radix, hradix],
                ⟨hlow, fun hne => hhigh fun hrest => ?_, hdigits⟩, by simp, fun b hb => ?_⟩
              · exact hne (hnil hrest)
              · rcases List.mem_cons.1 hb with rfl | hb
                · exact ⟨ha, horigin⟩
                · exact hroots b hb
          case h_2 o i out horigin =>
              obtain ⟨ho, hi, hxo, hxi, hprod, hipos⟩ := hmerge a o i out ha horigin
              have hjoin : x a = x i + e i * x o := by
                rw [hxo, hxi]
                exact (Int.emod_add_mul_ediv (x a) (e i)).symm
              have hnext : Digits e x (i :: o :: rest) := by
                refine ⟨?_, fun _ => ?_, ?_, fun hne => ?_, hrest⟩
                · rw [hxi]
                  exact Int.emod_nonneg _ (Int.ne_of_gt hipos)
                · rw [hxi]
                  exact Int.emod_lt_of_pos _ hipos
                · rw [hxo]
                  exact Int.ediv_nonneg hlow (Int.le_of_lt hipos)
                · rw [hxo]
                  exact Int.ediv_lt_of_lt_mul hipos (hprod ▸ hhigh hne)
              have hPnext : ∀ b ∈ i :: o :: rest, P b := by
                intro b hb
                rcases List.mem_cons.1 hb with rfl | hb
                · exact hi
                · rcases List.mem_cons.1 hb with rfl | hb
                  · exact ho
                  · exact hPrest b hb
              obtain ⟨hradix, hdigits, -, hroots⟩ := ih h hPnext hnext
              refine ⟨?_, hdigits, by simp, hroots⟩
              rw [hradix, radix, radix, radix, hprod, hjoin]
              ring
          case h_3 => cases h

end LoopPlan
end FusionCompiler
