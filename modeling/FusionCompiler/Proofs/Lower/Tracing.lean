import FusionCompiler.Proofs.Lower.Carrying
import FusionCompiler.Proofs.Lower.Extents

/-!
# Points of an index space

An iteration gives every axis of a tensor an index: from the leaves back to the
root, a split joins the indices of its halves and a merge takes the index of its
result apart.  `Fusion.Traced` is this relation over integers.  It determines all
indices from those of the leaves, and from those of the root as long as no axis
overruns its extent.

Main results:

- Theorem `Fusion.Balanced.eq_of_leaves`: points with the same leaf indices agree.
- Theorem `Fusion.Balanced.eq_of_roots`: points that stay inside and have the same
  root indices agree.
- Theorems `LoopPlan.BackLinked.traced` and `LoopPlan.BackLinked.valued`: backward
  index arithmetic computes the relation.
- Theorem `LoopPlan.ForthLinked.valued`: forward index arithmetic computes indices
  inside the extents that are in the relation.
-/

namespace FusionCompiler

namespace Fusion

variable {f : Fusion} {e x y : AxisId → Int} {root leaf : List AxisId} {ts : List TransformId}

/-- The indices of what a transform consumes and produces belong together. -/
def Traced (e x : AxisId → Int) : Transform → Prop
  | .split a o i _ _ => x a = x o * e i + x i
  | .merge o i out => x o = x out / e i ∧ x i = x out % e i

/-- The index is inside the extent of the axis. -/
def Inside (e x : AxisId → Int) (a : AxisId) : Prop :=
  0 ≤ x a ∧ x a < e a

instance (e x : AxisId → Int) (a : AxisId) : Decidable (Inside e x a) :=
  inferInstanceAs (Decidable (_ ∧ _))

/-! ## One transform -/

/-- The indices of the inputs follow from those of the outputs. -/
theorem Traced.inputs_eq {t : Transform} (hx : Traced e x t) (hy : Traced e y t)
    (h : ∀ a ∈ t.outputs, x a = y a) : ∀ a ∈ t.inputs, x a = y a := by
  cases t with
  | split a o i k innerSplit =>
      have ho := h o (by simp [Transform.outputs])
      have hi := h i (by simp [Transform.outputs])
      intro b hb
      rw [List.mem_singleton.1 hb]
      exact hx.trans (by rw [ho, hi]; exact hy.symm)
  | merge o i out =>
      have hout := h out (by simp [Transform.outputs])
      intro b hb
      rcases List.mem_pair.1 hb with rfl | rfl
      · exact hx.1.trans (by rw [hout]; exact hy.1.symm)
      · exact hx.2.trans (by rw [hout]; exact hy.2.symm)

theorem Traced.merge_eq {o i out : AxisId} (h : Traced e x (.merge o i out)) :
    x out = x o * e i + x i := by
  rw [h.1, h.2, Int.mul_comm]
  exact (Int.mul_ediv_add_emod (x out) (e i)).symm

/-- A quotient and a remainder are determined by what they are taken from. -/
theorem eq_of_mul_add_eq {q r q' r' n : Int} (hr : 0 ≤ r ∧ r < n) (hr' : 0 ≤ r' ∧ r' < n)
    (h : q * n + r = q' * n + r') : q = q' ∧ r = r' := by
  have hn : 0 < n := by omega
  have hq : (q * n + r) / n = q := by
    rw [Int.add_comm, Int.add_mul_ediv_right _ _ (Int.ne_of_gt hn),
      Int.ediv_eq_zero_of_lt hr.1 hr.2, Int.zero_add]
  have hq' : (q' * n + r') / n = q' := by
    rw [Int.add_comm, Int.add_mul_ediv_right _ _ (Int.ne_of_gt hn),
      Int.ediv_eq_zero_of_lt hr'.1 hr'.2, Int.zero_add]
  have heq : q = q' := by rw [← hq, ← hq', h]
  subst heq
  exact ⟨rfl, by omega⟩

/-- The indices of the outputs follow from those of the inputs, if an inner half stays inside. -/
theorem Traced.outputs_eq {t : Transform} (hx : Traced e x t) (hy : Traced e y t)
    (hinside : ∀ a ∈ t.outputs, Inside e x a ∧ Inside e y a) (h : ∀ a ∈ t.inputs, x a = y a) :
    ∀ a ∈ t.outputs, x a = y a := by
  cases t with
  | split a o i k innerSplit =>
      have ha := h a (by simp [Transform.inputs])
      obtain ⟨hxi, hyi⟩ := hinside i (by simp [Transform.outputs])
      have hjoin : x o * e i + x i = y o * e i + y i := hx.symm.trans (ha.trans hy)
      obtain ⟨ho, hi⟩ := eq_of_mul_add_eq hxi hyi hjoin
      intro b hb
      rcases List.mem_pair.1 hb with rfl | rfl
      · exact ho
      · exact hi
  | merge o i out =>
      have ho := h o (by simp [Transform.inputs])
      have hi := h i (by simp [Transform.inputs])
      intro b hb
      rw [List.mem_singleton.1 hb, hx.merge_eq, hy.merge_eq, ho, hi]

/-- Outputs at indices that are not negative have such inputs. -/
theorem Traced.nonneg {t : Transform} (hx : Traced e x t) (hpos : ∀ a ∈ t.inputs ++ t.outputs, 0 < e a)
    (h : ∀ a ∈ t.outputs, 0 ≤ x a) : ∀ a ∈ t.inputs, 0 ≤ x a := by
  cases t with
  | split a o i k innerSplit =>
      have ho := h o (by simp [Transform.outputs])
      have hi := h i (by simp [Transform.outputs])
      have hei := hpos i (by simp [Transform.outputs])
      intro b hb
      rw [List.mem_singleton.1 hb, show x a = _ from hx]
      exact Int.add_nonneg (Int.mul_nonneg ho (Int.le_of_lt hei)) hi
  | merge o i out =>
      have hout := h out (by simp [Transform.outputs])
      have hei := hpos i (by simp [Transform.inputs])
      intro b hb
      rcases List.mem_pair.1 hb with rfl | rfl
      · rw [hx.1]
        exact Int.ediv_nonneg hout (Int.le_of_lt hei)
      · rw [hx.2]
        exact Int.emod_nonneg _ (Int.ne_of_gt hei)

/-- The axis that a split pads, if its factor does not divide it. -/
def padded (e : AxisId → Int) : Transform → List AxisId
  | .split a o i _ _ => if e o * e i = e a then [] else [a]
  | .merge _ _ _ => []

/-- Outputs inside their extents have inputs inside theirs, except for padding. -/
theorem Traced.inputs_inside {t : Transform} (hx : Traced e x t) (hexact : Exact e t)
    (hpos : ∀ a ∈ t.inputs ++ t.outputs, 0 < e a) (hpad : ∀ a ∈ padded e t, Inside e x a)
    (h : ∀ a ∈ t.outputs, Inside e x a) : ∀ a ∈ t.inputs, Inside e x a := by
  have hnonneg := hx.nonneg hpos fun a ha => (h a ha).1
  cases t with
  | split a o i k innerSplit =>
      obtain ⟨ho, hi⟩ : Inside e x o ∧ Inside e x i := by
        simpa [Transform.outputs] using h
      intro b hb
      rw [List.mem_singleton.1 hb]
      by_cases heven : e o * e i = e a
      · refine ⟨hnonneg a (by simp [Transform.inputs]), ?_⟩
        have hle : (x o + 1) * e i ≤ e o * e i :=
          Int.mul_le_mul_of_nonneg_right ho.2 (Int.le_trans hi.1 (Int.le_of_lt hi.2))
        rw [Int.add_mul, Int.one_mul] at hle
        have hjoin : x a = x o * e i + x i := hx
        have := hi.2
        omega
      · exact hpad a (by simp [padded, heven])
  | merge o i out =>
      have hout := h out (by simp [Transform.outputs])
      have hipos := hpos i (by simp [Transform.inputs])
      have hprod : e out = e o * e i := hexact
      intro b hb
      refine ⟨hnonneg b hb, ?_⟩
      rcases List.mem_pair.1 hb with rfl | rfl
      · rw [hx.1]
        exact Int.ediv_lt_of_lt_mul hipos (hprod ▸ hout.2)
      · rw [hx.2]
        exact Int.emod_lt_of_pos _ hipos

/-- The outputs of a transform that cannot overrun when the axes caught so far do not: the outer
half of a split, the inner half if the outer one has one step, and a merge with its outer axis. -/
def catches (e : AxisId → Int) (caught : List AxisId) : Transform → List AxisId
  | .split a o i _ _ => if a ∈ caught then (if e a ≤ e i then [o, i] else [o]) else []
  | .merge o _ out => if o ∈ caught then [out] else []

theorem Traced.catches_inside {t : Transform} {caught : List AxisId} (hx : Traced e x t)
    (hexact : Exact e t) (hpos : ∀ a ∈ t.inputs ++ t.outputs, 0 < e a)
    (hnonneg : ∀ a ∈ t.outputs, 0 ≤ x a) (hcaught : ∀ a ∈ caught, Inside e x a) :
    ∀ a ∈ catches e caught t, Inside e x a := by
  cases t with
  | split a o i k innerSplit =>
      obtain ⟨ho, hi⟩ : 0 ≤ x o ∧ 0 ≤ x i := by simpa [Transform.outputs] using hnonneg
      have hipos := hpos i (by simp [Transform.outputs])
      obtain ⟨-, -, hcover⟩ := hexact.split (hpos a (by simp [Transform.inputs]))
      have hjoin : x a = x o * e i + x i := hx
      intro b hb
      rw [catches] at hb
      split at hb
      case isFalse => cases hb
      case isTrue ha =>
          have hlt := (hcaught a ha).2
          have houter : x o < e o := by
            by_contra hnot
            have hle : e o * e i ≤ x o * e i :=
              Int.mul_le_mul_of_nonneg_right (by omega) (Int.le_of_lt hipos)
            omega
          split at hb
          case isTrue hone =>
              rcases List.mem_pair.1 hb with rfl | rfl
              · exact ⟨ho, houter⟩
              · have hprod := Int.mul_nonneg ho (Int.le_of_lt hipos)
                exact ⟨hi, by omega⟩
          case isFalse =>
              rw [List.mem_singleton.1 hb]
              exact ⟨ho, houter⟩
  | merge o i out =>
      have hipos := hpos i (by simp [Transform.inputs])
      have hprod : e out = e o * e i := hexact
      have hjoin := hx.merge_eq
      intro b hb
      rw [catches] at hb
      split at hb
      case isFalse => cases hb
      case isTrue ho =>
          rw [List.mem_singleton.1 hb]
          refine ⟨hnonneg out (by simp [Transform.outputs]), ?_⟩
          have hle : (x o + 1) * e i ≤ e o * e i :=
            Int.mul_le_mul_of_nonneg_right (hcaught o ho).2 (Int.le_of_lt hipos)
          have hmod := Int.emod_lt_of_pos (x out) hipos
          rw [Int.add_mul, Int.one_mul] at hle
          rw [← hx.2] at hmod
          omega

/-! ## Whole histories -/

namespace Balanced

/-- Exact extents over a positive root are positive. -/
theorem extent_pos (hf : Sound f) (h : f.Balanced root ts leaf) (hroot : ∀ a ∈ root, 0 < e a)
    (hexact : ∀ t ∈ ts, Exact e (f.transform t)) : ∀ a ∈ root ++ f.outputsOf ts, 0 < e a := by
  refine h.forward_induction hf hroot fun t ht hin => ?_
  have hx := hexact t ht
  cases hform : f.transform t with
  | split a o i k innerSplit =>
      rw [hform] at hx hin
      obtain ⟨ho, hi, -⟩ := hx.split (hin a (by simp [Transform.inputs]))
      intro b hb
      rcases List.mem_pair.1 hb with rfl | rfl
      · exact ho
      · exact hi
  | merge o i out =>
      rw [hform] at hx hin
      intro b hb
      rw [List.mem_singleton.1 hb, show e out = _ from hx]
      exact Int.mul_pos (hin o (by simp [Transform.inputs])) (hin i (by simp [Transform.inputs]))

/-- Points with the same leaf indices agree. -/
theorem eq_of_leaves (hf : Sound f) (h : f.Balanced root ts leaf)
    (hx : ∀ t ∈ ts, Traced e x (f.transform t)) (hy : ∀ t ∈ ts, Traced e y (f.transform t))
    (hleaf : ∀ a ∈ leaf, x a = y a) : ∀ a ∈ root ++ f.outputsOf ts, x a = y a :=
  h.backward_induction hf hleaf fun t ht => (hx t ht).inputs_eq (hy t ht)

/-- Points that stay inside and have the same root indices agree. -/
theorem eq_of_roots (hf : Sound f) (h : f.Balanced root ts leaf)
    (hx : ∀ t ∈ ts, Traced e x (f.transform t)) (hy : ∀ t ∈ ts, Traced e y (f.transform t))
    (hinside : ∀ a ∈ root ++ f.outputsOf ts, Inside e x a ∧ Inside e y a)
    (hroot : ∀ a ∈ root, x a = y a) : ∀ a ∈ root ++ f.outputsOf ts, x a = y a := by
  refine h.forward_induction hf hroot fun t ht => ?_
  refine (hx t ht).outputs_eq (hy t ht) fun a ha => hinside a ?_
  exact h.mem_axes ht (List.mem_append_right _ ha)

end Balanced
end Fusion

/-! ## Index arithmetic -/

namespace LoopPlan

open Fusion

variable {f : Fusion} {p : LoopPlan} {env : Scalar.Env} {m : AxisIndices} {t : Transform}
  {e x : AxisId → Int} {a : AxisId}

/-- The index of an axis has the given value at run time. -/
def Valued (env : Scalar.Env) (m : AxisIndices) (x : AxisId → Int) (a : AxisId) : Prop :=
  ∃ s, m.get? a = some s ∧ s.evaluate env = some (.int (x a))

instance (env : Scalar.Env) (m : AxisIndices) (x : AxisId → Int) (a : AxisId) :
    Decidable (Valued env m x a) :=
  match h : m.get? a with
  | some s => decidable_of_iff (s.evaluate env = some (.int (x a))) (by simp [Valued, h])
  | none => .isFalse (by simp [Valued, h])

theorem Valued.evaluate (h : Valued env m x a) {s : Scalar} (hs : m.get? a = some s) :
    s.evaluate env = some (.int (x a)) := by
  obtain ⟨s', hs', hval⟩ := h
  rw [hs] at hs'
  cases hs'
  exact hval

theorem exactInt?_add (m n : Int) : Scalar.exactInt? .add m n = some (m + n) :=
  rfl

theorem exactInt?_mul (m n : Int) : Scalar.exactInt? .mul m n = some (m * n) :=
  rfl

theorem exactInt?_div {m n : Int} (hm : 0 ≤ m) (hn : 0 < n) :
    Scalar.exactInt? .div m n = some (m / n) := by
  rw [← Int.tdiv_eq_ediv_of_nonneg hm]
  exact if_pos hn

theorem exactInt?_mod {m n : Int} (hm : 0 ≤ m) (hn : 0 < n) :
    Scalar.exactInt? .mod m n = some (m % n) := by
  rw [← Int.tmod_eq_emod_of_nonneg hm]
  exact if_pos hn

/-- Indices that backward arithmetic gives the axes of a transform belong together. -/
theorem BackLinked.traced (h : BackLinked p m t)
    (hown : ∀ a ∈ t.inputs ++ t.outputs, p.concreteExtent a = p.fusion.ownExtent a)
    (hsized : p.fusion.Sized env (t.inputs ++ t.outputs) e)
    (hpos : ∀ a ∈ t.inputs ++ t.outputs, 0 < e a)
    (hval : ∀ a ∈ t.inputs ++ t.outputs, Valued env m x a) (hout : ∀ a ∈ t.outputs, 0 ≤ x a) :
    Traced e x t := by
  cases t with
  | split a o i k innerSplit =>
      obtain ⟨so, si, ho, hi, ha⟩ := h
      have hvo := (hval o (by simp [Transform.outputs])).evaluate ho
      have hvi := (hval i (by simp [Transform.outputs])).evaluate hi
      have hva := (hval a (by simp [Transform.inputs])).evaluate ha
      have hei := hsized i (by simp [Transform.outputs])
      rw [← hown i (by simp [Transform.outputs])] at hei
      obtain ⟨c, hc⟩ := (Scalar.evaluate_operands_of_add hva).1
      have hmul := Scalar.evaluate_mkBinary_eq (exactInt?_mul _ _) hvo hei hc
      rw [hmul] at hc
      exact Constant.int.inj (Scalar.evaluate_mkBinary_eq (exactInt?_add _ _) hc hvi hva)
  | merge o i out =>
      obtain ⟨s, hs, ho, hi⟩ := h
      have hvs := (hval out (by simp [Transform.outputs])).evaluate hs
      have hvo := (hval o (by simp [Transform.inputs])).evaluate ho
      have hvi := (hval i (by simp [Transform.inputs])).evaluate hi
      have hei := hsized i (by simp [Transform.inputs])
      rw [← hown i (by simp [Transform.inputs])] at hei
      have hnonneg := hout out (by simp [Transform.outputs])
      have hipos := hpos i (by simp [Transform.inputs])
      exact ⟨Constant.int.inj (Scalar.evaluate_mkBinary_eq (exactInt?_div hnonneg hipos) hvs hei hvo),
        Constant.int.inj (Scalar.evaluate_mkBinary_eq (exactInt?_mod hnonneg hipos) hvs hei hvi)⟩

/-- Backward arithmetic gives the inputs of a transform the indices that belong to those of its
outputs. -/
theorem BackLinked.valued (h : BackLinked p m t)
    (hown : ∀ a ∈ t.inputs ++ t.outputs, p.concreteExtent a = p.fusion.ownExtent a)
    (hsized : p.fusion.Sized env (t.inputs ++ t.outputs) e)
    (hpos : ∀ a ∈ t.inputs ++ t.outputs, 0 < e a) (htraced : Traced e x t)
    (hnonneg : ∀ a ∈ t.inputs ++ t.outputs, 0 ≤ x a) (hfits : ∀ a ∈ t.inputs, Fits64 (x a))
    (hout : ∀ a ∈ t.outputs, Valued env m x a) : ∀ a ∈ t.inputs, Valued env m x a := by
  cases t with
  | split a o i k innerSplit =>
      obtain ⟨so, si, ho, hi, ha⟩ := h
      have hvo := (hout o (by simp [Transform.outputs])).evaluate ho
      have hvi := (hout i (by simp [Transform.outputs])).evaluate hi
      have hei := hsized i (by simp [Transform.outputs])
      rw [← hown i (by simp [Transform.outputs])] at hei
      have hxo := hnonneg o (by simp [Transform.outputs])
      have hxi := hnonneg i (by simp [Transform.outputs])
      have hipos := hpos i (by simp [Transform.outputs])
      have hfit := hfits a (by simp [Transform.inputs])
      have hjoin : x a = x o * e i + x i := htraced
      have hprod : 0 ≤ x o * e i := Int.mul_nonneg hxo (Int.le_of_lt hipos)
      have hmul := Scalar.evaluate_mkBinary_of_fits (exactInt?_mul _ _) hvo hei
        (hfit.of_le hprod (by omega))
      have hadd := Scalar.evaluate_mkBinary_of_fits (exactInt?_add _ _) hmul hvi (hjoin ▸ hfit)
      intro b hb
      rw [List.mem_singleton.1 hb]
      exact ⟨_, ha, hjoin ▸ hadd⟩
  | merge o i out =>
      obtain ⟨s, hs, ho, hi⟩ := h
      have hvs := (hout out (by simp [Transform.outputs])).evaluate hs
      have hei := hsized i (by simp [Transform.inputs])
      rw [← hown i (by simp [Transform.inputs])] at hei
      have hxout := hnonneg out (by simp [Transform.outputs])
      have hipos := hpos i (by simp [Transform.inputs])
      obtain ⟨hxo, hxi⟩ := htraced
      have hfo := hfits o (by simp [Transform.inputs])
      have hfi := hfits i (by simp [Transform.inputs])
      rw [hxo] at hfo
      rw [hxi] at hfi
      have hdiv := Scalar.evaluate_mkBinary_of_fits (exactInt?_div hxout hipos) hvs hei hfo
      have hmod := Scalar.evaluate_mkBinary_of_fits (exactInt?_mod hxout hipos) hvs hei hfi
      intro b hb
      rcases List.mem_pair.1 hb with rfl | rfl
      · exact ⟨_, ho, hxo ▸ hdiv⟩
      · exact ⟨_, hi, hxi ▸ hmod⟩

/-- The point that indices stand for at run time; an axis without an index is at zero. -/
def pointOf (env : Scalar.Env) (m : AxisIndices) (a : AxisId) : Int :=
  match (m.get? a).bind (·.evaluate env) with
  | some (.int n) => n
  | _ => 0

theorem pointOf_eq {s : Scalar} {n : Int} (hs : m.get? a = some s)
    (hn : s.evaluate env = some (.int n)) : pointOf env m a = n := by
  simp [pointOf, hs, hn]

theorem valued_pointOf {s : Scalar} {n : Int} (hs : m.get? a = some s)
    (hn : s.evaluate env = some (.int n)) : Valued env m (pointOf env m) a :=
  ⟨s, hs, by rw [pointOf_eq hs hn, hn]⟩

theorem Valued.pointOf_eq (h : Valued env m x a) : pointOf env m a = x a := by
  obtain ⟨s, hs, hval⟩ := h
  exact LoopPlan.pointOf_eq hs hval

/-- The index of an axis has a value at run time that is inside the extent of the axis. -/
structure Reaches (env : Scalar.Env) (m : AxisIndices) (e : AxisId → Int) (a : AxisId) : Prop where
  valued : Valued env m (pointOf env m) a
  inside : Inside e (pointOf env m) a
  fits : Fits64 (pointOf env m a)

/-- Forward arithmetic gives the outputs of a transform indices inside their extents, which belong
to those of its inputs. -/
theorem ForthLinked.reaches (h : ForthLinked f m t) (hsized : f.Sized env (t.inputs ++ t.outputs) e)
    (hexact : Exact e t) (hfit : f.Fitting e t) (hpos : ∀ a ∈ t.inputs ++ t.outputs, 0 < e a)
    (hin : ∀ a ∈ t.inputs, Reaches env m e a) :
    (∀ a ∈ t.outputs, Reaches env m e a) ∧ Traced e (pointOf env m) t := by
  cases t with
  | split a o i k innerSplit =>
      obtain ⟨s, hs, ho, hi⟩ := h
      obtain ⟨hval, hinside, hfits⟩ := hin a (by simp [Transform.inputs])
      have hvs := hval.evaluate hs
      have hei := hsized i (by simp [Transform.outputs])
      have hipos := hpos i (by simp [Transform.outputs])
      obtain ⟨-, -, hcover⟩ := hexact.split (hpos a (by simp [Transform.inputs]))
      have hquot : 0 ≤ pointOf env m a / e i := Int.ediv_nonneg hinside.1 (Int.le_of_lt hipos)
      have hrem := Int.emod_nonneg (pointOf env m a) (Int.ne_of_gt hipos)
      have hfq : Fits64 (pointOf env m a / e i) :=
        hfits.of_le hquot (Int.ediv_le_self _ hinside.1)
      have hsplit : pointOf env m a / e i * e i + pointOf env m a % e i = pointOf env m a := by
        rw [Int.mul_comm]
        exact Int.mul_ediv_add_emod (pointOf env m a) (e i)
      have hfr : Fits64 (pointOf env m a % e i) := by
        have hprod := Int.mul_nonneg hquot (Int.le_of_lt hipos)
        exact hfits.of_le hrem (by omega)
      have hdiv := Scalar.evaluate_mkBinary_of_fits (exactInt?_div hinside.1 hipos) hvs hei hfq
      have hmod := Scalar.evaluate_mkBinary_of_fits (exactInt?_mod hinside.1 hipos) hvs hei hfr
      have hpo := pointOf_eq ho hdiv
      have hpi := pointOf_eq hi hmod
      have hltq : pointOf env m a / e i < e o :=
        Int.ediv_lt_of_lt_mul hipos (Int.lt_of_lt_of_le hinside.2 hcover)
      have hltr := Int.emod_lt_of_pos (pointOf env m a) hipos
      refine ⟨fun b hb => ?_, ?_⟩
      · rcases List.mem_pair.1 hb with rfl | rfl
        · exact ⟨valued_pointOf ho hdiv, by rw [Inside, hpo]; exact ⟨hquot, hltq⟩, hpo ▸ hfq⟩
        · exact ⟨valued_pointOf hi hmod, by rw [Inside, hpi]; exact ⟨hrem, hltr⟩, hpi ▸ hfr⟩
      · rw [Traced, hpo, hpi]
        exact hsplit.symm
  | merge o i out =>
      obtain ⟨so, si, ho, hi, hout⟩ := h
      obtain ⟨hvalo, hino, -⟩ := hin o (by simp [Transform.inputs])
      obtain ⟨hvali, hini, -⟩ := hin i (by simp [Transform.inputs])
      have hvo := hvalo.evaluate ho
      have hvi := hvali.evaluate hi
      have hei := hsized i (by simp [Transform.inputs])
      have hprod : 0 ≤ pointOf env m o * e i :=
        Int.mul_nonneg hino.1 (Int.le_trans hini.1 (Int.le_of_lt hini.2))
      -- the last index of the outer axis leaves room for the inner one
      have hlt : pointOf env m o * e i + pointOf env m i < e o * e i := by
        have hle : (pointOf env m o + 1) * e i ≤ e o * e i :=
          Int.mul_le_mul_of_nonneg_right hino.2 (Int.le_trans hini.1 (Int.le_of_lt hini.2))
        rw [Int.add_mul, Int.one_mul] at hle
        have := hini.2
        omega
      have hfits : Fits64 (pointOf env m o * e i + pointOf env m i) :=
        (DataType.Holds.fits hfit).of_le (Int.add_nonneg hprod hini.1) (Int.le_of_lt hlt)
      have hmul := Scalar.evaluate_mkBinary_of_fits (exactInt?_mul _ _) hvo hei
        (hfits.of_le hprod (by have := hini.1; omega))
      have hadd := Scalar.evaluate_mkBinary_of_fits (exactInt?_add _ _) hmul hvi hfits
      have hpout := pointOf_eq hout hadd
      refine ⟨fun b hb => ?_, ?_⟩
      · rw [List.mem_singleton.1 hb]
        refine ⟨valued_pointOf hout hadd, ?_, hpout ▸ hfits⟩
        rw [Inside, hpout, show e out = _ from hexact]
        exact ⟨Int.add_nonneg hprod hini.1, hlt⟩
      · have hipos := hpos i (by simp [Transform.inputs])
        rw [Traced, hpout, Int.add_comm, Int.add_mul_ediv_right _ _ (Int.ne_of_gt hipos),
          Int.ediv_eq_zero_of_lt hini.1 hini.2, Int.zero_add, Int.add_mul_emod_self_right,
          Int.emod_eq_of_lt hini.1 hini.2]
        exact ⟨rfl, rfl⟩

end LoopPlan
end FusionCompiler
