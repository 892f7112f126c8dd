import Mathlib.Data.List.Nodup
import Mathlib.Data.List.Perm.Lattice
import Mathlib.Logic.Function.Basic
import FusionCompiler.Proofs.Lower.Tracing

/-!
# Loop nests over integers

The loops over the leaves of a tensor run through all tuples of leaf indices.  A
tuple gives every axis between the leaves and the root an index, and it passes
the guard if its root indices are inside their extents.  A loop nest folds what
the tuples that pass read into the element of the result that they belong to.

If no tuple that passes overruns an axis on the way, the tuples that pass are the
elements of the root, each met once.

Main results:

- Theorem `Fusion.Balanced.point_traced`: the indices that a tuple gives the axes
  belong together along the history.
- Theorem `Fusion.Balanced.exists_inside`: every element of the root belongs to
  indices that stay inside.
- Theorem `Fusion.Balanced.passing_perm`: the tuples that pass meet every element
  of the root once.
-/

namespace FusionCompiler

open Fusion

/-! ## Tuples of indices -/

/-- All tuples of indices below given extents, the last index running fastest. -/
def tuples : List Int → List (List Int)
  | [] => [[]]
  | n :: ns => (List.range n.toNat).flatMap fun (i : Nat) => (tuples ns).map fun t => (i : Int) :: t

/-- The index that a tuple gives one of several axes. -/
def assign (axes : List AxisId) (t : List Int) (a : AxisId) : Int :=
  ((axes.zip t).lookup a).getD 0

section Tuples

variable {axes : List AxisId} {e x : AxisId → Int} {ns t : List Int} {a : AxisId}

theorem nodup_tuples (ns : List Int) : (tuples ns).Nodup := by
  induction ns with
  | nil => simp [tuples]
  | cons n ns ih =>
      rw [tuples, List.nodup_flatMap]
      refine ⟨fun i _ => ih.map (List.cons_injective), ?_⟩
      refine List.nodup_range.pairwise_of_forall_ne fun i _ j _ hij => ?_
      simp only [Function.onFun, List.disjoint_left, List.mem_map, not_exists, not_and]
      rintro _ ⟨s, -, rfl⟩ s' - heq
      have hhead : (j : Int) = i := (List.cons.inj heq).1
      omega

theorem length_of_mem_tuples (h : t ∈ tuples ns) : t.length = ns.length := by
  induction ns generalizing t with
  | nil => simp_all [tuples]
  | cons n ns ih =>
      simp only [tuples, List.mem_flatMap, List.mem_map] at h
      obtain ⟨i, -, s, hs, rfl⟩ := h
      simp [ih hs]

/-- The indices of several axes are a tuple below their extents if they are inside. -/
theorem map_mem_tuples : axes.map x ∈ tuples (axes.map e) ↔ ∀ a ∈ axes, Inside e x a := by
  induction axes with
  | nil => simp [tuples]
  | cons a axes ih =>
      simp only [List.map_cons, tuples, List.mem_flatMap, List.mem_range, List.mem_map,
        List.cons.injEq, List.mem_cons, forall_eq_or_imp, ← ih]
      constructor
      · rintro ⟨i, hi, s, hs, hx, rfl⟩
        exact ⟨⟨by omega, by omega⟩, hs⟩
      · rintro ⟨⟨hlow, hhigh⟩, hs⟩
        exact ⟨(x a).toNat, by omega, _, hs, by omega, rfl⟩

theorem assign_map (h : a ∈ axes) : assign axes (axes.map x) a = x a := by
  induction axes with
  | nil => cases h
  | cons b axes ih =>
      by_cases hab : a = b
      · simp [assign, hab]
      · have hbeq : (a == b) = false := by simpa using hab
        have hrest := ih ((List.mem_cons.1 h).resolve_left hab)
        simpa [assign, List.lookup_cons, hbeq] using hrest

theorem map_assign (h : axes.Nodup) (hlength : t.length = axes.length) :
    axes.map (assign axes t) = t := by
  induction axes generalizing t with
  | nil => simpa using hlength
  | cons a axes ih =>
      obtain ⟨hnot, hrest⟩ := List.nodup_cons.1 h
      cases t with
      | nil => simp at hlength
      | cons i t =>
          have htail : axes.map (assign (a :: axes) (i :: t)) = axes.map (assign axes t) := by
            refine List.map_congr_left fun b hb => ?_
            have hbeq : (b == a) = false := by
              simp only [beq_eq_false_iff_ne]
              rintro rfl
              exact hnot hb
            simp [assign, List.lookup_cons, hbeq]
          rw [List.map_cons, htail, ih hrest (by simpa using hlength)]
          simp [assign]

/-- Every tuple below the extents of axes gives them indices inside. -/
theorem inside_assign (h : axes.Nodup) (ht : t ∈ tuples (axes.map e)) :
    axes.map (assign axes t) = t ∧ ∀ a ∈ axes, Inside e (assign axes t) a := by
  have hmap := map_assign h (by simpa using length_of_mem_tuples ht)
  refine ⟨hmap, map_mem_tuples.1 ?_⟩
  rwa [hmap]

end Tuples

/-! ## Loop nests -/

/-- Gives the inputs of a transform the indices that belong to those of its outputs. -/
def Transform.carryBack (e : AxisId → Int) (x : Transform) (y : AxisId → Int) : AxisId → Int :=
  match x with
  | .split a o i _ _ => Function.update y a (y o * e i + y i)
  | .merge o i out => Function.update (Function.update y o (y out / e i)) i (y out % e i)

/-- The loops over leaves, with the transforms that lead to them from a root. -/
structure LoopNest where
  root : List AxisId
  transforms : List Transform
  leaf : List AxisId

/-- The loops of a tensor. -/
def Fusion.loopNest (f : Fusion) (v : ValueId) : LoopNest :=
  ⟨(f.view v).domain.root, (f.history v).map f.transform, f.leaf v⟩

namespace LoopNest

/-- The axes from the root to the leaves. -/
def axes (n : LoopNest) : List AxisId :=
  n.root ++ n.transforms.flatMap Transform.outputs

/-- The indices of all axes that leaf indices lead back to. -/
def point (n : LoopNest) (e : AxisId → Int) (t : List Int) : AxisId → Int :=
  n.transforms.foldr (Transform.carryBack e) (assign n.leaf t)

/-- The root indices that leaf indices lead back to. -/
def element (n : LoopNest) (e : AxisId → Int) (t : List Int) : List Int :=
  n.root.map (n.point e t)

/-- The tuples of leaf indices that pass the guard on the root indices. -/
def passing (n : LoopNest) (e : AxisId → Int) : List (List Int) :=
  (tuples (n.leaf.map e)).filter fun t => n.root.all fun a => decide (n.point e t a < e a)

/-- No tuple that passes the guard overruns an axis between the root and the leaves. -/
def Confined (n : LoopNest) (e : AxisId → Int) : Prop :=
  ∀ t ∈ n.passing e, ∀ a ∈ n.axes, Inside e (n.point e t) a

instance (n : LoopNest) (e : AxisId → Int) : Decidable (n.Confined e) :=
  inferInstanceAs (Decidable (∀ t ∈ n.passing e, ∀ a ∈ n.axes, Inside e (n.point e t) a))

/-- What the loops fold into one element of the result: the elements that they read at the tuples
that lead to this element. -/
def fold (n : LoopNest) (e : AxisId → Int) (op : Int → Int → Int) (init : Int)
    (shape : List AxisId) (read : List Int → Int) (i : List Int) : Int :=
  (((n.passing e).filter fun t => shape.map (n.point e t) = i).map
    fun t => read (n.element e t)).foldl op init

end LoopNest

namespace Fusion

variable {f : Fusion} {e x r : AxisId → Int} {root leaf : List AxisId} {ts : List TransformId}
  {t : List Int} {a : AxisId}

/-! ## The indices of one tuple -/

theorem carryBack_of_not_mem {s : Transform} {y : AxisId → Int} (h : a ∉ s.inputs) :
    s.carryBack e y a = y a := by
  cases s with
  | split b o i k innerSplit =>
      have hb : a ≠ b := by simpa [Transform.inputs] using h
      simp [Transform.carryBack, hb]
  | merge o i out =>
      obtain ⟨ho, hi⟩ : a ≠ o ∧ a ≠ i := by simpa [Transform.inputs] using h
      simp [Transform.carryBack, ho, hi]

/-- The new indices of the inputs belong to those of the outputs. -/
theorem carryBack_traced {s : Transform} {y : AxisId → Int} (hin : s.inputs.Nodup)
    (h : ∀ a ∈ s.outputs, a ∉ s.inputs) : Traced e (s.carryBack e y) s := by
  have hout : ∀ a ∈ s.outputs, s.carryBack e y a = y a := fun a ha => carryBack_of_not_mem (h a ha)
  cases s with
  | split a o i k innerSplit =>
      have ho := hout o (by simp [Transform.outputs])
      have hi := hout i (by simp [Transform.outputs])
      rw [Traced, ho, hi]
      simp [Transform.carryBack]
  | merge o i out =>
      have hne : o ≠ i := by simpa [Transform.inputs] using hin
      have hout := hout out (by simp [Transform.outputs])
      rw [Traced, hout]
      simp [Transform.carryBack, hne]

theorem Traced.congr {s : Transform} {y : AxisId → Int} (h : Traced e x s)
    (heq : ∀ a ∈ s.inputs ++ s.outputs, y a = x a) : Traced e y s := by
  cases s with
  | split a o i k innerSplit =>
      have ha := heq a (by simp [Transform.inputs])
      have ho := heq o (by simp [Transform.outputs])
      have hi := heq i (by simp [Transform.outputs])
      rw [Traced, ha, ho, hi]
      exact h
  | merge o i out =>
      have ho := heq o (by simp [Transform.inputs])
      have hi := heq i (by simp [Transform.inputs])
      have hout := heq out (by simp [Transform.outputs])
      rw [Traced, ho, hi, hout]
      exact h

namespace Balanced

/-- The loops over balanced leaves. -/
def nest (f : Fusion) (root : List AxisId) (ts : List TransformId) (leaf : List AxisId) :
    LoopNest :=
  ⟨root, ts.map f.transform, leaf⟩

theorem axes_nest : (nest f root ts leaf).axes = root ++ f.outputsOf ts := by
  simp [nest, LoopNest.axes, outputsOf, List.flatMap_map]

/-- The first transform of a history consumes nothing that the others produce, and its outputs are
none of its inputs. -/
theorem apart_of_step {s : TransformId} {rest : List AxisId}
    (h : ((f.transform s).inputs ++
      (rest ++ (f.transform s).outputs ++ f.outputsOf ts)).Nodup) :
    (f.transform s).inputs.Nodup ∧
      ∀ a ∈ rest ++ (f.transform s).outputs ++ f.outputsOf ts, a ∉ (f.transform s).inputs := by
  obtain ⟨hin, -, hapart⟩ := List.nodup_append.1 h
  exact ⟨hin, fun a ha hmem => hapart a hmem a ha rfl⟩

/-- Carrying back leaves the indices of the leaves as they are. -/
theorem point_leaf (h : f.Balanced root ts leaf) (t : List Int) :
    ∀ a ∈ leaf, (nest f root ts leaf).point e t a = assign leaf t a := by
  have hnot : ∀ a ∈ leaf, ∀ s ∈ ts.map f.transform, a ∉ s.inputs := by
    intro a ha s hs hin
    obtain ⟨t, ht, rfl⟩ := List.mem_map.1 hs
    exact (List.nodup_append.1 (h.perm.nodup_iff.1 h.nodup)).2.2 a ha a
      (mem_inputsOf.2 ⟨t, ht, hin⟩) rfl
  intro a ha
  have hkeep : ∀ l : List Transform, (∀ s ∈ l, a ∉ s.inputs) →
      l.foldr (Transform.carryBack e) (assign leaf t) a = assign leaf t a := by
    intro l hl
    induction l with
    | nil => rfl
    | cons s l ih =>
        rw [List.foldr_cons, carryBack_of_not_mem (hl s List.mem_cons_self),
          ih fun u hu => hl u (List.mem_cons_of_mem s hu)]
  exact hkeep _ (hnot a ha)

/-- The indices that a tuple gives the axes belong together along the history. -/
theorem point_traced (hf : Sound f) (h : f.Balanced root ts leaf) (t : List Int) :
    ∀ s ∈ ts, Traced e ((nest f root ts leaf).point e t) (f.transform s) := by
  induction ts generalizing root with
  | nil => simp
  | cons s ts ih =>
      obtain ⟨rest, -, -, hnext, hapart⟩ := h.step hf
      obtain ⟨hin, hfresh⟩ := apart_of_step hapart
      have hpoint : (nest f root (s :: ts) leaf).point e t = (f.transform s).carryBack e
          ((nest f (rest ++ (f.transform s).outputs) ts leaf).point e t) := rfl
      intro u hu
      rw [hpoint]
      rcases List.mem_cons.1 hu with rfl | hu
      · exact carryBack_traced hin fun a ha => hfresh a (by simp [ha])
      · -- the axes of the later transforms keep their indices
        refine (ih hnext u hu).congr fun a ha => carryBack_of_not_mem (hfresh a ?_)
        exact hnext.mem_axes hu ha

/-- The indices that a tuple gives the axes are those of any point with the same leaf indices. -/
theorem point_eq (hf : Sound f) (h : f.Balanced root ts leaf)
    (hx : ∀ s ∈ ts, Traced e x (f.transform s)) :
    ∀ a ∈ root ++ f.outputsOf ts, (nest f root ts leaf).point e (leaf.map x) a = x a := by
  refine h.eq_of_leaves hf (h.point_traced hf _) hx fun a ha => ?_
  rw [h.point_leaf _ a ha, assign_map ha]

/-! ## Every element is met once -/

/-- Gives the outputs of a transform the indices that belong to those of its inputs. -/
theorem exists_outputs {s : Transform} (hs : f.Recorded s) (hexact : Exact e s)
    (hpos : ∀ a ∈ s.inputs, 0 < e a) (hin : ∀ a ∈ s.inputs, Inside e r a) (hnodup : s.inputs.Nodup)
    (hout : s.outputs.Nodup) (hapart : ∀ a ∈ s.outputs, a ∉ s.inputs) :
    ∃ y : AxisId → Int, (∀ a ∉ s.outputs, y a = r a) ∧ (∀ a ∈ s.outputs, Inside e y a) ∧
      Traced e y s := by
  cases s with
  | split a o i k innerSplit =>
      have hne : o ≠ i := by simpa [Transform.outputs] using hout
      obtain ⟨hao, hai⟩ : a ≠ o ∧ a ≠ i := by
        have ho := hapart o (by simp [Transform.outputs])
        have hi := hapart i (by simp [Transform.outputs])
        simp only [Transform.inputs, List.mem_singleton] at ho hi
        exact ⟨Ne.symm ho, Ne.symm hi⟩
      obtain ⟨hlow, hhigh⟩ := hin a (by simp [Transform.inputs])
      obtain ⟨hopos, hipos, hcover⟩ := hexact.split (hpos a (by simp [Transform.inputs]))
      refine ⟨Function.update (Function.update r o (r a / e i)) i (r a % e i), ?_, ?_, ?_⟩
      · intro b hb
        obtain ⟨hbo, hbi⟩ : b ≠ o ∧ b ≠ i := by simpa [Transform.outputs] using hb
        simp [hbo, hbi]
      · intro b hb
        rcases List.mem_pair.1 hb with rfl | rfl
        · simp only [Inside, Function.update_of_ne hne, Function.update_self]
          refine ⟨Int.ediv_nonneg hlow (Int.le_of_lt hipos), Int.ediv_lt_of_lt_mul hipos ?_⟩
          omega
        · simp only [Inside, Function.update_self]
          exact ⟨Int.emod_nonneg _ (Int.ne_of_gt hipos), Int.emod_lt_of_pos _ hipos⟩
      · simp only [Traced, Function.update_of_ne hne, Function.update_self,
          Function.update_of_ne hao, Function.update_of_ne hai]
        rw [Int.mul_comm]
        exact (Int.mul_ediv_add_emod (r a) (e i)).symm
  | merge o i out =>
      obtain ⟨ho, hi⟩ : o ≠ out ∧ i ≠ out := by
        have hout := hapart out (by simp [Transform.outputs])
        simp only [Transform.inputs, List.mem_cons, List.not_mem_nil, or_false, not_or] at hout
        exact ⟨Ne.symm hout.1, Ne.symm hout.2⟩
      obtain ⟨holow, hohigh⟩ := hin o (by simp [Transform.inputs])
      obtain ⟨hilow, hihigh⟩ := hin i (by simp [Transform.inputs])
      have hipos := hpos i (by simp [Transform.inputs])
      have hprod : e out = e o * e i := hexact
      refine ⟨Function.update r out (r o * e i + r i), ?_, ?_, ?_⟩
      · intro b hb
        have hne : b ≠ out := by simpa [Transform.outputs] using hb
        simp [hne]
      · intro b hb
        rw [List.mem_singleton.1 hb]
        simp only [Inside, Function.update_self]
        have hle : (r o + 1) * e i ≤ e o * e i :=
          Int.mul_le_mul_of_nonneg_right hohigh (Int.le_of_lt hipos)
        have hnonneg := Int.mul_nonneg holow (Int.le_of_lt hipos)
        rw [Int.add_mul, Int.one_mul] at hle
        exact ⟨by omega, by omega⟩
      · simp only [Traced, Function.update_self, Function.update_of_ne ho, Function.update_of_ne hi]
        rw [Int.add_comm, Int.add_mul_ediv_right _ _ (Int.ne_of_gt hipos),
          Int.ediv_eq_zero_of_lt hilow hihigh, Int.zero_add, Int.add_mul_emod_self_right,
          Int.emod_eq_of_lt hilow hihigh]
        exact ⟨rfl, rfl⟩

/-- The first transform of a history gives its outputs indices that stay inside. -/
theorem step_inside {s : TransformId} (hf : Sound f) (h : f.Balanced root (s :: ts) leaf)
    (hpos : ∀ a ∈ root, 0 < e a) (hexact : ∀ u ∈ s :: ts, Exact e (f.transform u))
    (hroot : ∀ a ∈ root, Inside e r a) : ∃ (rest : List AxisId) (y : AxisId → Int),
      root.Perm ((f.transform s).inputs ++ rest) ∧
      f.Balanced (rest ++ (f.transform s).outputs) ts leaf ∧
      (∀ a ∈ rest ++ (f.transform s).outputs ++ f.outputsOf ts, a ∉ (f.transform s).inputs) ∧
      (∀ a ∈ rest ++ (f.transform s).outputs, 0 < e a ∧ Inside e y a) ∧
      (∀ a ∈ root, y a = r a) ∧ Traced e y (f.transform s) := by
  obtain ⟨rest, -, hperm, hnext, hapart⟩ := h.step hf
  obtain ⟨hin, hfresh⟩ := apart_of_step hapart
  have hmem : ∀ a ∈ (f.transform s).inputs, a ∈ root :=
    fun a ha => hperm.mem_iff.2 (List.mem_append_left _ ha)
  obtain ⟨-, hout, hrest⟩ := List.nodup_append.1 (List.nodup_append.1 hnext.nodup).1
  obtain ⟨y, hsame, hinside, htraced⟩ := exists_outputs
    (hf.recorded s (h.has s List.mem_cons_self)) (hexact s List.mem_cons_self)
    (fun a ha => hpos a (hmem a ha)) (fun a ha => hroot a (hmem a ha)) hin hout
    fun a ha => hfresh a (by simp [ha])
  have hold : ∀ a ∈ root, y a = r a := by
    refine fun a ha => hsame a fun hnew => ?_
    rcases List.mem_append.1 (hperm.mem_iff.1 ha) with ha | ha
    · exact hfresh a (by simp [hnew]) ha
    · exact hrest a ha a hnew rfl
  refine ⟨rest, y, hperm, hnext, hfresh, fun a ha => ?_, hold, htraced⟩
  rcases List.mem_append.1 ha with ha | ha
  · have ha := hperm.mem_iff.2 (List.mem_append_right _ ha)
    rw [Inside, hold a ha]
    exact ⟨hpos a ha, hroot a ha⟩
  · exact ⟨h.extent_pos hf hpos hexact a (h.mem_axes List.mem_cons_self (List.mem_append_right _ ha)),
      hinside a ha⟩

/-- Every element of the root belongs to indices that stay inside all extents. -/
theorem exists_inside (hf : Sound f) (h : f.Balanced root ts leaf) (hpos : ∀ a ∈ root, 0 < e a)
    (hexact : ∀ s ∈ ts, Exact e (f.transform s)) (hroot : ∀ a ∈ root, Inside e r a) :
    ∃ x : AxisId → Int, (∀ s ∈ ts, Traced e x (f.transform s)) ∧
      (∀ a ∈ root ++ f.outputsOf ts, Inside e x a) ∧ ∀ a ∈ root, x a = r a := by
  induction ts generalizing root r with
  | nil => exact ⟨r, by simp, by simpa [outputsOf] using hroot, fun _ _ => rfl⟩
  | cons s ts ih =>
      obtain ⟨rest, y, hperm, hnext, hfresh, hstart, hold, htraced⟩ :=
        h.step_inside hf hpos hexact hroot
      obtain ⟨x, hx, hxin, hxroot⟩ := ih hnext (fun a ha => (hstart a ha).1)
        (fun u hu => hexact u (List.mem_cons_of_mem s hu)) fun a ha => (hstart a ha).2
      -- the axes that the transform consumes keep the indices they have at the root
      set x' : AxisId → Int := fun a => if a ∈ (f.transform s).inputs then r a else x a
      have hconsumed : ∀ a ∈ (f.transform s).inputs, x' a = r a := fun a ha => if_pos ha
      have hlater : ∀ a ∉ (f.transform s).inputs, x' a = x a := fun a ha => if_neg ha
      have hroots : ∀ a ∈ root, x' a = r a := by
        intro a ha
        by_cases hmem : a ∈ (f.transform s).inputs
        · exact hconsumed a hmem
        · have hin : a ∈ rest := (List.mem_append.1 (hperm.mem_iff.1 ha)).resolve_left hmem
          rw [hlater a hmem, hxroot a (List.mem_append_left _ hin), hold a ha]
      have hall : ∀ a ∈ rest ++ (f.transform s).outputs ++ f.outputsOf ts, Inside e x' a := by
        intro a ha
        rw [Inside, hlater a (hfresh a ha)]
        exact hxin a ha
      refine ⟨x', fun u hu => ?_, fun a ha => ?_, hroots⟩
      · rcases List.mem_cons.1 hu with rfl | hu
        · refine htraced.congr fun a ha => ?_
          rcases List.mem_append.1 ha with ha | ha
          · rw [hconsumed a ha, hold a (hperm.mem_iff.2 (List.mem_append_left _ ha))]
          · rw [hlater a (hfresh a (by simp [ha])), hxroot a (List.mem_append_right _ ha)]
        · exact (hx u hu).congr fun a ha => hlater a (hfresh a (hnext.mem_axes hu ha))
      · have hcons : f.outputsOf (s :: ts) = (f.transform s).outputs ++ f.outputsOf ts := rfl
        rw [hcons, ← List.append_assoc] at ha
        rcases List.mem_append.1 ha with ha | ha
        · rcases List.mem_append.1 ha with ha | ha
          · rw [Inside, hroots a ha]
            exact hroot a ha
          · exact hall a (by simp [ha])
        · exact hall a (List.mem_append_right _ ha)

theorem mem_passing : t ∈ (nest f root ts leaf).passing e ↔
    t ∈ tuples (leaf.map e) ∧ ∀ a ∈ root, (nest f root ts leaf).point e t a < e a := by
  rw [LoopNest.passing, List.mem_filter, List.all_eq_true]
  simp only [decide_eq_true_eq]
  rfl

/-- Indices that stay inside all extents are those of a tuple that passes. -/
theorem map_mem_passing (hf : Sound f) (h : f.Balanced root ts leaf)
    (hx : ∀ s ∈ ts, Traced e x (f.transform s)) (hleaf : ∀ a ∈ leaf, Inside e x a)
    (hroot : ∀ a ∈ root, x a < e a) : leaf.map x ∈ (nest f root ts leaf).passing e := by
  refine mem_passing.2 ⟨map_mem_tuples.2 hleaf, fun a ha => ?_⟩
  rw [h.point_eq hf hx a (List.mem_append_left _ ha)]
  exact hroot a ha

/-- If no tuple that passes overruns an axis, the tuples that pass meet every element of the root
once. -/
theorem passing_perm (hf : Sound f) (h : f.Balanced root ts leaf) (hpos : ∀ a ∈ root, 0 < e a)
    (hexact : ∀ s ∈ ts, Exact e (f.transform s)) (hconfined : (nest f root ts leaf).Confined e) :
    (((nest f root ts leaf).passing e).map ((nest f root ts leaf).element e)).Perm
      (tuples (root.map e)) := by
  have hinside : ∀ t ∈ (nest f root ts leaf).passing e, ∀ a ∈ root ++ f.outputsOf ts,
      Inside e ((nest f root ts leaf).point e t) a := by
    intro t ht a ha
    exact hconfined t ht a (axes_nest ▸ ha)
  have hnodup : ((nest f root ts leaf).passing e).Nodup := (nodup_tuples _).filter _
  refine (List.perm_ext_iff_of_nodup (hnodup.map_on ?_) (nodup_tuples _)).2 fun ρ => ?_
  · intro t ht t' ht' heq
    have hroot : ∀ a ∈ root,
        (nest f root ts leaf).point e t a = (nest f root ts leaf).point e t' a :=
      List.map_inj_left.1 heq
    have hall := h.eq_of_roots hf (h.point_traced hf t) (h.point_traced hf t')
      (fun a ha => ⟨hinside t ht a ha, hinside t' ht' a ha⟩) hroot
    have hleaf : leaf.map (assign leaf t) = leaf.map (assign leaf t') := by
      refine List.map_congr_left fun a ha => ?_
      rw [← h.point_leaf t a ha, ← h.point_leaf t' a ha]
      exact hall a (h.leaf_mem_axes ha)
    rwa [(inside_assign h.leaf_nodup (mem_passing.1 ht).1).1,
      (inside_assign h.leaf_nodup (mem_passing.1 ht').1).1] at hleaf
  · have hrootNodup : root.Nodup := (List.nodup_append.1 h.nodup).1
    constructor
    · intro hρ
      obtain ⟨t, ht, rfl⟩ := List.mem_map.1 hρ
      exact map_mem_tuples.2 fun a ha => hinside t ht a (List.mem_append_left _ ha)
    · intro hρ
      obtain ⟨hmap, hin⟩ := inside_assign hrootNodup hρ
      obtain ⟨x, hx, hxin, hxroot⟩ := h.exists_inside hf hpos hexact hin
      refine List.mem_map.2 ⟨leaf.map x, ?_, ?_⟩
      · exact h.map_mem_passing hf hx (fun a ha => hxin a (h.leaf_mem_axes ha))
          fun a ha => (hxin a (List.mem_append_left _ ha)).2
      · have helement :
            (nest f root ts leaf).element e (leaf.map x) = root.map (assign root ρ) := by
          refine List.map_congr_left fun a ha => ?_
          rw [h.point_eq hf hx a (List.mem_append_left _ ha), hxroot a ha]
        rw [helement, hmap]

end Balanced
end Fusion
end FusionCompiler
