import Mathlib.Data.List.Nodup
import Mathlib.Data.List.Perm.Subperm
import FusionCompiler.Proofs.Fusion.Wiring

/-!
# Live expressions in order

The expressions that the outputs need are found by a depth-first walk from the
outputs.  In a founded fusion the walk leaves every expression after those that
compute its operands, so the list it makes can be run from front to back.

The walk carries the expressions that have been entered and not left, and the
level of an expression, which grows from producer to consumer, keeps it from
meeting one of them again.  Every step enters an expression that is new, so the
number of expressions bounds the depth.

Main results:

- Theorem `Fusion.Founded.exists_level`: in a founded fusion some level
  of the expressions grows from producers to consumers.
- Theorem `Fusion.Founded.liveExprs_inOrder`: the live expressions are listed in
  order, without repetition.
- Theorem `Fusion.Founded.tensorExprs_inOrder`: so are those that compute tensors.
-/

namespace FusionCompiler
namespace Fusion

/-! ## Lists without repetition -/

section AddNew

variable {α : Type} [BEq α] [LawfulBEq α] {l acc : List α} {x : α}

/-- A list has a new element after it was added, and keeps what it had. -/
theorem mem_addNew {y : α} : x ∈ addNew l y ↔ x ∈ l ∨ x = y := by
  unfold addNew
  split
  case isTrue h =>
      have hy : y ∈ l := by simpa using h
      constructor
      · exact .inl
      · rintro (hx | rfl)
        · exact hx
        · exact hy
  case isFalse => simp

/-- Adding several elements. -/
theorem mem_foldl_addNew : x ∈ l.foldl addNew acc ↔ x ∈ acc ∨ x ∈ l := by
  induction l generalizing acc with
  | nil => simp
  | cons y l ih =>
      rw [List.foldl_cons, ih, mem_addNew, List.mem_cons]
      tauto

/-- Adding elements makes no duplicates. -/
theorem nodup_foldl_addNew (h : acc.Nodup) : (l.foldl addNew acc).Nodup := by
  induction l generalizing acc with
  | nil => exact h
  | cons y l ih =>
      refine ih ?_
      unfold addNew
      split
      · exact h
      case isFalse hy =>
          refine List.nodup_append.2 ⟨h, List.nodup_singleton y, fun a ha b hb => ?_⟩
          rw [List.mem_singleton.1 hb]
          rintro rfl
          exact hy (by simpa using ha)

end AddNew

variable {f : Fusion} {level : ExprId → Nat}

/-- One expression computes an operand of another. -/
def Feeds (f : Fusion) (d e : ExprId) : Prop :=
  ∃ v ∈ (f.expr e).inputs, f.definition v = some d

/-- Values know what computes them, and nothing is computed from itself. -/
structure Founded (f : Fusion) : Prop where
  defined : ∀ v e, f.definition v = some e → ∃ x, f.expr? e = some x ∧ v ∈ x.outputs
  ranked : ∃ rank, f.Ranked rank

/-- In a wired fusion all definitions are founded. -/
theorem Wired.founded (hw : Wired f) (hf : Sound f) : Founded f :=
  ⟨hf.defined, hw.ranked⟩

/-- Some level of the expressions grows from producers to consumers. -/
theorem Founded.exists_level (hf : Founded f) :
    ∃ level : ExprId → Nat, ∀ d e, f.Feeds d e → level d < level e := by
  obtain ⟨rank, hrank⟩ := hf.ranked
  choose level hlt hle using fun e => exists_threshold rank (f.expr e).inputs
  refine ⟨level, fun d e hfeeds => ?_⟩
  obtain ⟨v, hv, hdef⟩ := hfeeds
  obtain ⟨x, hx, hmem⟩ := hf.defined v d hdef
  have hbelow : level d ≤ rank v := by
    refine hle d _ fun u hu => ?_
    rw [expr, hx] at hu
    exact hrank d x hx u hu v hmem
  exact Nat.lt_of_le_of_lt hbelow (hlt e v hv)

/-! ## Lists of expressions in order -/

/-- Every expression of a list comes after those that compute its operands. -/
def InOrder (f : Fusion) (l : List ExprId) : Prop :=
  ∀ pre e post, l = pre ++ e :: post → ∀ d, f.Feeds d e → d ∈ pre

/-- A list, latest first, in which every expression comes after those that compute its operands. -/
def Settled (f : Fusion) : List ExprId → Prop
  | [] => True
  | e :: l => (∀ d, f.Feeds d e → d ∈ l) ∧ f.Settled l

/-- What comes later in a settled list is settled. -/
theorem Settled.of_append {l l' : List ExprId} (h : f.Settled (l ++ l')) : f.Settled l' := by
  induction l with
  | nil => exact h
  | cons e l ih => exact ih h.2

/-- A settled list is in order when it is turned around. -/
theorem Settled.inOrder {l : List ExprId} (h : f.Settled l) : f.InOrder l.reverse := by
  intro pre e post heq d hfeeds
  have hl : l = post.reverse ++ e :: pre.reverse := by
    rw [← List.reverse_reverse l, heq]
    simp
  rw [hl] at h
  exact List.mem_reverse.1 (h.of_append.1 d hfeeds)

/-! ## The walk -/

/-- A walk that has entered the expressions of `stack` and not left them yet. -/
structure Walk.Proper (f : Fusion) (stack : List ExprId) (w : Walk) : Prop where
  entered : ∀ e, e ∈ w.entered ↔ e ∈ w.left ∨ e ∈ stack
  apart : ∀ e ∈ stack, e ∉ w.left
  distinct : w.entered.Nodup
  nodup : w.left.Nodup
  live : ∀ e ∈ w.entered, f.isLive e = true
  settled : f.Settled w.left

/-- What a part of a walk does that ends where it began. -/
structure Walk.Advances (f : Fusion) (stack : List ExprId) (w w' : Walk) : Prop where
  proper : w'.Proper f stack
  left : ∀ e ∈ w.left, e ∈ w'.left
  entered : w.entered.length ≤ w'.entered.length

namespace Walk

variable {stack : List ExprId} {w w₁ w₂ w₃ : Walk} {e : ExprId}

/-- Nothing is visited. -/
protected theorem Advances.refl (h : w.Proper f stack) : w.Advances f stack w :=
  ⟨h, fun _ he => he, Nat.le_refl _⟩

/-- Visits one after another. -/
protected theorem Advances.trans (h : w₁.Advances f stack w₂) (h' : w₂.Advances f stack w₃) :
    w₁.Advances f stack w₃ :=
  ⟨h'.proper, fun e he => h'.left e (h.left e he), Nat.le_trans h.entered h'.entered⟩

/-- The walk before anything is entered. -/
theorem proper_empty : (Walk.mk [] []).Proper f [] where
  entered := by simp
  apart := by simp
  distinct := List.nodup_nil
  nodup := List.nodup_nil
  live := by simp
  settled := trivial

/-- Entering an expression that was not entered yet. -/
theorem Proper.push (h : w.Proper f stack) (hnew : e ∉ w.entered) (he : f.isLive e = true) :
    ({ w with entered := e :: w.entered } : Walk).Proper f (e :: stack) := by
  refine ⟨fun d => ?_, fun d hd => ?_, List.nodup_cons.2 ⟨hnew, h.distinct⟩, h.nodup,
    fun d hd => ?_, h.settled⟩
  · rw [List.mem_cons, List.mem_cons, h.entered d]
    tauto
  · rcases List.mem_cons.1 hd with rfl | hd
    · exact fun hleft => hnew ((h.entered d).2 (.inl hleft))
    · exact h.apart d hd
  · rcases List.mem_cons.1 hd with rfl | hd
    · exact he
    · exact h.live d hd

/-- Leaving an expression after all that feed it. -/
theorem Proper.pop (h : w.Proper f (e :: stack)) (hstack : e ∉ stack)
    (hfed : ∀ d, f.Feeds d e → d ∈ w.left) :
    ({ w with left := e :: w.left } : Walk).Proper f stack := by
  refine ⟨fun d => ?_, fun d hd => ?_, h.distinct,
    List.nodup_cons.2 ⟨h.apart e List.mem_cons_self, h.nodup⟩, h.live, hfed, h.settled⟩
  · rw [h.entered d, List.mem_cons, List.mem_cons]
    tauto
  · rw [List.mem_cons, not_or]
    refine ⟨?_, h.apart d (List.mem_cons_of_mem e hd)⟩
    rintro rfl
    exact hstack hd

/-- Not all expressions have been entered if a live one is new. -/
theorem Proper.length_lt (h : w.Proper f stack) (hnew : e ∉ w.entered) (he : f.isLive e = true) :
    w.entered.length < f.exprs.size := by
  have hbound : ∀ d ∈ e :: w.entered, d.index ∈ List.range f.exprs.size := by
    intro d hd
    have hlive : f.isLive d = true := by
      rcases List.mem_cons.1 hd with rfl | hd
      · exact he
      · exact h.live d hd
    obtain ⟨x, hx⟩ := Option.isSome_iff_exists.1 hlive
    exact List.mem_range.2 (index_lt_of_expr? hx)
  have hnodup : ((e :: w.entered).map (·.index)).Nodup := by
    refine List.Nodup.map (fun a b hab => ?_) (List.nodup_cons.2 ⟨hnew, h.distinct⟩)
    cases a
    cases b
    simpa using hab
  have hsub : (e :: w.entered).map (·.index) ⊆ List.range f.exprs.size := by
    intro i hi
    obtain ⟨d, hd, rfl⟩ := List.mem_map.1 hi
    exact hbound d hd
  have hle := (List.subperm_of_subset hnodup hsub).length_le
  simp only [List.length_map, List.length_cons, List.length_range] at hle
  omega

/-- Entering the definitions of a list of values, one after the other. -/
theorem advances_foldl (level : ExprId → Nat) (go : Walk → ExprId → Walk) (n : Nat)
    (vs : List ValueId) (hf : Founded f)
    (hgo : ∀ w d, w.Proper f stack → f.isLive d = true → (∀ s ∈ stack, level d < level s) →
      n ≤ w.entered.length → w.Advances f stack (go w d) ∧ d ∈ (go w d).left)
    (hvs : ∀ v ∈ vs, ∀ d, f.definition v = some d → ∀ s ∈ stack, level d < level s)
    (hw : w.Proper f stack) (hn : n ≤ w.entered.length) :
    w.Advances f stack (vs.foldl (fun w v => match f.definition v with
      | some d => go w d
      | none => w) w) ∧
    ∀ v ∈ vs, ∀ d, f.definition v = some d → d ∈ (vs.foldl (fun w v => match f.definition v with
      | some d => go w d
      | none => w) w).left := by
  induction vs generalizing w with
  | nil => exact ⟨.refl hw, by simp⟩
  | cons v vs ih =>
      have hrest := fun u hu => hvs u (List.mem_cons_of_mem v hu)
      rw [List.foldl_cons]
      cases hdef : f.definition v with
      | none =>
          obtain ⟨hadv, hall⟩ := ih hrest hw hn
          refine ⟨hadv, fun u hu d hd => ?_⟩
          rcases List.mem_cons.1 hu with rfl | hu
          · rw [hdef] at hd
            cases hd
          · exact hall u hu d hd
      | some d =>
          obtain ⟨x, hx, -⟩ := hf.defined v d hdef
          have hlive : f.isLive d = true := Option.isSome_iff_exists.2 ⟨x, hx⟩
          obtain ⟨hone, hleft⟩ := hgo w d hw hlive (hvs v List.mem_cons_self d hdef) hn
          obtain ⟨hadv, hall⟩ := ih hrest hone.proper (Nat.le_trans hn hone.entered)
          refine ⟨hone.trans hadv, fun u hu c hc => ?_⟩
          rcases List.mem_cons.1 hu with rfl | hu
          · rw [hdef] at hc
            cases hc
            exact hadv.left d hleft
          · exact hall u hu c hc

end Walk

/-- Entering an expression leaves it behind everything that it is computed from. -/
theorem enter_advances (hf : Founded f) (hlevel : ∀ d e, f.Feeds d e → level d < level e)
    {fuel : Nat} {stack : List ExprId} {w : Walk} {e : ExprId} (hw : w.Proper f stack)
    (he : f.isLive e = true) (hstack : ∀ s ∈ stack, level e < level s)
    (hfuel : f.exprs.size < fuel + w.entered.length) :
    w.Advances f stack (f.enter fuel w e) ∧ e ∈ (f.enter fuel w e).left := by
  induction fuel generalizing stack w e with
  | zero =>
      -- all expressions are entered, and this one cannot be on the stack
      have hmem : e ∈ w.entered := by
        by_contra hnew
        have hlt := hw.length_lt hnew he
        omega
      refine ⟨.refl hw, ((hw.entered e).1 hmem).resolve_right fun hs => ?_⟩
      exact Nat.lt_irrefl _ (hstack e hs)
  | succ fuel ih =>
      unfold enter
      by_cases hmem : e ∈ w.entered
      · rw [if_pos (by simpa using hmem)]
        refine ⟨.refl hw, ((hw.entered e).1 hmem).resolve_right fun hs => ?_⟩
        exact Nat.lt_irrefl _ (hstack e hs)
      · rw [if_neg (by simpa using hmem)]
        have hpush := hw.push hmem he
        have hnot : e ∉ stack := fun hs => Nat.lt_irrefl _ (hstack e hs)
        obtain ⟨hadv, hfed⟩ := Walk.advances_foldl level (f.enter fuel)
          (w.entered.length + 1) (f.expr e).inputs hf
          (fun w' d hw' hd hs hn => ih hw' hd hs (by omega))
          (fun v hv d hd s hs => by
            have hde := hlevel d e ⟨v, hv, hd⟩
            rcases List.mem_cons.1 hs with rfl | hs
            · exact hde
            · exact Nat.lt_trans hde (hstack s hs))
          hpush (Nat.le_refl _)
        refine ⟨⟨hadv.proper.pop hnot ?_, fun d hd => ?_, ?_⟩, List.mem_cons_self⟩
        · rintro d ⟨v, hv, hd⟩
          exact hfed v hv d hd
        · exact List.mem_cons_of_mem e (hadv.left d hd)
        · exact Nat.le_trans (Nat.le_succ _) hadv.entered

/-! ## Live expressions -/

/-- The whole walk leaves the definitions of all outputs. -/
theorem Founded.exists_walk (hf : Founded f) :
    ∃ w : Walk, w.Proper f [] ∧ f.liveExprs = w.left.reverse ∧
      ∀ v ∈ f.outputs, ∀ d, f.definition v = some d → d ∈ w.left := by
  obtain ⟨level, hlevel⟩ := hf.exists_level
  obtain ⟨hadv, hall⟩ := Walk.advances_foldl level (f.enter (f.exprs.size + 1)) 0 f.outputs hf
    (fun w d hw' hd hs _ => enter_advances hf hlevel hw' hd hs (by omega))
    (fun v _ d _ s hs => by cases hs) Walk.proper_empty (Nat.le_refl _)
  exact ⟨_, hadv.proper, rfl, hall⟩

/-- The live expressions are listed in order, without repetition. -/
theorem Founded.liveExprs_inOrder (hf : Founded f) :
    f.InOrder f.liveExprs ∧ f.liveExprs.Nodup := by
  obtain ⟨w, hproper, heq, -⟩ := hf.exists_walk
  rw [heq]
  exact ⟨hproper.settled.inOrder, List.nodup_reverse.2 hproper.nodup⟩

/-- What is needed is live. -/
theorem Founded.isLive_of_mem (hf : Founded f) {e : ExprId} (he : e ∈ f.liveExprs) :
    f.isLive e = true := by
  obtain ⟨w, hproper, heq, -⟩ := hf.exists_walk
  rw [heq, List.mem_reverse] at he
  exact hproper.live e ((hproper.entered e).2 (.inl he))

/-- The definition of an output is live. -/
theorem Founded.definition_mem_liveExprs (hf : Founded f) {v : ValueId} {d : ExprId}
    (hv : v ∈ f.outputs) (hd : f.definition v = some d) : d ∈ f.liveExprs := by
  obtain ⟨w, -, heq, hall⟩ := hf.exists_walk
  rw [heq, List.mem_reverse]
  exact hall v hv d hd

/-- What the walk enters is in every set that holds the definitions of the outputs and, with an
expression, what computes its operands. -/
theorem of_mem_liveExprs {P : ExprId → Prop}
    (houtputs : ∀ v ∈ f.outputs, ∀ d, f.definition v = some d → P d)
    (hfed : ∀ d e, P e → f.Feeds d e → P d) {e : ExprId} (he : e ∈ f.liveExprs) : P e := by
  have hfold : ∀ (go : Walk → ExprId → Walk), (∀ w d, P d → (∀ e ∈ w.left, P e) →
      ∀ e ∈ (go w d).left, P e) → ∀ (vs : List ValueId),
      (∀ v ∈ vs, ∀ d, f.definition v = some d → P d) → ∀ w : Walk, (∀ e ∈ w.left, P e) →
        ∀ e ∈ (vs.foldl (fun w v => match f.definition v with
          | some d => go w d
          | none => w) w).left, P e := by
    intro go hgo vs
    induction vs with
    | nil => exact fun _ w hw => hw
    | cons v vs ih =>
        intro hvs w hw
        refine ih (fun u hu => hvs u (List.mem_cons_of_mem v hu)) _ ?_
        dsimp only
        cases hdef : f.definition v with
        | none => exact hw
        | some d => exact hgo w d (hvs v List.mem_cons_self d hdef) hw
  have henter : ∀ (fuel : Nat) (w : Walk) (d : ExprId), P d → (∀ e ∈ w.left, P e) →
      ∀ e ∈ (f.enter fuel w d).left, P e := by
    intro fuel
    induction fuel with
    | zero => exact fun w d _ hw => hw
    | succ fuel ih =>
        intro w d hd hw
        unfold enter
        split
        · exact hw
        · intro e he
          rcases List.mem_cons.1 he with rfl | he
          · exact hd
          · exact hfold _ ih _ (fun v hv c hc => hfed c d hd ⟨v, hv, hc⟩)
              { w with entered := d :: w.entered } hw e he
  unfold liveExprs at he
  exact hfold _ (henter _) _ houtputs _ (by simp) e (List.mem_reverse.1 he)

/-- Every live expression computes something. -/
theorem exists_definition_of_mem_liveExprs {e : ExprId} (he : e ∈ f.liveExprs) :
    ∃ v, f.definition v = some e :=
  of_mem_liveExprs (P := fun e => ∃ v, f.definition v = some e) (fun v _ _ hd => ⟨v, hd⟩)
    (fun _ _ _ ⟨v, _, hd⟩ => ⟨v, hd⟩) he

/-- The expressions over tensors are the needed ones that compute tensors. -/
theorem mem_tensorExprs {e : ExprId} :
    e ∈ f.tensorExprs ↔ e ∈ f.liveExprs ∧ ∃ v ∈ (f.expr e).outputs, f.isTensor v = true := by
  unfold tensorExprs
  rw [List.mem_filter, List.any_eq_true]

/-- No expression over tensors comes twice. -/
theorem Founded.tensorExprs_nodup (hf : Founded f) : f.tensorExprs.Nodup :=
  (hf.liveExprs_inOrder).2.filter _

/-- The definition of a tensor is among the tensor expressions if it is live. -/
theorem Founded.definition_mem_tensorExprs (hf : Founded f) {v : ValueId} {d : ExprId}
    (hv : f.isTensor v = true) (hd : f.definition v = some d) (hlive : d ∈ f.liveExprs) :
    d ∈ f.tensorExprs := by
  obtain ⟨x, hx, hmem⟩ := hf.defined v d hd
  refine mem_tensorExprs.2 ⟨hlive, v, ?_, hv⟩
  rw [expr, hx]
  exact hmem

/-- The tensor expressions are listed in order. -/
theorem Founded.tensorExprs_inOrder (hf : Founded f) {pre post : List ExprId}
    {e : ExprId} (heq : f.tensorExprs = pre ++ e :: post) {v : ValueId} {d : ExprId}
    (hv : v ∈ (f.expr e).inputs) (ht : f.isTensor v = true) (hd : f.definition v = some d) :
    d ∈ pre := by
  obtain ⟨horder, hnodup⟩ := hf.liveExprs_inOrder
  obtain ⟨l₁, l₂, hl, hpre, hrest⟩ := List.filter_eq_append_iff.1 heq
  obtain ⟨m₁, m₂, rfl, hm₁, he, hpost⟩ := List.filter_eq_cons_iff.1 hrest
  have hl' : f.liveExprs = (l₁ ++ m₁) ++ e :: m₂ := by
    rw [hl, List.append_assoc]
  have hmem := horder _ e _ hl' d ⟨v, hv, hd⟩
  have hlive : d ∈ f.liveExprs := by
    rw [hl']
    exact List.mem_append_left _ hmem
  obtain ⟨-, u, hu, hut⟩ := mem_tensorExprs.1 (hf.definition_mem_tensorExprs ht hd hlive)
  have htensors : (f.expr d).outputs.any f.isTensor = true := List.any_eq_true.2 ⟨u, hu, hut⟩
  rcases List.mem_append.1 hmem with hmem | hmem
  · rw [← hpre]
    exact List.mem_filter.2 ⟨hmem, htensors⟩
  · exact absurd htensors (hm₁ d hmem)

/-- The tensors that take part are the inputs and what live expressions read and compute. -/
theorem mem_allTensors {v : ValueId} : v ∈ f.allTensors ↔ (v ∈ f.inputs ∨ ∃ e ∈ f.liveExprs,
    v ∈ (f.expr e).inputs ∨ v ∈ (f.expr e).outputs) ∧ f.isTensor v = true := by
  simp only [allTensors, mem_foldl_addNew, List.not_mem_nil, false_or, List.mem_filter,
    List.mem_append, List.mem_flatMap]

/-- The producers of a tensor are the tensors that its definition reads. -/
theorem mem_producers {u v : ValueId} : u ∈ f.producers v ↔
    ∃ x, f.definingExpr? v = some x ∧ u ∈ x.inputs ∧ f.isTensor u = true := by
  unfold producers
  cases f.definingExpr? v with
  | none => simp
  | some x => simp [mem_foldl_addNew]

/-- The siblings of a tensor are the other tensors that its definition computes. -/
theorem mem_siblings {u v : ValueId} : u ∈ f.siblings v ↔
    ∃ x, f.definingExpr? v = some x ∧ u ∈ x.outputs ∧ u ≠ v ∧ f.isTensor u = true := by
  unfold siblings
  cases f.definingExpr? v with
  | none => simp
  | some x => simp

/-! ## The same flow -/

namespace SameFlow

variable {f' : Fusion}

/-- The same flow has the same expressions. -/
theorem expr (h : SameFlow f f') (e : ExprId) : f'.expr e = f.expr e := by
  unfold Fusion.expr
  rw [h.expr?]

/-- The same flow is walked alike. -/
theorem enter (h : SameFlow f f') (fuel : Nat) : f'.enter fuel = f.enter fuel := by
  induction fuel with
  | zero => rfl
  | succ fuel ih =>
      funext w e
      unfold Fusion.enter
      rw [h.expr, ih, funext h.definition]

/-- Which expressions are live depends on what computes what only. -/
theorem liveExprs (h : SameFlow f f') : f'.liveExprs = f.liveExprs := by
  unfold Fusion.liveExprs
  rw [h.outputs, h.exprs, h.enter, funext h.definition]

/-- The same flow has the same expressions over tensors. -/
theorem tensorExprs (h : SameFlow f f') (ht : ∀ v, f'.isTensor v = f.isTensor v) :
    f'.tensorExprs = f.tensorExprs := by
  unfold Fusion.tensorExprs
  rw [h.liveExprs, funext h.expr, funext ht]

/-- The same flow has the same tensors. -/
theorem allTensors (h : SameFlow f f') (ht : ∀ v, f'.isTensor v = f.isTensor v) :
    f'.allTensors = f.allTensors := by
  unfold Fusion.allTensors
  rw [h.liveExprs, h.inputs, funext h.expr, funext ht]

end SameFlow

end Fusion
end FusionCompiler
