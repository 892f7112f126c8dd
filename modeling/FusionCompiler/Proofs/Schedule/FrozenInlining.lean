import FusionCompiler.Proofs.Schedule.FrozenReplays

/-!
# Frozen leaves under inlining

Inlining replays tensors and raises their positions to numbers of leaves that
the replays have found.  A position found for a tensor stays within its leaves,
since later replays leave its frozen leaves where they are.  The consumer that a
call starts from has no frozen leaves yet; but no tensor of the chain is
computed together with it, so its leaves stay as they are until its position is
raised.

Main results:

- Theorem `Fusion.rank_le_of_mem_ancestors`: what a value is computed from ranks
  no higher than an operand of its definition.
- Theorem `Schedule.computeAt_freezes`: inlining freezes what is frozen.
- Theorem `Schedule.propagateTransforms_freezes`: so does spreading a schedule.
-/

namespace FusionCompiler

namespace Fusion

variable {f f' f₁ f₂ : Fusion}

/-! ## Ancestors -/

/-- What holds of given values and passes to operands holds of all ancestors. -/
theorem of_mem_collectAncestors {P : ValueId → Prop}
    (hclosed : ∀ w x, P w → f.definingExpr? w = some x → ∀ u ∈ x.inputs, P u) {fuel : Nat}
    {seen : Std.HashSet ValueId} {rest : List ValueId} (hseen : ∀ w, w ∈ seen → P w)
    (hrest : ∀ w ∈ rest, P w) {w : ValueId} (hw : w ∈ f.collectAncestors fuel seen rest) :
    P w := by
  induction fuel generalizing seen rest with
  | zero => exact hseen w hw
  | succ fuel ih =>
      cases rest with
      | nil => exact hseen w hw
      | cons v rest =>
          have hv := hrest v List.mem_cons_self
          have htail : ∀ u ∈ rest, P u := fun u hu => hrest u (List.mem_cons_of_mem v hu)
          unfold collectAncestors at hw
          split at hw
          · exact ih hseen htail hw
          · refine ih (fun u hu => ?_) (fun u hu => ?_) hw
            · rcases Std.HashSet.mem_insert.1 hu with heq | hu
              · exact eq_of_beq heq ▸ hv
              · exact hseen u hu
            · rcases List.mem_append.1 hu with hu | hu
              · cases hdef : f.definingExpr? v with
                | none =>
                    rw [hdef] at hu
                    cases hu
                | some x =>
                    rw [hdef] at hu
                    exact hclosed v x hv hdef u hu
              · exact htail u hu

/-- What a value is computed from ranks no higher than an operand of its definition. -/
theorem rank_le_of_mem_ancestors {rank : ValueId → Nat} (hf : Sound f) (hrank : f.Ranked rank)
    {v c : ValueId} (h : v ∈ f.ancestors c) :
    v = c ∨ ∃ x u, f.definingExpr? c = some x ∧ u ∈ x.inputs ∧ rank v ≤ rank u := by
  have hlt : ∀ w x, f.definingExpr? w = some x → ∀ u ∈ x.inputs, rank u < rank w := by
    intro w x hx u hu
    obtain ⟨e, he, rfl⟩ := Option.map_eq_some_iff.1 hx
    obtain ⟨y, hy, hout⟩ := hf.defined w e he
    rw [Fusion.expr, hy] at hu
    exact hrank e y hy u hu w hout
  refine of_mem_collectAncestors (P := fun w =>
      w = c ∨ ∃ x u, f.definingExpr? c = some x ∧ u ∈ x.inputs ∧ rank w ≤ rank u)
    (fun w x hw hx u hu => ?_) (fun w hw => ?_) (fun w hw => ?_) h
  · rcases hw with rfl | ⟨y, o, hy, ho, hle⟩
    · exact .inr ⟨x, u, hx, hu, Nat.le_refl _⟩
    · exact .inr ⟨y, o, hy, ho, Nat.le_trans (Nat.le_of_lt (hlt w x hx u hu)) hle⟩
  · exact absurd hw Std.HashSet.not_mem_empty
  · exact .inl (List.mem_singleton.1 hw)

/-- No value is computed together with what it is computed from. -/
theorem Regular.not_mem_siblings_of_mem_ancestors (hf : Regular f) {v c : ValueId}
    (h : v ∈ f.ancestors c) (hne : v ≠ c) : c ∉ f.siblings v := by
  intro hmem
  obtain ⟨rank, hrank⟩ := hf.wired.ranked
  obtain heq | ⟨x, u, hx, hu, hle⟩ := rank_le_of_mem_ancestors hf.sound hrank h
  · exact hne heq
  · obtain ⟨y, hy, hout, -, -⟩ := mem_siblings.1 hmem
    have hc := hf.definingExpr?_of_mem hy hout
    cases hx.symm.trans hc
    obtain ⟨e, he, rfl⟩ := Option.map_eq_some_iff.1 hy
    obtain ⟨y, hy', hv⟩ := hf.sound.defined v e he
    rw [Fusion.expr, hy'] at hu
    exact absurd (hrank e y hy' u hu v hv) (Nat.not_lt.2 hle)

end Fusion

open Fusion

namespace Schedule

variable {f f' f₁ : Fusion} {v : ValueId} {pos : Nat}

/-! ## Raising positions -/

/-- A change of a view that raises a position and keeps the leaves. -/
structure Raises (g : TensorView → TensorView) (pos : Nat) : Prop where
  domain : ∀ x, (g x).domain = x.domain
  computeAt : ∀ x, x.computeAt ≤ (g x).computeAt
  maxProducer : ∀ x, x.maxProducer ≤ (g x).maxProducer
  fixedPosition : ∀ x, (g x).fixedPosition = Max.max x.fixedPosition pos

/-- Raising the position of a producer. -/
theorem raiseComputeAt_raises (pos : Nat) : Raises (·.raiseComputeAt pos) pos := by
  refine ⟨fun _ => rfl, fun x => Nat.le_max_left _ _, fun x => Nat.le_refl _, fun x => ?_⟩
  simp only [TensorView.fixedPosition, TensorView.raiseComputeAt]
  omega

/-- Raising the position of a consumer. -/
theorem raiseMaxProducer_raises (pos : Nat) : Raises (·.raiseMaxProducer pos) pos := by
  refine ⟨fun _ => rfl, fun x => Nat.le_refl _, fun x => Nat.le_max_left _ _, fun x => ?_⟩
  simp only [TensorView.fixedPosition, TensorView.raiseMaxProducer]
  omega

/-- Raising a position to a number of leaves. -/
theorem updateView_rearranges {g : TensorView → TensorView} {u : Unit} (hf : Regular f)
    (hg : Raises g pos) (hv : f.isTensor v = true) (hpos : pos ≤ (f.view v).ndims)
    (h : Edit.Gives (updateView v g) f u f') :
    Rearranges v f f' ∧ (∀ w, (f'.view w).ndims = (f.view w).ndims) ∧
      pos ≤ (f'.view v).fixedPosition := by
  obtain rfl := Edit.gives_modify.1 h
  have hdomain := hg.domain (f.view v)
  have hfixed := hg.fixedPosition (f.view v)
  refine ⟨.modify_sync (fun _ => rfl) (fun _ => rfl) (fun _ _ => rfl) (fun _ _ => rfl) hv ?_,
    fun w => ?_, ?_⟩
  · refine (Freezes.refl hf).modify_sync hv (fun a ha => ?_) ?_ ?_
    · rw [hdomain] at ha
      exact hf.sound.domains v a ha
    · exact .ofLeaf (hg.computeAt _) (hg.maxProducer _) (congrArg TensorDomain.leaf hdomain)
    · rw [TensorView.ndims, hdomain, hfixed]
      exact Nat.max_le.2 ⟨hf.within v, hpos⟩
  · rw [view_modify_sync, if_pos hv]
    split
    case isTrue hw =>
        have hold : f.view w = f.view v := by
          rcases hw with rfl | hw
          · rfl
          · exact hf.together v hv w hw
        rw [hold, TensorView.ndims, hdomain, TensorView.ndims]
    case isFalse => rfl
  · rw [view_modify_sync, if_pos (.inl rfl), if_pos hv, hfixed]
    exact Nat.le_max_right _ _

/-! ## Replaying along an edge -/

/-- Producers are tensors of tensors. -/
theorem isTensor_of_mem_producers (hf : Sound f) {u v : ValueId} (h : u ∈ f.producers v) :
    f.isTensor u = true ∧ f.isTensor v = true := by
  obtain ⟨x, hx, hmem, ht⟩ := mem_producers.1 h
  obtain ⟨e, he, rfl⟩ := Option.map_eq_some_iff.1 hx
  obtain ⟨y, hy, hout⟩ := hf.defined v e he
  rw [Fusion.expr, hy] at hmem
  exact ⟨ht, (hf.exprs e y hy).isTensor_outputs (.inl hmem) ht v hout⟩

/-- Consumers are tensors. -/
theorem isTensor_of_mem_consumers {u v : ValueId} (h : u ∈ f.consumers v) :
    f.isTensor u = true := by
  unfold consumers at h
  simp only [mem_foldl_addNew, List.not_mem_nil, false_or] at h
  exact (List.mem_filter.1 h).2

section Edges

variable {roots : Option RootMap} {producer consumer : ValueId} {mode : ReplayMode} {n : Nat}

/-- A replay from consumer to producer rearranges the producer. -/
theorem replayOntoProducer_rearranges (hf : Regular f)
    (h : (replayOntoProducer replay roots producer consumer pos mode).Returns f n f') :
    Rearranges producer f f' ∧ n ≤ (f'.view producer).ndims := by
  obtain ⟨hmem, h⟩ := returns_replayOntoProducer.1 h
  refine replay_rearranges hf (isTensor_of_mem_producers hf.sound hmem).1 (fun q hq => ?_) h
  obtain ⟨p, hp, rfl⟩ := List.mem_map.1 hq
  exact (hasAxis_seedPairs hf.sound hp).1

/-- A replay from consumer to producer freezes what is frozen, whether it returns or fails. -/
theorem replayOntoProducer_freezes (hf : Regular f)
    (h : (replayOntoProducer replay roots producer consumer pos mode).Leaves f f') :
    Freezes f f' := by
  obtain ⟨n, h⟩ | h := EditE.leaves_iff.1 h
  · exact (replayOntoProducer_rearranges hf h).1.toFreezes
  · unfold replayOntoProducer at h
    simp only [EditE.fails_bind, EditE.fails_get, EditE.returns_get, EditE.fails_ensure,
      EditE.returns_ensure, false_or] at h
    obtain ⟨f₀, f₁, ⟨rfl, rfl⟩, ⟨-, rfl⟩ | ⟨_, f₁, ⟨-, rfl⟩, h⟩⟩ := h
    · exact .refl hf
    · refine fails_replay hf (fun q hq => ?_) h
      obtain ⟨p, hp, rfl⟩ := List.mem_map.1 hq
      exact (hasAxis_seedPairs hf.sound hp).1

/-- A replay from producer to consumer rearranges the consumer. -/
theorem replayOntoConsumer_rearranges (hf : Regular f)
    (h : (replayOntoConsumer replay roots consumer producer pos mode).Returns f n f') :
    Rearranges consumer f f' ∧ n ≤ (f'.view consumer).ndims := by
  obtain ⟨-, hmem, h⟩ := returns_replayOntoConsumer.1 h
  exact replay_rearranges hf (isTensor_of_mem_producers hf.sound hmem).2
    (fun q hq => (hasAxis_seedPairs hf.sound hq).2) h

/-- A replay from producer to consumer freezes what is frozen, whether it returns or fails. -/
theorem replayOntoConsumer_freezes (hf : Regular f)
    (h : (replayOntoConsumer replay roots consumer producer pos mode).Leaves f f') :
    Freezes f f' := by
  obtain ⟨n, h⟩ | h := EditE.leaves_iff.1 h
  · exact (replayOntoConsumer_rearranges hf h).1.toFreezes
  · have hgoes : ∀ {f₁ : Fusion}, f₁ = f → EditE.Fails (do
        EditE.ensure ((f.producers consumer).contains producer)
          (ScheduleError.notAProducer producer consumer)
        replay producer consumer (seedPairs f roots producer consumer) pos mode
          (.unmappableAxis producer consumer) : Schedule Nat) f₁ f' → Freezes f f' := by
      rintro _ rfl h
      simp only [EditE.fails_bind, EditE.fails_ensure, EditE.returns_ensure] at h
      obtain ⟨-, rfl⟩ | ⟨_, f₁, ⟨-, rfl⟩, h⟩ := h
      · exact .refl hf
      · exact fails_replay hf (fun q hq => (hasAxis_seedPairs hf.sound hq).2) h
    unfold replayOntoConsumer at h
    obtain h | ⟨f₀, f₁, hget, h⟩ := EditE.fails_bind.1 h
    · exact absurd h EditE.fails_get
    obtain ⟨rfl, rfl⟩ := EditE.returns_get.1 hget
    dsimp only at h
    split at h
    · split at h
      · obtain rfl := EditE.Atomic.throw_bind _ _ f f' h
        exact .refl hf
      · exact hgoes rfl h
    · exact hgoes rfl h

end Edges

/-! ## Inlining -/

/-- A position found for a tensor lies within its fixed leaves, or it is the one that a call starts
from. -/
def Placed (f : Fusion) (consumer : ValueId) (q : ValueId × Nat) : Prop :=
  q.2 ≤ (f.view q.1).fixedPosition ∨ q.1 = consumer ∧ q.2 ≤ (f.view consumer).ndims

/-- A position that was placed lies within the leaves. -/
theorem Placed.le_ndims {consumer : ValueId} {q : ValueId × Nat} (h : Placed f consumer q)
    (hf : Regular f) : q.2 ≤ (f.view q.1).ndims := by
  rcases h with h | ⟨heq, h⟩
  · exact Nat.le_trans h (hf.within q.1)
  · rw [heq]
    exact h

/-- A position stays placed while the consumer keeps its number of leaves. -/
theorem Placed.mono {consumer : ValueId} {q : ValueId × Nat} (h : Placed f consumer q)
    (hfreezes : Freezes f f') (hdims : (f'.view consumer).ndims = (f.view consumer).ndims) :
    Placed f' consumer q := by
  rcases h with h | ⟨heq, h⟩
  · exact .inl (Nat.le_trans h (hfreezes.continues q.1).fixedPosition_le)
  · exact .inr ⟨heq, hdims ▸ h⟩

/-- Walking back to producers freezes what is frozen. -/
theorem backward_freezes {roots : RootMap} {members vs : List ValueId} {consumer : ValueId}
    {positions : List (ValueId × Nat)} (hf : Regular f)
    (hvs : ∀ v ∈ vs, f.isTensor v = true ∧ ¬ (consumer = v ∨ consumer ∈ f.siblings v))
    (hpositions : ∀ q ∈ positions, Placed f consumer q)
    (h : (backward replay roots members vs positions).Leaves f f') : Freezes f f' := by
  induction vs generalizing f positions with
  | nil =>
      obtain rfl := EditE.Reads.pure _ f f' h
      exact .refl hf
  | cons v vs ih =>
      have hrest := fun w hw => hvs w (List.mem_cons_of_mem v hw)
      unfold backward at h
      obtain rfl | ⟨f₀, hget, h⟩ := EditE.Reads.get.leaves_bind h
      · exact .refl hf
      obtain ⟨rfl, -⟩ := EditE.returns_get.1 hget
      dsimp only at h
      split at h
      case h_1 => exact ih hf hrest hpositions h
      case h_2 c pos htarget =>
          obtain ⟨hv, hfree⟩ := hvs v List.mem_cons_self
          have hc : c ∈ f.consumers v ∧ (c, pos) ∈ positions := by
            split at htarget
            · cases htarget
            · simp only [Option.bind_eq_bind, Option.bind_eq_some_iff, Option.pure_def,
                Option.some.injEq, Prod.mk.injEq, Option.map_eq_some_iff] at htarget
              obtain ⟨d, hd, p, ⟨q, hq, rfl⟩, rfl, rfl⟩ := htarget
              have heq : q.1 = d := by simpa using List.find?_some hq
              refine ⟨List.mem_of_find?_eq_some hd, ?_⟩
              rw [← heq]
              exact List.mem_of_find?_eq_some hq
          obtain h | ⟨own, f₁, hreplay, h⟩ := EditE.leaves_bind.1 h
          · exact replayOntoProducer_freezes hf h.leaves
          obtain ⟨h₁, hown⟩ := replayOntoProducer_rearranges hf hreplay
          obtain h | ⟨_, f₂, hraise, h⟩ := EditE.leaves_bind.1 h
          · exact absurd h EditE.fails_lift
          obtain ⟨h₂, hdims₂, hfixed⟩ := updateView_rearranges h₁.regular (raiseComputeAt_raises own)
            ((h₁.isTensor v).trans hv) hown (EditE.returns_lift.1 hraise)
          have hdims : (f₂.view consumer).ndims = (f.view consumer).ndims := by
            rw [hdims₂, h₁.others consumer hfree]
          have h₁₂ := h₁.toFreezes.trans h₂.toFreezes
          have hplaced : ∀ q ∈ positions, Placed f₂ consumer q :=
            fun q hq => (hpositions q hq).mono h₁₂ hdims
          obtain h | ⟨_, f₃, hraise', h⟩ := EditE.leaves_bind.1 h
          · exact absurd h EditE.fails_lift
          have hct : f₂.isTensor c = true := by
            rw [h₂.isTensor, h₁.isTensor]
            exact isTensor_of_mem_consumers hc.1
          obtain ⟨h₃, hdims₃, -⟩ := updateView_rearranges h₂.regular (raiseMaxProducer_raises pos) hct
            ((hplaced _ hc.2).le_ndims h₂.regular) (EditE.returns_lift.1 hraise')
          have hall := h₁₂.trans h₃.toFreezes
          refine hall.trans (ih hall.regular (fun w hw => ?_) (fun q hq => ?_) h)
          · obtain ⟨hwt, hwfree⟩ := hrest w hw
            have hhas := hasValue_of_isTensor hwt
            rw [h₃.isTensor, h₂.isTensor, h₁.isTensor, h₃.siblings (h₁₂.ext.hasValue hhas),
              h₂.siblings (h₁.ext.hasValue hhas), h₁.siblings hhas]
            exact ⟨hwt, hwfree⟩
          · rcases List.mem_cons.1 hq with rfl | hq
            · exact .inl (Nat.le_trans hfixed (h₃.continues v).fixedPosition_le)
            · exact (hplaced q hq).mono h₃.toFreezes (hdims₃ consumer)

/-- The shared position is among the fixed ones. -/
theorem sharedPosition_le (f : Fusion) (v : ValueId) (positioned : Bool) :
    sharedPosition f v positioned ≤ (f.view v).fixedPosition := by
  have hpos : (if positioned then (f.view v).computeAt else (f.view v).maxProducer) ≤
      (f.view v).fixedPosition := by
    unfold TensorView.fixedPosition
    split <;> omega
  unfold sharedPosition
  dsimp only
  split
  · exact Nat.le_trans (Nat.min_le_left _ _) hpos
  · exact hpos

/-- Walking to the uses of a tensor freezes what is frozen. -/
theorem forwardUses_freezes {g : ForwardGoal} {v : ValueId} {vs : List ValueId} (hf : Regular f)
    (hv : f.isTensor v = true) (h : (forwardUses replay g v vs).Leaves f f') : Freezes f f' := by
  induction vs generalizing f with
  | nil =>
      obtain rfl := EditE.Reads.pure _ f f' h
      exact .refl hf
  | cons next vs ih =>
      unfold forwardUses at h
      obtain rfl | ⟨f₀, hget, h⟩ := EditE.Reads.get.leaves_bind h
      · exact .refl hf
      obtain ⟨rfl, -⟩ := EditE.returns_get.1 hget
      split at h
      · exact ih hf hv h
      dsimp only at h
      have hrest : ∀ {f₁ : Fusion}, Freezes f f₁ → EditE.Leaves (do
          let nextPos ← replayOntoConsumer replay (some g.roots) next v
            (sharedPosition f v (g.positioned.contains v)) .computeAt
          updateView next (·.raiseMaxProducer nextPos)
          return next :: (← forwardUses replay g v vs) : Schedule (List ValueId)) f₁ f' →
          Freezes f f' := by
        intro f₁ h₁ h
        obtain h | ⟨pos, f₂, hreplay, h⟩ := EditE.leaves_bind.1 h
        · exact h₁.trans (replayOntoConsumer_freezes h₁.regular h.leaves)
        obtain ⟨h₂, hpos⟩ := replayOntoConsumer_rearranges h₁.regular hreplay
        have hmem := (returns_replayOntoConsumer.1 hreplay).2.1
        have hnext := (isTensor_of_mem_producers h₁.regular.sound hmem).2
        obtain h | ⟨_, f₃, hraise, h⟩ := EditE.leaves_bind.1 h
        · exact absurd h EditE.fails_lift
        obtain ⟨h₃, -, -⟩ := updateView_rearranges h₂.regular (raiseMaxProducer_raises pos)
          ((h₂.isTensor next).trans hnext) hpos (EditE.returns_lift.1 hraise)
        have hall := (h₁.trans h₂.toFreezes).trans h₃.toFreezes
        have hv₃ : f₃.isTensor v = true :=
          (hall.ext.isTensor v (hasValue_of_isTensor hv)).trans hv
        obtain h | ⟨reached, f₄, huses, h⟩ := EditE.leaves_bind.1 h
        · exact hall.trans (ih hall.regular hv₃ h.leaves)
        · obtain rfl := EditE.Reads.pure _ f₄ f' h
          exact hall.trans (ih hall.regular hv₃ huses.leaves)
      split at h
      · obtain h | ⟨_, f₁, hraise, h⟩ := EditE.leaves_bind.1 h
        · exact absurd h EditE.fails_lift
        obtain ⟨h₁, -, -⟩ := updateView_rearranges hf (raiseComputeAt_raises _) hv
          (Nat.le_trans (sharedPosition_le f v _) (hf.within v)) (EditE.returns_lift.1 hraise)
        exact hrest h₁.toFreezes h
      · exact hrest (.refl hf) h

/-- Walking forward to consumers freezes what is frozen. -/
theorem forward_freezes {g : ForwardGoal} {vs active : List ValueId} (hf : Regular f)
    (hvs : ∀ v ∈ vs, f.isTensor v = true) (h : (forward replay g vs active).Leaves f f') :
    Freezes f f' := by
  induction vs generalizing f active with
  | nil =>
      obtain rfl := EditE.Reads.pure _ f f' h
      exact .refl hf
  | cons v vs ih =>
      have hv := hvs v List.mem_cons_self
      have hrest := fun w hw => hvs w (List.mem_cons_of_mem v hw)
      unfold forward at h
      split at h
      · exact ih hf hrest h
      obtain rfl | ⟨f₀, hget, h⟩ := EditE.Reads.get.leaves_bind h
      · exact .refl hf
      obtain ⟨rfl, -⟩ := EditE.returns_get.1 hget
      obtain h | ⟨reached, f₁, huses, h⟩ := EditE.leaves_bind.1 h
      · exact forwardUses_freezes hf hv h.leaves
      · have h₁ := forwardUses_freezes hf hv huses.leaves
        refine h₁.trans (ih h₁.regular (fun w hw => ?_) h)
        have hwt := hrest w hw
        rw [h₁.ext.isTensor w (hasValue_of_isTensor hwt)]
        exact hwt

/-- A position that is accepted lies within the leaves. -/
theorem normalizePosition_le {tensor : ValueId} {pos : Int} {ndims p : Nat}
    (h : normalizePosition tensor pos ndims = .ok p) : p ≤ ndims := by
  unfold normalizePosition at h
  dsimp only at h
  generalize (if pos < 0 then (ndims : Int) + 1 + pos else pos) = resolved at h
  split at h
  case isTrue hle =>
      cases h
      omega
  case isFalse => cases h

/-- Inlining freezes what is frozen. -/
theorem computeAt_freezes {producer consumer : ValueId} {pos : Int} (hf : Regular f)
    (h : (computeAt producer consumer pos).Leaves f f') : Freezes f f' := by
  unfold computeAt computeAtWith at h
  obtain rfl | ⟨_, -, h⟩ := (Build.ensureTensor_reads producer).mapError.discard.leaves_bind h
  · exact .refl hf
  obtain rfl | ⟨x, hx, h⟩ := (Build.ensureTensor_reads consumer).mapError.leaves_bind h
  · exact .refl hf
  obtain ⟨hconsumer, rfl, -⟩ := returns_ensureView.1 hx
  obtain rfl | ⟨p, hp, h⟩ := (EditE.Reads.ofExcept _).leaves_bind h
  · exact .refl hf
  have hle := normalizePosition_le (EditE.returns_ofExcept.1 hp).1
  obtain rfl | ⟨f₀, hget, h⟩ := EditE.Reads.get.leaves_bind h
  · exact .refl hf
  obtain ⟨rfl, -⟩ := EditE.returns_get.1 hget
  obtain rfl | ⟨_, -, h⟩ := (EditE.Reads.ensure _ _).leaves_bind h
  · exact .refl hf
  dsimp only at h
  have hmembers : ∀ v ∈ (chain f producer consumer).reverse,
      f.isTensor v = true ∧ ¬ (consumer = v ∨ consumer ∈ f.siblings v) := by
    intro v hv
    obtain ⟨hall, hcond⟩ := List.mem_filter.1 (List.mem_reverse.1 hv)
    simp only [Bool.and_eq_true, bne_iff_ne, ne_eq] at hcond
    refine ⟨(mem_allTensors.1 hall).2, ?_⟩
    rintro (heq | hmem)
    · exact hcond.1.1 heq.symm
    · exact hf.not_mem_siblings_of_mem_ancestors (Std.HashSet.mem_iff_contains.2 hcond.1.2)
        hcond.1.1 hmem
  have hplaced : ∀ q ∈ [(consumer, p)], Placed f consumer q := by
    intro q hq
    rw [List.mem_singleton.1 hq]
    exact .inr ⟨rfl, hle⟩
  obtain h | ⟨_, f₁, hbackward, h⟩ := EditE.leaves_bind.1 h
  · exact backward_freezes hf hmembers hplaced h.leaves
  have h₁ := backward_freezes hf hmembers hplaced hbackward.leaves
  obtain rfl | ⟨f₀, hget, h⟩ := EditE.Reads.get.leaves_bind h
  · exact h₁
  obtain ⟨rfl, -⟩ := EditE.returns_get.1 hget
  exact h₁.trans (forward_freezes h₁.regular (fun v hv => (mem_allTensors.1 hv).2) h)

/-! ## Spreading -/

/-- Spreading loops freezes what is frozen. -/
theorem spread_freezes {fuel : Nat} {reached : List Reached} (hf : Regular f)
    (h : (spread replay fuel reached).Leaves f f') : Freezes f f' := by
  induction fuel generalizing f reached with
  | zero =>
      obtain rfl := EditE.Reads.pure _ f f' h
      exact .refl hf
  | succ fuel ih =>
      unfold spread at h
      obtain rfl | ⟨f₀, hget, h⟩ := EditE.Reads.get.leaves_bind h
      · exact .refl hf
      obtain ⟨rfl, -⟩ := EditE.returns_get.1 hget
      dsimp only at h
      split at h
      · obtain rfl := EditE.Reads.pure _ f f' h
        exact .refl hf
      case h_2 s _ =>
          have hrest : ∀ {f₁ : Fusion}, Freezes f f₁ → EditE.Leaves (do
              let new := (← get).siblings s.next.tensor ++ [s.next.tensor]
              spread replay fuel (reached ++ new.map (⟨·, s.carried⟩)) : Schedule Unit) f₁ f' →
              Freezes f f' := by
            intro f₁ h₁ h
            obtain rfl | ⟨f₀, -, h⟩ := EditE.Reads.get.leaves_bind h
            · exact h₁
            · exact h₁.trans (ih h₁.regular h)
          split at h
          · obtain h | ⟨_, f₁, hreplay, h⟩ := EditE.leaves_bind.1 h
            · exact replayOntoProducer_freezes hf (EditE.leaves_discard.1 h.leaves)
            · exact hrest (replayOntoProducer_freezes hf (EditE.leaves_discard.1 hreplay.leaves)) h
          · obtain h | ⟨_, f₁, hreplay, h⟩ := EditE.leaves_bind.1 h
            · exact replayOntoConsumer_freezes hf (EditE.leaves_discard.1 h.leaves)
            · exact hrest (replayOntoConsumer_freezes hf (EditE.leaves_discard.1 hreplay.leaves)) h

/-- Spreading a schedule freezes what is frozen. -/
theorem propagateTransforms_freezes {reference : ValueId} (hf : Regular f)
    (h : (propagateTransforms reference).Leaves f f') : Freezes f f' := by
  unfold propagateTransforms propagateTransformsWith at h
  obtain rfl | ⟨x, -, h⟩ := (Build.ensureTensor_reads reference).mapError.leaves_bind h
  · exact .refl hf
  obtain rfl | ⟨f₀, -, h⟩ := EditE.Reads.get.leaves_bind h
  · exact .refl hf
  exact spread_freezes hf h

end Schedule

end FusionCompiler
