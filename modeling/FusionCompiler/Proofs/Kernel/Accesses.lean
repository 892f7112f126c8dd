import FusionCompiler.Proofs.Kernel.Gathering

/-!
# Accesses of a run

A run of statements whose operations are all serial reads and writes cells for one
thread at a time.  The accesses of a run are listed in order, each with its thread.

Main results:

- Theorems `Kernel.Run.returns_loop` and `Kernel.Run.returns_branch`: what loops and
  conditionals execute.
- Theorem `Kernel.Run.returns_execOp_singleton`: an operation of one thread computes
  its results from what it reads, and then writes them.
-/

namespace FusionCompiler
namespace Kernel

variable {α β : Type} {A : Arithmetic α} {l : Launch} {m m' m₁ m₂ n n' : Machine α}
  {active : List Nat} {t : Nat} {u : Unit} {o : Op}

/-! ## Accesses -/

/-- A thread reads or writes a cell. -/
structure Access where
  thread : Nat
  cell : Cell
  write : Bool
deriving DecidableEq, Repr

/-- Whether storage belongs to one thread. -/
def Place.isPrivate : Place → Bool
  | .register _ _ => true
  | .buffer _ | .shared _ _ => false

/-- No cell of global or shared memory is accessed by two threads of which one writes it.  Cells are
where elements are kept, so elements of tensors that share storage have the same cells. -/
def RaceFree (accesses : List Access) : Prop :=
  ∀ a ∈ accesses, ∀ b ∈ accesses, a.cell.1.isPrivate = false → a.cell = b.cell →
    a.write = true → a.thread = b.thread

instance (accesses : List Access) : Decidable (RaceFree accesses) :=
  inferInstanceAs (Decidable (∀ a ∈ accesses, ∀ b ∈ accesses, _))

namespace Op

/-- The operands that a thread reads for a serial operation.  Of a selection it reads the one that
it chooses. -/
def read (A : Arithmetic α) (l : Launch) (m : Machine α) (t : Nat) : Op → List Kernel.Operand
  | .unary _ _ x | .broadcast _ x .serial => [x]
  | .binary _ _ a b => [a, b]
  | .select _ cond a b =>
    cond :: match l.value? A m cond t with
      | some c => [if A.isTrue c then a else b]
      | none => []
  | .reduce _ out x _ .serial => [.element out, x]
  | .welford out x .serial => (WelfordInput.held out).operands ++ x.operands
  | .init _ _ | .reduce .. | .welford .. | .broadcast .. => []

/-- What a thread computes in a serial operation, with the elements that it writes. -/
def results? (A : Arithmetic α) (l : Launch) (m : Machine α) (t : Nat) :
    Op → Option (List (Element × α))
  | .unary op out x => (l.value? A m x t).map fun x => [(out, A.unary op x)]
  | .binary op out a b => (l.value? A m a t).bind fun x => (l.value? A m b t).map fun y =>
    [(out, A.binary op x y (!a.dtype.isFloat && !b.dtype.isFloat))]
  | .select out cond a b => (l.value? A m cond t).bind fun c =>
    (l.value? A m (if A.isTrue c then a else b) t).map fun x => [(out, x)]
  | .init out value => some [(out, A.ofConstant value)]
  | .reduce op out x _ .serial => (l.value? A m (.element out) t).bind fun current =>
    (l.value? A m x t).map fun x => [(out, A.binary op current x (!out.dtype.isFloat))]
  | .welford out x .serial => (l.moments? A m (.held out) t).bind fun current =>
    (l.moments? A m x t).map fun y => out.toList.zip (A.combine current y).toList
  | .broadcast out x .serial => (l.value? A m x t).map fun x => [(out, x)]
  | .reduce .. | .welford .. | .broadcast .. => none

/-- The accesses of a thread in a serial operation. -/
def accesses (A : Arithmetic α) (l : Launch) (o : Op) (t : Nat) (m : Machine α) : List Access :=
  ((o.read A l m t).filterMap fun x => (l.operandCell? m.loops x t).map (⟨t, ·, false⟩)) ++
    o.outputs.filterMap fun e => (l.cell? m.loops e t).map (⟨t, ·, true⟩)

end Op

/-- The threads in which a condition has a value. -/
def Launch.taking (l : Launch) (loops : List (LoopId × Int)) (cond : Scalar) (b : Bool)
    (active : List Nat) : List Nat :=
  active.filter fun t => l.truth? loops cond t == some b

/-- The number of iterations of a loop, as the first active thread sees it. -/
def Launch.count? (l : Launch) (loops : List (LoopId × Int)) (extent : Scalar) :
    List Nat → Option Nat
  | [] => some 0
  | first :: _ => (extent.evaluate (l.env loops first)).map fun c => c.toInt.toNat

namespace Run

/-- The machine after a step. -/
def after (x : Run α β) (m : Machine α) : Machine α :=
  (x.run.run m).2

/-- The accesses of steps that follow each other. -/
def along (f : β → Run α Unit) (accesses : β → Machine α → List Access) :
    List β → Machine α → List Access
  | [], _ => []
  | b :: bs, m => accesses b m ++ along f accesses bs (after (f b) m)

/-- One iteration of a loop. -/
def iterate (A : Arithmetic α) (l : Launch) (h : LoopHeader) (body : List Stmt) (active : List Nat)
    (i : Nat) : Run α Unit := do
  modify fun m => m.setLoop h.index i
  execAll A l body active

mutual

/-- The accesses of the active threads in a statement. -/
def accesses (A : Arithmetic α) (l : Launch) : Stmt → List Nat → Machine α → List Access
  | .loop h body, active, m =>
    if active.isEmpty then []
    else if h.isLaunch then accessesAll A l body active m
    else
      along (iterate A l h body active)
        (fun i m => accessesAll A l body active (m.setLoop h.index (i : Nat)))
        (List.range ((l.count? m.loops h.extent active).getD 0)) m
  | .branch cond yes no, active, m =>
    accessesAll A l yes (l.taking m.loops cond true active) m ++
      accessesAll A l no (l.taking m.loops cond false active)
        (after (execAll A l yes (l.taking m.loops cond true active)) m)
  | .allocate _, _, _ | .barrier _, _, _ => []
  | .op o, active, m => along (fun t => execOp A l o [t]) (o.accesses A l) active m

/-- The accesses of the active threads in statements. -/
def accessesAll (A : Arithmetic α) (l : Launch) : List Stmt → List Nat → Machine α → List Access
  | [], _, _ => []
  | x :: rest, active, m =>
    accesses A l x active m ++ accessesAll A l rest active (after (exec A l x active) m)

end

/-! ## Statements step by step -/

/-- What a step that returns leaves behind. -/
theorem Returns.after_eq {x : Run α β} {b : β} (h : Returns x m b m') : after x m = m' := by
  unfold after
  rw [h]

/-- A step that succeeds returns what it leaves behind. -/
theorem returns_after {x : Run α Unit} (h : (x.run.run m).1.isOk = true) :
    Returns x m () (after x m) := by
  unfold Returns after
  cases hx : x.run.run m with
  | mk outcome m' =>
      rw [hx] at h
      cases outcome with
      | error e => cases h
      | ok u => rfl

/-- No step. -/
@[simp]
theorem returns_forM_nil {f : β → Run α Unit} : Returns ([].forM f) m u m' ↔ m = m' :=
  returns_pure.trans (and_iff_right rfl)

/-- One step and the others. -/
@[simp]
theorem returns_forM_cons {f : β → Run α Unit} {b : β} {bs : List β} :
    Returns ((b :: bs).forM f) m u m' ↔
      ∃ m₁, Returns (f b) m () m₁ ∧ Returns (bs.forM f) m₁ u m' :=
  returns_bind.trans ⟨fun ⟨_, m₁, h⟩ => ⟨m₁, h⟩, fun ⟨m₁, h⟩ => ⟨(), m₁, h⟩⟩

/-- One iteration runs the body with its own counter. -/
theorem returns_iterate {h : LoopHeader} {body : List Stmt} {i : Nat} :
    Returns (iterate A l h body active i) m u m' ↔
      Returns (execAll A l body active) (m.setLoop h.index i) u m' := by
  unfold iterate
  rw [returns_bind]
  constructor
  · rintro ⟨_, _, h, hbody⟩
    exact returns_modify.1 h ▸ hbody
  · exact fun h => ⟨(), _, returns_modify.2 rfl, h⟩

/-- All active threads agree on the number of iterations. -/
theorem returns_iterations {extent : Scalar} {k : Nat} :
    Returns (iterations l extent active : Run α Nat) m k m' ↔
      l.count? m.loops extent active = some k ∧ m = m' := by
  cases active with
  | nil => simp [iterations, Launch.count?]
  | cons first rest =>
      simp only [iterations, Launch.count?, returns_bind, returns_eval, returns_pure,
        Option.map_eq_some_iff]
      constructor
      · rintro ⟨c, _, ⟨hc, rfl⟩, hk, rfl⟩
        exact ⟨⟨c, hc, hk⟩, rfl⟩
      · rintro ⟨⟨c, hc, hk⟩, rfl⟩
        exact ⟨c, m, ⟨hc, rfl⟩, hk, rfl⟩

/-- A loop that the launch does not imply sets its index for each round and ends it afterwards. -/
theorem returns_loop {h : LoopHeader} {body : List Stmt} (hactive : active ≠ [])
    (hlaunch : h.isLaunch = false) : Returns (exec A l (.loop h body) active) m u m' ↔
      ∃ k m₁, l.count? m.loops h.extent active = some k ∧
        Returns ((List.range k).forM (iterate A l h body active)) m () m₁ ∧
        m₁.endLoop h.index = m' := by
  rw [exec, if_neg (by simpa using hactive), hlaunch, if_neg Bool.false_ne_true, returns_bind]
  simp only [returns_iterations]
  constructor
  · rintro ⟨k, _, ⟨hk, rfl⟩, hrounds⟩
    obtain ⟨_, m₁, hrounds, hend⟩ := returns_bind.1 hrounds
    exact ⟨k, m₁, hk, hrounds, returns_modify.1 hend⟩
  · rintro ⟨k, m₁, hk, hrounds, hend⟩
    exact ⟨k, m, ⟨hk, rfl⟩, returns_bind.2 ⟨(), m₁, hrounds, returns_modify.2 hend⟩⟩

/-- A loop over the launch runs its body once. -/
theorem returns_launchLoop {h : LoopHeader} {body : List Stmt} (hactive : active ≠ [])
    (hlaunch : h.isLaunch = true) : Returns (exec A l (.loop h body) active) m u m' ↔
      Returns (execAll A l body active) m u m' := by
  rw [exec, if_neg (by simpa using hactive), if_pos hlaunch]

/-- A loop over the launch accesses what its body accesses. -/
theorem accesses_launchLoop {h : LoopHeader} {body : List Stmt} (hactive : active ≠ [])
    (hlaunch : h.isLaunch = true) :
    accesses A l (.loop h body) active m = accessesAll A l body active m := by
  rw [accesses, if_neg (by simpa using hactive), if_pos hlaunch]

/-- A loop accesses what its iterations access. -/
theorem accesses_loop {h : LoopHeader} {body : List Stmt} {k : Nat} (hactive : active ≠ [])
    (hlaunch : h.isLaunch = false) (hk : l.count? m.loops h.extent active = some k) :
    accesses A l (.loop h body) active m = along (iterate A l h body active)
      (fun i m => accessesAll A l body active (m.setLoop h.index (i : Nat))) (List.range k) m := by
  rw [accesses, if_neg (by simpa using hactive), hlaunch, if_neg Bool.false_ne_true, hk,
    Option.getD_some]

/-- Each active thread takes the side that its condition says. -/
theorem returns_divide {cond : Scalar} {divided : List (Nat × Bool)} :
    Returns (divide l cond active : Run α (List (Nat × Bool))) m divided m' ↔
      (∀ t ∈ active, ∃ b, l.truth? m.loops cond t = some b) ∧
      (divided = active.map fun t => (t, l.truth? m.loops cond t == some true)) ∧ m = m' := by
  unfold divide
  induction active generalizing divided m m' with
  | nil => simp [eq_comm]
  | cons t active ih =>
      rw [List.mapM_cons]
      simp only [returns_bind, returns_holds, returns_pure, ih, List.forall_mem_cons,
        List.map_cons]
      constructor
      · rintro ⟨_, _, ⟨b, _, ⟨hb, rfl⟩, rfl, rfl⟩, _, _, ⟨hall, rfl, rfl⟩, rfl, rfl⟩
        refine ⟨⟨⟨b, hb⟩, hall⟩, ?_, rfl⟩
        cases b <;> simp [hb]
      · rintro ⟨⟨⟨b, hb⟩, hall⟩, rfl, rfl⟩
        refine ⟨(t, b), m, ⟨b, m, ⟨hb, rfl⟩, rfl, rfl⟩, _, m, ⟨hall, rfl, rfl⟩, ?_, rfl⟩
        cases b <;> simp [hb]

/-- A conditional executes its branches for the threads that take them. -/
theorem returns_branch {cond : Scalar} {yes no : List Stmt} :
    Returns (exec A l (.branch cond yes no) active) m u m' ↔
      (∀ t ∈ active, ∃ b, l.truth? m.loops cond t = some b) ∧
      ∃ m₁, Returns (execAll A l yes (l.taking m.loops cond true active)) m () m₁ ∧
        Returns (execAll A l no (l.taking m.loops cond false active)) m₁ u m' := by
  have htaken : ∀ active : List Nat,
      ((active.map fun t => (t, l.truth? m.loops cond t == some true)).filter (·.2)).map (·.1) =
        l.taking m.loops cond true active := by
    intro active
    rw [List.filter_map, List.map_map]
    exact List.map_id _
  have hleft : ∀ active : List Nat, (∀ t ∈ active, ∃ b, l.truth? m.loops cond t = some b) →
      ((active.map fun t => (t, l.truth? m.loops cond t == some true)).filter (!·.2)).map (·.1) =
        l.taking m.loops cond false active := by
    intro active hall
    rw [List.filter_map, List.map_map]
    refine (List.map_id _).trans (List.filter_congr fun t ht => ?_)
    obtain ⟨b, hb⟩ := hall t ht
    cases b <;> simp [hb]
  rw [exec, returns_bind]
  simp only [returns_divide]
  constructor
  · rintro ⟨_, _, ⟨hall, rfl, rfl⟩, h⟩
    obtain ⟨_, m₁, hyes, hno⟩ := returns_bind.1 h
    rw [htaken] at hyes
    rw [hleft active hall] at hno
    exact ⟨hall, m₁, hyes, hno⟩
  · rintro ⟨hall, m₁, hyes, hno⟩
    refine ⟨_, m, ⟨hall, rfl, rfl⟩, returns_bind.2 ⟨(), m₁, ?_, ?_⟩⟩
    · rwa [htaken]
    · rwa [hleft active hall]

/-- One statement and the others. -/
theorem returns_execAll_cons {x : Stmt} {rest : List Stmt} :
    Returns (execAll A l (x :: rest) active) m u m' ↔
      ∃ m₁, Returns (exec A l x active) m () m₁ ∧ Returns (execAll A l rest active) m₁ u m' := by
  rw [execAll, returns_bind]
  constructor
  · rintro ⟨_, m₁, h⟩
    exact ⟨m₁, h⟩
  · rintro ⟨m₁, h⟩
    exact ⟨(), m₁, h⟩

/-! ## Serial operations -/

/-- Writes results one after the other. -/
def storeAll (A : Arithmetic α) (l : Launch) (t : Nat) (results : List (Element × α)) :
    Run α Unit :=
  results.forM fun r => store A l r.1 t r.2

/-- A serial operation is carried out by one thread after the other. -/
theorem returns_execOp (ho : o.synchronizes = false) :
    Returns (execOp A l o active) m u m' ↔
      Returns (active.forM fun t => execOp A l o [t]) m u m' := by
  have hsteps : ∃ f : Nat → Run α Unit, ∀ active, execOp A l o active = active.forM f := by
    cases o with
    | reduce op out x init how =>
        cases how with
        | serial => exact ⟨_, fun _ => rfl⟩
        | across => cases ho
    | welford out x how =>
        cases how with
        | serial => exact ⟨_, fun _ => rfl⟩
        | across => cases ho
    | broadcast out x how =>
        cases how with
        | serial => exact ⟨_, fun _ => rfl⟩
        | across => cases ho
    | _ => exact ⟨_, fun _ => rfl⟩
  obtain ⟨f, hf⟩ := hsteps
  simp only [hf]
  induction active generalizing m with
  | nil => exact Iff.rfl
  | cons t active ih => simp only [returns_forM_cons, returns_forM_nil, ih, exists_eq_right]

/-- A serial operation of one thread computes its results from what it reads, and then writes
them. -/
theorem returns_execOp_singleton (ho : o.synchronizes = false) :
    Returns (execOp A l o [t]) m u m' ↔
      ∃ results, o.results? A l m t = some results ∧ Returns (storeAll A l t results) m u m' := by
  have hload : ∀ {e : Element} {y : α} {n n' : Machine α},
      Returns (load l e t) n y n' ↔ l.value? A n (.element e) t = some y ∧ n = n' :=
    fun {e y n n'} => returns_operand (x := .element e)
  cases o with
  | unary op out x => simp [execOp, Op.results?, storeAll, returns_operand]
  | binary op out a b =>
      simp [execOp, Op.results?, storeAll, returns_operand, Option.bind_eq_some_iff]
  | select out cond a b =>
      simp [execOp, Op.results?, storeAll, returns_operand, Option.bind_eq_some_iff, and_assoc]
  | init out value => simp [execOp, Op.results?, storeAll]
  | reduce op out x init how =>
      cases how with
      | serial =>
          simp [execOp, Op.results?, storeAll, returns_operand, hload, Option.bind_eq_some_iff]
      | across => cases ho
  | welford out x how =>
      cases how with
      | serial =>
          simp [execOp, Op.results?, storeAll, returns_loadMoments (A := A), returns_welfordInput,
            Option.bind_eq_some_iff, storeMoments, Moments.toList]
      | across => cases ho
  | broadcast out x how =>
      cases how with
      | serial => simp [execOp, Op.results?, storeAll, returns_operand]
      | across => cases ho

end Run

end Kernel
end FusionCompiler
