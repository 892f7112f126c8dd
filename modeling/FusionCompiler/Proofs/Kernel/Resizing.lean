import FusionCompiler.Host.Executor
import FusionCompiler.Proofs.Outcome
import FusionCompiler.Proofs.Schedule.Calls

/-!
# Allocations of other sizes

A run looks at the allocations of a kernel for the memory that a tensor lives in,
for the storage that it reuses, and for the sizes.  Of a size it only needs the
value.  So kernels that differ in nothing but sizes, and whose sizes have the same
values, run alike.

The device source names shared buffers by their offsets and leaves their sizes
out.  Kernels of one source may therefore need buffers of different sizes, and are
not interchangeable.

Main results:

- Theorem `Kernel.Run.execAll_resized`: statements that differ in the sizes they
  allocate are executed alike.
- Theorem `Kernel.execute_resized`: so are kernels.
- Theorem `Kernel.negatedInShared_not_interchangeable`: two kernels of one source
  that do not run alike.
-/

namespace FusionCompiler
namespace Kernel

/-! ## Statements up to sizes -/

/-- An allocation without its size. -/
def Allocation.unsized (a : Allocation) : Allocation :=
  { a with size := .zero }

/-- Two sizes have the same value in every thread of a launch, or are the same expression. -/
def Launch.AgreeOn (l : Launch) (s s' : Scalar) : Prop :=
  s' = s ∨ ∀ loops thread, ∃ c, s.evaluate (l.env loops thread) = some c ∧
    s'.evaluate (l.env loops thread) = some c

mutual

/-- A statement with other sizes that have the same values in a launch. -/
inductive Stmt.Resized (l : Launch) : Stmt → Stmt → Prop where
  | loop {h : LoopHeader} {body body' : List Stmt} (hbody : Stmt.ResizedAll l body body') :
      Stmt.Resized l (.loop h body) (.loop h body')
  | branch {c : Scalar} {yes yes' no no' : List Stmt} (hyes : Stmt.ResizedAll l yes yes')
      (hno : Stmt.ResizedAll l no no') : Stmt.Resized l (.branch c yes no) (.branch c yes' no')
  | allocate {a : Allocation} {size : Scalar} (hsize : l.AgreeOn a.size size) :
      Stmt.Resized l (.allocate a) (.allocate { a with size })
  | barrier (afterRead : Bool) : Stmt.Resized l (.barrier afterRead) (.barrier afterRead)
  | op (o : Op) : Stmt.Resized l (.op o) (.op o)

/-- Statements with other sizes that have the same values in a launch. -/
inductive Stmt.ResizedAll (l : Launch) : List Stmt → List Stmt → Prop where
  | nil : Stmt.ResizedAll l [] []
  | cons {x x' : Stmt} {xs xs' : List Stmt} (hx : Stmt.Resized l x x')
      (hxs : Stmt.ResizedAll l xs xs') : Stmt.ResizedAll l (x :: xs) (x' :: xs')

end

namespace Stmt

variable {l : Launch}

/-- A loop allocates what its body allocates. -/
@[simp]
theorem allocations_loop (h : LoopHeader) (body : List Stmt) :
    allocations [.loop h body] = allocations body := by
  simp [allocations, flattenAll, flatten, List.filterMap_cons, allocation?]

/-- A conditional allocates what its sides allocate. -/
theorem allocations_branch (c : Scalar) (yes no : List Stmt) :
    allocations [.branch c yes no] = allocations yes ++ allocations no := by
  simp [allocations, flattenAll, flatten, List.filterMap_cons, allocation?]

/-- The allocations of the first statement and of the others. -/
theorem allocations_cons (x : Stmt) (xs : List Stmt) :
    allocations (x :: xs) = allocations [x] ++ allocations xs := by
  simp [allocations, flattenAll]

mutual

/-- The allocations differ in their sizes only. -/
theorem Resized.allocations_eq : ∀ (x : Stmt) {x' : Stmt}, Resized l x x' →
    (allocations [x']).map Allocation.unsized = (allocations [x]).map Allocation.unsized
  | .loop h body, x', hx => by
      cases hx with
      | loop hbody => simpa using ResizedAll.allocations_eq body hbody
  | .branch c yes no, x', hx => by
      cases hx with
      | branch hyes hno =>
          have hfirst := ResizedAll.allocations_eq yes hyes
          have hsecond := ResizedAll.allocations_eq no hno
          rw [allocations_branch, allocations_branch, List.map_append, List.map_append, hfirst,
            hsecond]
  | .allocate a, x', hx => by
      cases hx with
      | allocate hsize => rfl
  | .barrier _, x', hx => by
      cases hx
      rfl
  | .op _, x', hx => by
      cases hx
      rfl

/-- Resized programs allocate the same buffers, of other sizes at most. -/
theorem ResizedAll.allocations_eq : ∀ (xs : List Stmt) {xs' : List Stmt}, ResizedAll l xs xs' →
    (allocations xs').map Allocation.unsized = (allocations xs).map Allocation.unsized
  | [], xs', hxs => by
      cases hxs
      rfl
  | x :: xs, xs', hxs => by
      cases hxs with
      | cons hx hrest =>
          rw [allocations_cons, allocations_cons x, List.map_append, List.map_append,
            Resized.allocations_eq x hx, ResizedAll.allocations_eq xs hrest]

end

end Stmt

/-! ## What a run reads of its launch -/

/-- Launches with the same threads and arguments, in which every tensor lives in the same place. -/
structure Launch.Alike (l l' : Launch) : Prop where
  dims : l'.dims = l.dims
  tensors : l'.tensors = l.tensors
  scalars : l'.scalars = l.scalars
  memory : ∀ v, l'.memory? v = l.memory? v
  owner : ∀ v, l'.owner v = l.owner v

namespace Launch

variable {l l' : Launch}

/-- A search that does not look at sizes finds the same allocation up to its size. -/
theorem find?_unsized {as as' : List Allocation} {p : Allocation → Bool}
    (hp : ∀ a, p a.unsized = p a) (h : as'.map Allocation.unsized = as.map Allocation.unsized) :
    (as'.find? p).map Allocation.unsized = (as.find? p).map Allocation.unsized := by
  have hmap : ∀ l : List Allocation,
      (l.find? p).map Allocation.unsized = (l.map Allocation.unsized).find? p := by
    intro l
    have hcomp : p ∘ Allocation.unsized = p := funext hp
    rw [List.find?_map, hcomp]
  rw [hmap, hmap, h]

/-- The sizes of allocations do not matter for where tensors live. -/
theorem alike_of_unsized {as as' : List Allocation} {dims : LaunchDims}
    {tensors : List TensorArgument} {scalars : List (ValueId × Constant)}
    (h : as'.map Allocation.unsized = as.map Allocation.unsized) :
    Alike ⟨dims, tensors, scalars, as⟩ ⟨dims, tensors, scalars, as'⟩ := by
  have hmemory : ∀ v, (as'.find? (·.tensor == v)).map (·.memory) =
      (as.find? (·.tensor == v)).map (·.memory) := by
    intro v
    have hfind := congrArg (Option.map Allocation.memory)
      (find?_unsized (p := fun a => a.tensor == v) (fun _ => rfl) h)
    rwa [Option.map_map, Option.map_map] at hfind
  have hhost : ∀ v,
      host? ⟨dims, tensors, scalars, as'⟩ v = host? ⟨dims, tensors, scalars, as⟩ v := by
    intro v
    have hfind := congrArg (Option.bind · Allocation.host)
      (find?_unsized (p := fun a => a.tensor == v && a.host.isSome) (fun _ => rfl) h)
    rw [Option.bind_map, Option.bind_map] at hfind
    exact hfind
  have hlength : as'.length = as.length := by simpa using congrArg List.length h
  refine ⟨rfl, rfl, rfl, fun v => ?_, fun v => ?_⟩
  · have hm := hmemory v
    unfold memory? tensor?
    dsimp only
    cases hfound : as.find? (·.tensor == v) with
    | none =>
        rw [hfound] at hm
        rw [Option.map_eq_none_iff.1 hm]
    | some a =>
        rw [hfound] at hm
        obtain ⟨a', ha', hmem⟩ := Option.map_eq_some_iff.1 hm
        rw [ha']
        exact congrArg some hmem
  · have hwith : ∀ fuel v, ownerWith ⟨dims, tensors, scalars, as'⟩ fuel v =
        ownerWith ⟨dims, tensors, scalars, as⟩ fuel v := by
      intro fuel
      induction fuel with
      | zero => exact fun _ => rfl
      | succ fuel ih =>
          intro v
          unfold ownerWith
          rw [hhost]
          split
          · exact ih _
          · rfl
    unfold owner
    dsimp only
    rw [hlength]
    exact hwith _ v

namespace Alike

variable (h : Alike l l')

include h

/-- The two layouts give threads the same indices. -/
theorem env (loops : List (LoopId × Int)) (thread : Nat) :
    l'.env loops thread = l.env loops thread := by
  unfold Launch.env Launch.coordinate Launch.block Launch.size Launch.tensor?
  rw [h.dims, h.tensors, h.scalars]

/-- The two layouts store a tensor in the same place. -/
theorem place? (thread : Nat) (v : ValueId) : l'.place? thread v = l.place? thread v := by
  unfold Launch.place? Launch.block Launch.tensor?
  rw [h.memory, h.owner, h.dims, h.tensors]

/-- The two layouts have the same segments of threads. -/
theorem segments (types : ParallelSet) (active : List Nat) :
    l'.segments types active = l.segments types active := by
  unfold Launch.segments Launch.segmentKey Launch.coordinate Launch.block Launch.size
  rw [h.dims]

/-- The two layouts have the same first threads. -/
theorem isFirst (types : ParallelSet) : l'.isFirst types = l.isFirst types := by
  funext thread
  unfold Launch.isFirst Launch.coordinate Launch.block Launch.size
  rw [h.dims]

end Alike
end Launch

/-! ## Runs -/

namespace Run

variable {α : Type} {A : Arithmetic α} {l l' : Launch}

section Operations

variable (h : Launch.Alike l l')

include h

/-- Scalars are evaluated alike. -/
theorem eval_alike (s : Scalar) (thread : Nat) :
    (eval l' s thread : Run α Constant) = eval l s thread := by
  unfold eval
  simp only [h.env]

/-- Conditions are tested alike. -/
theorem holds_alike (c : Scalar) (thread : Nat) :
    (holds l' c thread : Run α Bool) = holds l c thread := by
  unfold holds
  rw [eval_alike h]

/-- Reads at an index are alike. -/
theorem readAt_alike (v : ValueId) (thread : Nat) (index : Int) :
    (readAt l' v thread index : Run α α) = readAt l v thread index := by
  unfold readAt
  rw [h.place?]

/-- Loads are alike. -/
theorem load_alike (e : Element) (thread : Nat) :
    (load l' e thread : Run α α) = load l e thread := by
  unfold load
  simp only [eval_alike h, readAt_alike h]

/-- Stores are alike. -/
theorem store_alike (e : Element) (thread : Nat) (x : α) :
    store A l' e thread x = store A l e thread x := by
  unfold store
  simp only [eval_alike h, readAt_alike h, h.place?]

/-- Operands are read alike. -/
theorem operand_alike (x : Kernel.Operand) (thread : Nat) :
    operand A l' x thread = operand A l x thread := by
  unfold operand
  simp only [load_alike h, eval_alike h]

/-- Inputs of a Welford reduction are read alike. -/
theorem welfordInput_alike (x : WelfordInput) (thread : Nat) :
    welfordInput A l' x thread = welfordInput A l x thread := by
  unfold welfordInput
  simp only [operand_alike h]

/-- Moments are loaded alike. -/
theorem loadMoments_alike (out : Moments Element) (thread : Nat) :
    (loadMoments l' out thread : Run α (Moments α)) = loadMoments l out thread := by
  unfold loadMoments
  simp only [load_alike h]

/-- Moments are stored alike. -/
theorem storeMoments_alike (out : Moments Element) (thread : Nat) (m : Moments α) :
    storeMoments A l' out thread m = storeMoments A l out thread m := by
  unfold storeMoments
  simp only [store_alike h]

/-- The value that is shared is found alike. -/
theorem firstValue_alike (x : Kernel.Operand) (reads : Scalar) (ts : List Nat) :
    firstValue A l' x reads ts = firstValue A l x reads ts := by
  induction ts with
  | nil => rfl
  | cons t ts ih =>
      unfold firstValue
      rw [holds_alike h, operand_alike h, ih]

/-- An operation only looks at the threads, the arguments and the places of tensors. -/
theorem execOp_alike (o : Op) (active : List Nat) : execOp A l' o active = execOp A l o active := by
  unfold execOp reduce welford broadcast
  simp only [load_alike h, store_alike h, operand_alike h, welfordInput_alike h,
    loadMoments_alike h,
    storeMoments_alike h, firstValue_alike h, holds_alike h, h.segments, h.isFirst]

/-- Threads take the same sides of a conditional. -/
theorem divide_alike (c : Scalar) (active : List Nat) :
    (divide l' c active : Run α (List (Nat × Bool))) = divide l c active := by
  unfold divide
  simp only [holds_alike h]

/-- Loops run as often. -/
theorem iterations_alike (extent : Scalar) (active : List Nat) :
    (iterations l' extent active : Run α Nat) = iterations l extent active := by
  unfold iterations
  simp only [eval_alike h]

/-- An allocation only looks at the value of its size. -/
theorem allocate_alike {a : Allocation} {size : Scalar} (hsize : l.AgreeOn a.size size)
    (active : List Nat) : allocate A l' { a with size } active = allocate A l a active := by
  have heval : ∀ thread, (eval l' size thread : Run α Constant) = eval l a.size thread := by
    intro thread
    rw [eval_alike h]
    rcases hsize with rfl | hvalue
    · rfl
    · unfold eval
      refine congrArg _ (funext fun m => ?_)
      obtain ⟨c, hc, hc'⟩ := hvalue m.loops thread
      rw [hc, hc']
  have hblock : l'.block = l.block := by
    funext thread
    unfold Launch.block
    rw [h.dims]
  unfold allocate
  simp only [heval, h.owner, hblock]

end Operations

mutual

/-- A statement that differs in the sizes it allocates is executed alike. -/
theorem exec_resized (h : Launch.Alike l l') : ∀ (x : Stmt) {x' : Stmt} (_ : Stmt.Resized l x x')
    (active : List Nat), exec A l' x' active = exec A l x active
  | .loop header body, x', hx, active => by
      cases hx with
      | loop hbody =>
          have hall := fun active => execAll_resized h body hbody active
          unfold exec
          simp only [hall, iterations_alike h]
  | .branch c yes no, x', hx, active => by
      cases hx with
      | branch hyes hno =>
          have hfirst := fun active => execAll_resized h yes hyes active
          have hsecond := fun active => execAll_resized h no hno active
          unfold exec
          simp only [hfirst, hsecond, divide_alike h]
  | .allocate a, x', hx, active => by
      cases hx with
      | allocate hsize =>
          unfold exec
          exact allocate_alike h hsize active
  | .barrier _, x', hx, _ => by
      cases hx
      rfl
  | .op o, x', hx, active => by
      cases hx
      unfold exec
      exact execOp_alike h o active

/-- Statements that differ in the sizes they allocate are executed alike. -/
theorem execAll_resized (h : Launch.Alike l l') : ∀ (xs : List Stmt) {xs' : List Stmt}
    (_ : Stmt.ResizedAll l xs xs') (active : List Nat),
    execAll A l' xs' active = execAll A l xs active
  | [], xs', hxs, _ => by
      cases hxs
      rfl
  | x :: xs, xs', hxs, active => by
      cases hxs with
      | cons hx hrest =>
          unfold execAll
          rw [exec_resized h x hx, execAll_resized h xs hrest]

end

end Run

/-- Kernels that differ in nothing but the sizes of their allocations run alike if the sizes have
the same values. -/
theorem execute_resized {α : Type} (A : Arithmetic α) {k k' : Kernel} {dims : LaunchDims}
    {args : List LaunchArgument} (buffers : Array (Array α))
    (h : Stmt.ResizedAll (Launch.make k.body dims args) k.body k'.body) :
    execute A k' dims args buffers = execute A k dims args buffers := by
  have hunsized := Stmt.ResizedAll.allocations_eq k.body h
  have halike : Launch.Alike (Launch.make k.body dims args) (Launch.make k'.body dims args) := by
    apply Launch.alike_of_unsized
    rw [List.map_reverse, List.map_reverse, hunsized]
  unfold execute
  dsimp only
  rw [Run.execAll_resized halike k.body h]

/-- Twice negated elements of a tensor, the first result in shared memory, one thread for each. -/
def negatedInShared (n : Int) : List Call :=
  [.tensor [n] [true] .float, .input ⟨0⟩, .unary .neg (.value ⟨0⟩), .unary .neg (.value ⟨4⟩),
    .output ⟨6⟩, .setMemory ⟨4⟩ .shared, .parallelize ⟨4⟩ 0 .threadX, .parallelize ⟨6⟩ 0 .threadX]

/-- The outcome of a launch of four threads over a buffer of four elements and one for the
results. -/
def negateFour (k : Kernel) : Except RunError Unit :=
  (k.execute .double ⟨[1, 1, 1, 4, 1, 1], 16⟩
    [.tensor ⟨⟨0⟩, 0, .float, [4], [1]⟩, .tensor ⟨⟨6⟩, 1, .float, [4], [1]⟩]
    #[#[1, 2, 3, 4], #[0, 0, 0, 0]]).1

/-- The kernel for two elements has the source of the kernel for four, but its shared buffer is too
short for them. -/
theorem negatedInShared_not_interchangeable :
    ∃ f l s f' l' s', Fusion.applyAll Schedule.replay (negatedInShared 2) {} = some f ∧
      Lowered.make f = .ok l ∧ Device.render l.kernel none = .ok s ∧
      Fusion.applyAll Schedule.replay (negatedInShared 4) {} = some f' ∧
      Lowered.make f' = .ok l' ∧ Device.render l'.kernel none = .ok s' ∧
      s.code = s'.code ∧ s.entryPoint = s'.entryPoint ∧
      negateFour l'.kernel = .ok () ∧ negateFour l.kernel = .error (.outOfBounds ⟨4⟩ 2 2) := by
  have hrun : ((Fusion.applyAll Schedule.replay (negatedInShared 2) {}).any fun f =>
      (Lowered.make f).toOption.any fun l => (Device.render l.kernel none).toOption.any fun s =>
        (Fusion.applyAll Schedule.replay (negatedInShared 4) {}).any fun f' =>
          (Lowered.make f').toOption.any fun l' =>
            (Device.render l'.kernel none).toOption.any fun s' =>
              decide (s.body = s'.body) && decide (s.entryPoint = s'.entryPoint) &&
                match negateFour l'.kernel, negateFour l.kernel with
                | .ok (), .error (.outOfBounds v i n) => decide (v = ⟨4⟩ ∧ i = 2 ∧ n = 2)
                | _, _ => false) = true := by
    decide +kernel
  obtain ⟨f, hf, hl⟩ := (Option.any_eq_true _ _).1 hrun
  obtain ⟨l, hl, hs⟩ := (Option.any_eq_true _ _).1 hl
  obtain ⟨s, hs, hf'⟩ := (Option.any_eq_true _ _).1 hs
  obtain ⟨f', hf', hl'⟩ := (Option.any_eq_true _ _).1 hf'
  obtain ⟨l', hl', hs'⟩ := (Option.any_eq_true _ _).1 hl'
  obtain ⟨s', hs', hchecks⟩ := (Option.any_eq_true _ _).1 hs'
  simp only [Bool.and_eq_true, decide_eq_true_eq] at hchecks
  obtain ⟨⟨hbody, hentry⟩, houtcomes⟩ := hchecks
  refine ⟨f, l, s, f', l', s', hf, Results.ok_of_toOption hl, Results.ok_of_toOption hs, hf',
    Results.ok_of_toOption hl', Results.ok_of_toOption hs', ?_, hentry, ?_⟩
  · rw [Device.Source.code, hbody]
    rfl
  · split at houtcomes
    case h_1 v i n hok herror =>
        obtain ⟨rfl, rfl, rfl⟩ := of_decide_eq_true houtcomes
        exact ⟨hok, herror⟩
    case h_2 => cases houtcomes

end Kernel
end FusionCompiler
