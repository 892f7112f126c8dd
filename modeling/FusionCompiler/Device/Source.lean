import FusionCompiler.Device.Error
import FusionCompiler.Device.Prelude
import FusionCompiler.Device.Spelling
import FusionCompiler.Lower.Lowered

/-!
# Device source

A kernel becomes one device function behind the prelude.  Every tensor is
written as an array: parameters through the subscript of their structure,
register and shared tensors as plain arrays.  Halves are widened when loaded and
narrowed when stored.
-/

namespace FusionCompiler
namespace Device

open Kernel

/-! ## Elements and operands -/

/-- An element. -/
def access (e : Element) : String :=
  e.tensor.tensorName ++ "[" ++ scalar e.index ++ "]"

/-- An operand in its compute type. -/
def load : Kernel.Operand → String
  | .element e => if e.dtype = .half then "__half2float(" ++ access e ++ ")" else access e
  | .scalar value t => scalarAs value t

/-- An operand converted to the compute type of a type. -/
def loadAs (x : Kernel.Operand) (t : DataType) : String :=
  let converted :=
    if computeType x.dtype = computeType t then load x
    else "static_cast<" ++ computeType t ++ ">(" ++ load x ++ ")"
  match x with
  | .scalar value _ => if value.isLiteral then scalarAs value t else converted
  | .element _ => converted

/-- Stores a written value. -/
def store (out : Element) (value : String) : String :=
  if out.dtype = .half then access out ++ " = __float2half(" ++ value ++ ");"
  else access out ++ " = " ++ value ++ ";"

/-! ## Collectives -/

/-- One truth literal for each of the given types. -/
def flags (types : ParallelSet) (of : List ParallelType) : String :=
  Text.commaSep (of.map fun t => Constant.boolText (types.contains t))

/-- Which thread dimensions take part. -/
def threadFlags (types : ParallelSet) : String :=
  flags types [.threadX, .threadY, .threadZ]

/-- Which block and thread dimensions take part. -/
def gridFlags (types : ParallelSet) : String :=
  flags types ParallelType.launchTypes

/-- A call with template arguments. -/
def templateCall (name : String) (template args : List String) : String :=
  name ++ "<" ++ Text.commaSep template ++ ">(" ++ Text.commaSep args ++ ");"

/-- Refuses what has no spelling. -/
def refuse (cond : Bool) (fault : DeviceFault) : Except DeviceError Unit :=
  if cond then .error (.unsupported fault) else .ok ()

/-- A reduction. -/
def reductionLine (op : BinaryOp) (out : Element) (x : Kernel.Operand) (init : Constant)
    (how : Collective) : Except DeviceError String :=
  let t := out.dtype
  match how with
  | .serial => .ok (store out (binaryExpression op (load (.element out)) (loadAs x t) t))
  | .across scope types reads writes => do
    refuse (t = .half) .halfReduction
    let name := t.deviceName
    let combine := "[](" ++ name ++ " &a, " ++ name ++ " b) \x7b a = "
      ++ binaryExpression op "a" "b" t ++ "; \x7d"
    let values := [access out, loadAs x t, combine]
    let workspace := "reinterpret_cast<" ++ name ++ "*>(shared_mem)"
    let guards := [scalar reads, scalar writes, literal init t]
    return match scope with
      | .grid => templateCall "gridReduce" [gridFlags types]
          (values ++ ["work_buf", "sync_flags", workspace] ++ guards)
      | .block => templateCall "blockReduce" [threadFlags types]
          (values ++ ["threadIdx", "blockDim", workspace] ++ guards)

/-- The written triple that a statistics operation takes in. -/
def welfordValues (out : Moments Element) : WelfordInput → List String
  | .sample x =>
    [loadAs x out.avg.dtype, literal (.float 0.0) out.avg.dtype, literal (.int 1) out.count.dtype]
  | .moments m =>
    [loadAs m.avg out.avg.dtype, loadAs m.varSum out.varSum.dtype, loadAs m.count out.count.dtype]

/-- A statistics operation. -/
def welfordLine (out : Moments Element) (x : WelfordInput) (how : Collective) :
    Except DeviceError String := do
  refuse (out.avg.dtype = .half) .halfWelford
  let types := [out.avg.dtype.deviceName, out.count.dtype.deviceName]
  let args := out.toList.map access ++ welfordValues out x
  return match how with
    | .serial => templateCall "welfordCombine" types args
    | .across .block dims reads writes =>
      templateCall "blockWelford" (threadFlags dims :: types)
        (args ++ ["threadIdx", "blockDim", "shared_mem", scalar reads, scalar writes])
    | .across .grid dims reads writes =>
      templateCall "gridWelford" (gridFlags dims :: types)
        (args ++ ["work_buf", "sync_flags", "shared_mem", scalar reads, scalar writes])

/-- A broadcast. -/
def broadcastLine (out : Element) (x : Kernel.Operand) (how : Collective) :
    Except DeviceError String :=
  let t := out.dtype
  match how with
  | .serial => .ok (store out (loadAs x t))
  | .across .block types reads writes => do
    refuse (t = .half) .halfBlockBroadcast
    let workspace := "reinterpret_cast<" ++ t.deviceName ++ "*>(shared_mem)"
    return templateCall "blockBroadcast" [threadFlags types]
      [access out, loadAs x t, workspace, scalar reads, scalar writes]
  | .across .grid types reads writes => do
    refuse (t = .half) .halfGridBroadcast
    return templateCall "gridBroadcast" [gridFlags types]
      [access out, loadAs x t, "work_buf", "sync_flags", scalar reads, scalar writes]

/-! ## Statements -/

/-- The value of a unary operation. -/
def unaryValue (op : UnaryOp) (x : Kernel.Operand) (t : DataType) : String :=
  match op with
  | .set | .cast => loadAs x t
  | .neg => "-" ++ loadAs x t
  | op => unaryFunction op t ++ "(" ++ loadAs x t ++ ")"

/-- The line of an operation. -/
def opLine : Op → Except DeviceError String
  | .unary op out x => .ok (store out (unaryValue op x out.dtype))
  | .binary op out a b =>
    let t := if op.isComparison then a.dtype.promote b.dtype else out.dtype
    .ok (store out (binaryExpression op (loadAs a t) (loadAs b t) t))
  | .select out c a b =>
    .ok (store out (loadAs c .bool ++ " ? " ++ loadAs a out.dtype ++ " : " ++ loadAs b out.dtype))
  | .init out value => .ok (store out (literal value out.dtype.accumulator))
  | .reduce op out x init how => reductionLine op out x init how
  | .welford out x how => welfordLine out x how
  | .broadcast out x how => broadcastLine out x how

/-- The line of an allocation. -/
def allocationLine (shared : List SharedBuffer) (a : Allocation) : Except DeviceError String :=
  let type := a.dtype.deviceName
  let name := a.tensor.tensorName
  match a.memory with
  | .local =>
    match a.size.int? with
    | some n => .ok (type ++ " " ++ name ++ "[" ++ Numeric.intText n ++ "];")
    | none => .error (.symbolicLocalSize a.tensor a.size.text)
  | .shared =>
    match shared.reverse.find? (·.tensor == a.tensor) with
    | some b =>
      .ok (type ++ "* " ++ name ++ " = reinterpret_cast<" ++ type ++ "*>(array + "
        ++ scalar b.offset ++ ");")
    | none => .error (.missingSharedOffset a.tensor)
  | .global => .error (.unsupported (.globalAllocation a.tensor))

/-- A copy that a loop over vector lanes makes, with its guard. -/
def laneCopy? : List Stmt → Option (Scalar × Element × Element)
  | [.op (.unary .set out (.element x))] =>
    if x.dtype = out.dtype then some (.truth, out, x) else none
  | [.branch c [.op (.unary .set out (.element x))] []] =>
    if x.dtype = out.dtype then some (c, out, x) else none
  | _ => none

/-- A line at a nesting depth. -/
def line (depth : Nat) (s : String) : String :=
  Text.indent depth ++ s

/-- Lines in braces behind a head. -/
def braced (depth : Nat) (head : String) (inner : List String) : List String :=
  line depth (head ++ " \x7b") :: inner ++ [line depth "\x7d"]

/-- A vectorized copy is one vector load and store at the first lane. -/
def vectorLines? (depth : Nat) (h : LoopHeader) (body : List Stmt) : Option (List String) := do
  let width ← if h.parallel = .vectorize then h.extent.int? else none
  let (cond, out, x) ← laneCopy? body
  let first := fun (s : Scalar) =>
    scalar (s.substitute fun l => if l = h.index then some .zero else none)
  let vector := "reinterpret_cast<Array<" ++ out.dtype.deviceName ++ ", " ++ Numeric.intText width
    ++ ">*>"
  let place := fun (e : Element) =>
    "*" ++ vector ++ "(&" ++ e.tensor.tensorName ++ "[" ++ first e.index ++ "])"
  let copy := place out ++ " = " ++ place x ++ ";"
  let cond := cond.substitute fun l => if l = h.index then some .zero else none
  return if cond.isTrue then [line depth copy]
    else braced depth ("if (" ++ scalar cond ++ ")") [line (depth + 1) copy]

/-- The head of a loop. -/
def loopHead (h : LoopHeader) : String :=
  let i := h.index.text
  "for (fuser_index_t " ++ i ++ " = 0; " ++ i ++ " < " ++ scalar h.extent ++ "; ++" ++ i ++ ")"

/-- Whether a loop is unrolled by the device compiler. -/
def isUnrolled : ParallelType → Bool
  | .unroll | .vectorize | .misalignedVectorize => true
  | _ => false

mutual

/-- The lines of a statement at a nesting depth. -/
def stmtLines (shared : List SharedBuffer) (depth : Nat) : Stmt → Except DeviceError (List String)
  | .loop h body =>
    if h.isLaunch then stmtsLines shared depth body
    else match vectorLines? depth h body with
      | some lines => .ok lines
      | none => do
        let inner ← stmtsLines shared (depth + 1) body
        let pragma := if isUnrolled h.parallel then [line depth "#pragma unroll"] else []
        return pragma ++ braced depth (loopHead h) inner
  | .branch c yes no => do
    let head := "if (" ++ scalar c ++ ")"
    let yesLines ← stmtsLines shared (depth + 1) yes
    let noLines ← stmtsLines shared (depth + 1) no
    return if no.isEmpty then braced depth head yesLines
      else line depth (head ++ " \x7b") :: yesLines ++ [line depth "\x7d else \x7b"] ++ noLines
        ++ [line depth "\x7d"]
  | .allocate a => do return [line depth (← allocationLine shared a)]
  | .barrier _ => .ok [line depth "block_sync();"]
  | .op o => do return [line depth (← opLine o)]

/-- The lines of statements at a nesting depth. -/
def stmtsLines (shared : List SharedBuffer) (depth : Nat) :
    List Stmt → Except DeviceError (List String)
  | [] => .ok []
  | s :: rest => do
    let first ← stmtLines shared depth s
    return first ++ (← stmtsLines shared depth rest)

end

/-! ## Kernels -/

/-- The name of a parameter. -/
def paramName : Param → String
  | .tensor t _ _ _ => t.tensorName
  | .scalar v _ => v.scalarName
  | .workBuffer _ => "work_buf"
  | .syncFlags => "sync_flags"

/-- The type of a parameter. -/
def paramType : Param → String
  | .tensor _ t _ sizes => "Tensor<" ++ t.deviceName ++ ", " ++ Numeric.natText sizes.length ++ ">"
  | .scalar _ t => t.deviceName
  | .workBuffer t => t.deviceName ++ "*"
  | .syncFlags => "int64_t*"

/-- The declarations of shared memory and workspace. -/
def workspaceLines (s : Summary) : List String :=
  let array := if !s.shared.isEmpty || s.needsWorkspace then
    [line 1 "alignas(16) extern __shared__ char array[];"] else []
  let workspace := if s.needsWorkspace then
    [line 1 ("const unsigned smem_offset = alignBufferSize(" ++ scalar s.sharedBytes ++ ", 16);"),
      line 1 "char* shared_mem = array + smem_offset;"] else []
  array ++ workspace

/-- The device source of a kernel. -/
structure Source where
  /-- Everything behind the prelude. -/
  body : String
  /-- The name of the device function. -/
  entryPoint : String
  params : List Param
deriving Inhabited

/-- The complete text. -/
def Source.code (s : Source) : String :=
  Prelude.text ++ s.body

/-- Writes a kernel; a given name replaces the kernel's own. -/
def render (k : Kernel) (name : Option String) : Except DeviceError Source := do
  let entry := name.getD k.name
  let params := k.params.map fun p => paramType p ++ " " ++ paramName p
  let head := "extern \"C\" __global__ void " ++ entry ++ "(" ++ Text.commaSep params ++ ") \x7b"
  let lines ← stmtsLines k.summary.shared 1 k.body
  let all := head :: workspaceLines k.summary ++ lines ++ ["\x7d"]
  return ⟨Text.concat (all.map ("\n" ++ ·)) ++ "\n", entry, k.params⟩

/-- Lowers a fusion and writes its kernel. -/
def renderFusion (f : Fusion) (name : Option String) : Except DeviceError (Kernel × Source) := do
  let lowered ← (Lowered.make f).mapError .lower
  return (lowered.kernel, ← render lowered.kernel name)

end Device
end FusionCompiler
