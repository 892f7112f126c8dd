import FusionCompiler.Kernel.Basic
import FusionCompiler.Text.Layout

/-!
# Kernel listings

The indented text of a kernel.
-/

namespace FusionCompiler

/-- The name of a tensor in kernel text. -/
def ValueId.tensorName (v : ValueId) : String := "T" ++ Numeric.natText v.index

/-- The name of a scalar argument in kernel text. -/
def ValueId.scalarName (v : ValueId) : String := "s" ++ Numeric.natText v.index

namespace Kernel

/-- The text of an element. -/
def Element.text (e : Element) : String :=
  e.tensor.tensorName ++ "[" ++ e.index.text ++ "]"

/-- The text of an operand. -/
def Operand.text : Operand → String
  | .element e => e.text
  | .scalar value _ => value.text

/-- The mark of a cooperation. -/
def Collective.text : Collective → String
  | .serial => ""
  | .across .block types _ _ => " block" ++ types.text
  | .across .grid types _ _ => " grid" ++ types.text

/-- The text of what a statistics operation takes in. -/
def WelfordInput.text : WelfordInput → String
  | .sample x => x.text
  | .moments m => Text.commaSep (m.toList.map Operand.text)

/-- The text of an operation. -/
def Op.text : Op → String
  | .unary op out x => out.text ++ " = " ++ op.title ++ "(" ++ x.text ++ ")"
  | .binary op out a b => out.text ++ " = " ++ op.title ++ "(" ++ a.text ++ ", " ++ b.text ++ ")"
  | .select out c a b => out.text ++ " = where(" ++ Text.commaSep [c.text, a.text, b.text] ++ ")"
  | .init out value => out.text ++ " = init " ++ value.text
  | .reduce op out x _ how =>
    out.text ++ " = reduce " ++ op.title ++ "(" ++ x.text ++ ")" ++ how.text
  | .welford out x how =>
    Text.commaSep (out.toList.map Element.text) ++ " = welford(" ++ x.text ++ ")" ++ how.text
  | .broadcast out x how => out.text ++ " = broadcast(" ++ x.text ++ ")" ++ how.text

/-- The text of a loop head. -/
def LoopHeader.text (h : LoopHeader) : String :=
  "for " ++ h.index.text ++ " in " ++ h.extent.text ++ " (" ++ h.parallel.text ++ ", "
    ++ h.axis.text ++ "):"

/-- The text of an allocation. -/
def Allocation.text (a : Allocation) : String :=
  "alloc " ++ a.tensor.tensorName ++ " " ++ a.memory.name ++ " " ++ a.dtype.name ++ "["
    ++ a.size.text ++ "]" ++ match a.host with
      | some h => " aliases " ++ h.tensorName
      | none => ""

namespace Stmt

mutual

/-- The lines of a statement at a nesting depth. -/
def lines (depth : Nat) : Stmt → List String
  | .loop h body => (Text.indent depth ++ h.text) :: linesAll (depth + 1) body
  | .branch c yes no =>
    let rest := linesAll (depth + 1) no
    (Text.indent depth ++ "if " ++ c.text ++ ":") :: linesAll (depth + 1) yes
      ++ if no.isEmpty then [] else (Text.indent depth ++ "else:") :: rest
  | .allocate a => [Text.indent depth ++ a.text]
  | .barrier afterRead => [Text.indent depth ++ "sync" ++ if afterRead then " (war)" else ""]
  | .op o => [Text.indent depth ++ o.text]

/-- The lines of statements at a nesting depth. -/
def linesAll (depth : Nat) : List Stmt → List String
  | [] => []
  | s :: rest => lines depth s ++ linesAll depth rest

end

end Stmt

/-- The text of a parameter. -/
def Param.text : Param → String
  | .tensor t dtype _ _ => t.tensorName ++ ": " ++ dtype.name
  | .scalar v dtype => v.scalarName ++ ": " ++ dtype.name
  | .workBuffer dtype => "work: " ++ dtype.name
  | .syncFlags => "sync_flags"

/-- The text of a kernel: its head, then its body. -/
def text (k : Kernel) : String :=
  let head := "kernel " ++ k.name ++ "(" ++ Text.commaSep (k.params.map Param.text) ++ "):"
  Text.concat ((head :: Stmt.linesAll 1 k.body).map (· ++ "\n"))

end Kernel
end FusionCompiler
