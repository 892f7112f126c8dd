import FusionCompiler.Kernel.Basic

/-!
# Compiled modules

Kernels are compiled once per source text: fusions that lower to the same source
share a module, and the kernel that was compiled first is the one that runs.
Modules stay until nobody holds them and unused ones are dropped.
-/

namespace FusionCompiler

/-- The name of the host backend. -/
def hostBackend : String := "host"

/-- A compiled kernel. -/
structure Module where
  /-- The device source of the kernel. -/
  source : String
  backend : String := hostBackend
  entryPoint : String
  kernel : Kernel
deriving Inhabited

/-- The text of a module. -/
def Module.text (m : Module) : String :=
  "CachedKernel \x7b backend: \"" ++ m.backend ++ "\", entry_point: \"" ++ m.entryPoint ++ "\" \x7d"

/-- The compiled modules, each source and backend once. -/
structure Modules where
  all : List Module := []
deriving Inhabited

namespace Modules

/-- The module of a source. -/
def find? (s : Modules) (source backend : String) : Option Module :=
  s.all.find? fun m => m.source == source && m.backend == backend

/-- Whether a source has been compiled. -/
def contains (s : Modules) (source backend : String) : Bool :=
  (s.find? source backend).isSome

/-- Number of modules. -/
def size (s : Modules) : Nat :=
  s.all.length

/-- The module of a source; an earlier one is shared, else the given one is added. -/
def obtain (m : Module) (s : Modules) : Module × Modules :=
  match s.find? m.source m.backend with
  | some shared => (shared, s)
  | none => (m, ⟨m :: s.all⟩)

/-- Drops the modules that are not held. -/
def prune (held : List Module) (s : Modules) : Modules :=
  ⟨s.all.filter fun m => held.any fun h => h.source == m.source && h.backend == m.backend⟩

end Modules
end FusionCompiler
