import FusionCompiler.Host.ExecutorCache

/-!
# Workspaces

A workspace owns the compiled modules, named executors and an executor cache.
Modules are shared between all of them.  When an executor is dropped, a compiled
version is evicted or the cache is cleared, modules that nobody holds are dropped.
-/

namespace FusionCompiler

/-- Modules with those who use them. -/
structure Workspace where
  modules : Modules := {}
  /-- Compiled fusions by name. -/
  executors : List (String × CompiledFusion) := []
  cache : Option ExecutorCache := none

namespace Workspace

/-- The compiled fusion of a name. -/
def executor? (w : Workspace) (name : String) : Option CompiledFusion :=
  w.executors.lookup name

/-- Forgets the compiled fusion of a name. -/
def forget (w : Workspace) (name : String) : Workspace :=
  { w with executors := w.executors.filter (·.1 != name) }

/-- The modules in use. -/
def held (w : Workspace) : List Module :=
  w.executors.map (·.2.module) ++ (w.cache.map (·.held)).getD []

/-- Drops the modules that are not in use. -/
def prune (w : Workspace) : Workspace :=
  { w with modules := w.modules.prune w.held }

/-- Compiles a fusion under a name; a failure keeps what the name stands for. -/
def compile (w : Workspace) (name : String) (f : Fusion) :
    Except RunError CompiledFusion × Workspace :=
  let (outcome, modules) := (CompiledFusion.compile f).run w.modules
  let w := { w with modules }
  match outcome with
  | .ok c => (.ok c, { w.forget name with executors := (name, c) :: (w.forget name).executors })
  | .error e => (.error e, w)

/-- Runs the compiled fusion of a name. -/
def run (w : Workspace) (name : String) (args : List Argument) (launch : LaunchOverrides)
    (outputs : Option (List HostTensor)) : Except RunError Execution :=
  match w.executor? name with
  | some c => c.run args launch outputs
  | none => .error .notCompiled

/-- Drops the compiled fusion of a name, and then unused modules. -/
def dropExecutor (w : Workspace) (name : String) : Workspace :=
  (w.forget name).prune

/-- The version of the cached fusion for some arguments; unused modules go when a version is
evicted. -/
def versionFor (w : Workspace) (c : ExecutorCache) (args : List Argument) :
    Except RunError SegmentedExecutor × Workspace :=
  let ((outcome, c'), modules) := (c.versionFor args).run w.modules
  let w := { w with modules, cache := some c' }
  (outcome, if c.versions.evictions < c'.versions.evictions then w.prune else w)

/-- Forgets all versions of the cached fusion, and then unused modules. -/
def clearCache (w : Workspace) : Workspace :=
  prune { w with cache := w.cache.map (·.clear) }

end Workspace
end FusionCompiler
