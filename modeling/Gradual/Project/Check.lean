import Gradual.Program.Check
import Gradual.Program.Load
import Gradual.Project.Settings
import Gradual.Project.Store

/-! A project: the modules below a directory, checked as a configuration says. -/

namespace Gradual

inductive ProjectError where
  | config (e : ConfigError)
  | docs (e : DocsError)
  | modules (e : LoadError)

structure Project where
  config : Config
  oracle : Oracle
  root : ModuleRoot
  program : Program

inductive ProjectCheckError where
  | oracleKey (e : Text × DiskError)
  | program (e : ProgramError)

namespace Project

def configPath (root named : Text) : Text :=
  if named = "" then Path.join root Config.fileName else named

def loadProgram (d : Disk) (root : ModuleRoot) : Option Text → Except LoadError Program
  | some entry => root.program d entry
  | none => root.wholeProgram d

def load (d : Disk) (config root : Text) (entry : Option Text) : Except ProjectError Project := do
  let config ← (Config.loadOrDefault d config).mapError .config
  let oracle ← (config.oracle d).mapError .docs
  let root ← (ModuleRoot.open? d root).mapError .modules
  let program ← (loadProgram d root entry).mapError .modules
  return { config, oracle, root, program }

/-- How the program of a project is checked. The key of the oracle counts only if there is a cache. -/
def setup (p : Project) (d : Disk) : Except (Text × DiskError) (ProgramSetup Disk) := do
  let rules : Rules := ⟨p.oracle, p.config.mode⟩
  if p.config.cacheDir = "" then return { rules := rules }
  else
    let key ← p.config.oracleKey d
    return { rules := rules, cache := some (EntryStore.cache ⟨p.config.cacheDir⟩), oracleKey := key }

def check (p : Project) (d : Disk) : Except ProjectCheckError ProgramReport × Disk :=
  match p.setup d with
  | .error e => (.error (.oracleKey e), d)
  | .ok setup =>
    match setup.check d p.program.modules with
    | (.error e, _, d) => (.error (.program e), d)
    | (.ok (), report, d) => (.ok report, d)

/-- The paths that loading a project looks at, as far as the disk tells: the settings, the root, and the
files of the modules that are named by others. -/
def paths (d : Disk) (config root : Text) (entry : Option Text) : List Text :=
  let settings := match Config.loadOrDefault d config with
    | .ok c => c.docs ++ if c.cacheDir = "" then [] else [c.cacheDir]
    | .error _ => []
  let top : ModuleRoot := ⟨Path.absolute d.workingDirectory root⟩
  let named := d.files.entries.flatMap fun (_, text) =>
    match Module.parse text with
    | .ok m => ModuleRoot.loadsOf m
    | .error _ => []
  config :: root :: settings ++ (entry.toList.map moduleName ++ named).map top.fileOf

end Project

end Gradual
