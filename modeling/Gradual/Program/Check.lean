import Gradual.Check.Module
import Gradual.Program.Cache
import Gradual.Program.Levels

/-! Checking programs. The modules of a level are checked against the interfaces of earlier levels, and
their own interfaces are published when all of them are done. -/

namespace Gradual

/-- The outcome for a module; one taken from the cache has no types and no scope. -/
structure ModuleOutcome where
  module : SourceModule
  report : ModuleReport
  isCached : Bool := false

structure ProgramReport where
  outcomes : List ModuleOutcome := []
  published : NameMap Interface := .empty
  diagnostics : List ModuleDiagnostic := []

inductive ProgramError where
  | absent
  | levels (e : LevelError)
  | cancelled
  | store (message : Text)

def ProgramError.message : ProgramError → Text
  | .absent => "typechecker: program is nil"
  | .levels e => e.message
  | .cancelled => "context canceled"
  | .store message => message

/-- How a program is checked: by which rules, and with which cache under the key of the oracle's
sources. The check may be cancelled; it looks whether it was before and after every level. -/
structure ProgramSetup (σ : Type) where
  rules : Rules
  cache : Option (Cache σ) := none
  oracleKey : Text := ""
  isCancelled : Nat → Bool := fun _ => false

namespace ProgramReport

def diagnosticsOf (o : ModuleOutcome) : List ModuleDiagnostic :=
  o.report.errors.map fun e => ⟨o.module.id, e, .ofError o.module.path e⟩

def add (r : ProgramReport) (o : ModuleOutcome) : ProgramReport where
  outcomes := r.outcomes ++ [o]
  published := r.published.insert o.module.id o.report.interface
  diagnostics := r.diagnostics ++ diagnosticsOf o

end ProgramReport

namespace ProgramSetup

variable {σ : Type} (p : ProgramSetup σ)

def loadsOf (m : SourceModule) (published : NameMap Interface) : NameMap Interface :=
  .ofList (((m.tree.map Module.loads).getD []).filterMap fun raw =>
    (published.get? (moduleName raw)).map fun i => (raw, i))

/-- The key of a module's entry; none is needed without a cache. -/
def keyOf (m : SourceModule) (published : NameMap Interface) : Except Text Text :=
  match p.cache with
  | some _ => writtenKey m.hash p.rules.mode p.oracleKey (loadsOf m published)
  | none => .ok ""

def reportOf (e : CacheEntry) : ModuleReport where
  interface := e.interface.getD {}
  errors := e.errors.getD []
  approximations := e.approximations

/-- The outcome for a module, from the cache if that has it. -/
def checkModule (cached : σ) (published : NameMap Interface) (m : SourceModule) : ModuleOutcome :=
  match p.cache.bind fun c => (p.keyOf m published).toOption.bind (c.get cached m.id) with
  | some e => ⟨m, reportOf e, true⟩
  | none => ⟨m, ((m.tree.map fun t => t.check p.rules (loadsOf m published)).getD {}), false⟩

def entryOf (o : ModuleOutcome) (key : Text) : CacheEntry where
  key := key
  interface := some o.report.interface
  errors := if o.report.errors.isEmpty then none else some o.report.errors
  approximations := o.report.approximations

def store (state : σ) (key : Text) (o : ModuleOutcome) : Except Text Unit × σ :=
  match p.cache with
  | some c => if o.isCached then (.ok (), state) else c.put state o.module.id (entryOf o key)
  | none => (.ok (), state)

/-- Publishes the outcomes of a level one by one, and stores each. The keys are those under which the
outcomes were found; one that has no key ends it. -/
def publish (state : σ) (r : ProgramReport) :
    List (Except Text Text × ModuleOutcome) → Except ProgramError Unit × ProgramReport × σ
  | [] => (.ok (), r, state)
  | (.error message, _) :: _ => (.error (.store message), r, state)
  | (.ok key, o) :: rest =>
    match p.store state key o with
    | (.ok (), state) => publish state (r.add o) rest
    | (.error message, state) => (.error (.store message), r.add o, state)

/-- Checks level after level; `poll` counts how often it was asked whether the check is cancelled. -/
def checkLevels (state : σ) (r : ProgramReport) (poll : Nat) :
    List (List SourceModule) → Except ProgramError Unit × ProgramReport × σ
  | [] => (.ok (), r, state)
  | level :: rest =>
    if p.isCancelled poll || p.isCancelled (poll + 1) then (.error .cancelled, r, state)
    else
      let outcomes := level.map fun m => (p.keyOf m r.published, p.checkModule state r.published m)
      match p.publish state r outcomes with
      | (.ok (), r, state) => checkLevels state r (poll + 2) rest
      | (.error e, r, state) => (.error e, r, state)

/-- Checks the modules of a program. What was published before the check ended is told in any case. -/
def check (state : σ) (modules : List SourceModule) : Except ProgramError Unit × ProgramReport × σ :=
  match dependencyLevels modules with
  | .ok levels => p.checkLevels state {} 0 levels
  | .error e => (.error (.levels e), {}, state)

end ProgramSetup

end Gradual
