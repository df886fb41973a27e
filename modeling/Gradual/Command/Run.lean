import Gradual.Command.Flags
import Gradual.Project.Check

/-! The command line: checks a project, or shows the interface of one of its modules. -/

namespace Gradual.Command

structure Outcome where
  code : Nat
  output : Text := ""
  errors : Text := ""
  deriving DecidableEq, Repr

def version : Text := "starcheck 0.0.0-dev"

def usage : Text :=
  "Usage:\n"
    ++ "  starcheck check [-config file] [-json] [-approx] <root> [module]\n"
    ++ "  starcheck interface [-config file] [-dump] <root> <module>\n"
    ++ "  starcheck version\n"

def configFlag : Flag :=
  ⟨"config", .text, "configuration file (default <root>/" ++ Config.fileName ++ ")"⟩

/-- A command that looks at a project: its name and its flags in the order of their names. -/
structure Spec where
  name : Text
  flags : List Flag

def checkSpec : Spec where
  name := "check"
  flags := [⟨"approx", .switch, "also print approximations"⟩, configFlag,
    ⟨"json", .switch, "print diagnostics as JSON"⟩]

def interfaceSpec : Spec where
  name := "interface"
  flags := [configFlag, ⟨"dump", .switch, "dump the module's globals and expression types"⟩]

namespace Spec

def help (s : Spec) : Text :=
  "Usage of " ++ s.name ++ ":\n" ++ String.join (s.flags.map Flag.help)

def refusal (s : Spec) (e : FlagError) : Outcome where
  code := 2
  errors := ((e.message?.map (· ++ "\n")).getD "") ++ s.help

end Spec

/-- What a command is asked: its flags, the root, and the module if one is named. -/
structure Query where
  flags : FlagValues
  root : Text
  entry : Option Text

namespace Query

def parse (s : Spec) (args : List Text) : Except Outcome Query :=
  match Flag.parse s.flags {} args with
  | .error e => .error (s.refusal e)
  | .ok (flags, [root]) => .ok ⟨flags, root, none⟩
  | .ok (flags, [root, entry]) => .ok ⟨flags, root, some entry⟩
  | .ok _ => .error { code := 2, errors := usage }

def config (q : Query) : Text :=
  Project.configPath q.root (q.flags.text configFlag.name)

end Query

def failure (line : Text) : Outcome where
  code := 1
  errors := line ++ "\n"

def loadFailure : ProjectError → Outcome
  | .config e => failure ("failed to load config: " ++ e.message)
  | .docs e => failure ("failed to load docs: " ++ Config.oracleMessage e)
  | .modules e => failure e.message

def checkFailure : ProjectCheckError → Outcome
  | .oracleKey e => failure ("failed to fingerprint docs: " ++ Config.oracleKeyMessage e)
  | .program e => failure ("typecheck failed: " ++ e.message)

def warnings (p : Project) : Text :=
  String.join (p.program.unresolved.map fun id =>
    "warning: module " ++ id ++ " not found under " ++ p.root.path ++ "\n")

def Outcome.after (text : Text) (o : Outcome) : Outcome :=
  { o with errors := text ++ o.errors }

def approximationLines (o : ModuleOutcome) : List Text :=
  o.report.approximations.map fun a =>
    "approximation: " ++ o.module.path ++ ":" ++ toString a.span.start.line ++ ":"
      ++ toString a.span.start.column ++ " " ++ a.text

def reportLines (r : ProgramReport) (withApproximations : Bool) : List Text :=
  r.diagnostics.map ModuleDiagnostic.text
    ++ (if withApproximations then r.outcomes.flatMap approximationLines else [])
    ++ ["checked " ++ toString r.outcomes.length ++ " module(s), " ++ toString r.diagnostics.length
      ++ " error(s)"]

def lines (ls : List Text) : Text :=
  String.join (ls.map (· ++ "\n"))

/-- A value as JSON, and then `code`; `what` is what cannot be written if it is nested too deep. -/
def showJson (what : Text) (h : Json.Holding) (code : Nat) (j : Json) : Outcome :=
  match j.fault? h with
  | some e => failure ("failed to encode " ++ what ++ ": " ++ e)
  | none => { code := code, output := Json.renderIndented .html 0 j ++ "\n" }

def showReport (q : Query) (p : Project) (r : ProgramReport) : Outcome :=
  let code := if p.config.fatal && !r.diagnostics.isEmpty then 1 else 0
  if q.flags.isOn "json" then
    showJson "diagnostics" .part code (.arr (r.diagnostics.map ModuleDiagnostic.toJson))
  else { code := code, output := lines (reportLines r (q.flags.isOn "approx")) }

def noteLine (n : TypeNote) : Text :=
  toString n.span.start.line ++ ":" ++ toString n.span.start.column ++ " *ast." ++ n.form ++ " => "
    ++ n.info.type.text ++ if n.info.isApproximate then " (approximate)" else ""

def dumpLines (r : ModuleReport) : List Text :=
  (r.globals.own.symbols.entries.map fun (name, b) => "global " ++ name ++ ": " ++ b.type.text)
    ++ r.types.listing.map noteLine

def dump (entry : SourceModule) (r : ProgramReport) (o : Outcome) : Outcome :=
  match r.outcomes.find? (·.module.id == entry.id) with
  | none => o
  | some m =>
    if m.isCached then
      { o with errors := o.errors ++ "note: result served from cache; no expression types to dump\n" }
    else { o with output := o.output ++ lines (dumpLines m.report) }

def showInterface (q : Query) (p : Project) (r : ProgramReport) : Outcome :=
  match p.program.entry with
  | none => { code := 2, errors := "interface requires a module argument\n" }
  | some entry =>
    let o := showJson "interface" Interface.holding 0 ((r.published.get? entry.id).getD {}).toJson
    if q.flags.isOn "dump" && o.code == 0 then dump entry r o else o

def inspect (s : Spec) (present : Query → Project → ProgramReport → Outcome) (d : Disk)
    (args : List Text) : Outcome × Disk :=
  match Query.parse s args with
  | .error o => (o, d)
  | .ok q =>
    match Project.load d q.config q.root q.entry with
    | .error e => (loadFailure e, d)
    | .ok p =>
      match p.check d with
      | (.error e, d) => ((checkFailure e).after (warnings p), d)
      | (.ok r, d) => ((present q p r).after (warnings p), d)

def run (d : Disk) : List Text → Outcome × Disk
  | [] => ({ code := 1, errors := usage }, d)
  | name :: args =>
    if name = "--help" ∨ name = "-h" then ({ code := 0, errors := usage }, d)
    else if name = "--version" ∨ name = "-V" ∨ name = "version" then
      ({ code := 0, output := version ++ "\n" }, d)
    else if name = checkSpec.name then inspect checkSpec showReport d args
    else if name = interfaceSpec.name then inspect interfaceSpec showInterface d args
    else ({ code := 1, errors := "unknown command " ++ Text.quoted name ++ "\n" ++ usage }, d)

def paths (d : Disk) : List Text → List Text
  | [] => []
  | name :: args =>
    let spec? := [checkSpec, interfaceSpec].find? (·.name == name)
    match spec?.map fun s => Query.parse s args with
    | some (.ok q) => Project.paths d q.config q.root q.entry
    | _ => []

end Gradual.Command
