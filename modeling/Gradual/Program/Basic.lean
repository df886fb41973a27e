import Gradual.Diagnostic
import Gradual.Disk.Path
import Gradual.Syntax.Basic
import Gradual.Text.Space

/-! Programs: modules and what they load. -/

namespace Gradual

/-- A module of a program: its name, the file it was read from, the names of the modules it loads, the
digest of its text, and its tree if there is one. -/
structure SourceModule where
  id : Text := ""
  path : Text := ""
  loads : List Text := []
  hash : Text := ""
  tree : Option Module := none
  deriving Inhabited

/-- Modules, each after those it loads, with the one they were loaded for. Loaded names without a file
are unresolved. -/
structure Program where
  entry : Option SourceModule := none
  modules : List SourceModule := []
  unresolved : List Text := []

def dropHere : List Char → List Char
  | '.' :: '/' :: rest => dropHere rest
  | cs => cs

/-- A text with every colon turned into a slash, except one in the first place, which is dropped. -/
def slashed (cs : List Char) : List Char :=
  let cs := match cs with
    | ':' :: rest => rest
    | cs => cs
  cs.map fun c => if c = ':' then '/' else c

/-- The name of the module that a load statement means. A name may be written from the root, with a colon
before the file, or relative to the root. -/
def moduleName (written : Text) : Text :=
  let cs := (Text.dropStart (Text.trim written) "//").toList
  Path.clean (String.ofList (slashed (dropHere cs)))

/-- Where an error is. What is not known is zero or empty. -/
structure SourceHint where
  path : Text := ""
  line : Int := 0
  column : Int := 0
  endLine : Int := 0
  endColumn : Int := 0
  deriving DecidableEq, Repr

structure ModuleDiagnostic where
  module : Text := ""
  error : TypingError := Report.blankError
  source : SourceHint := {}

namespace SourceHint

def ofError (path : Text) (e : TypingError) : SourceHint :=
  ⟨path, e.span.start.line, e.span.start.column, e.span.stop.line, e.span.stop.column⟩

def text (h : SourceHint) : Text :=
  let path := Text.trim h.path
  if path ≠ "" then
    if 0 < h.line ∧ 0 < h.column then path ++ ":" ++ toString h.line ++ ":" ++ toString h.column
    else if 0 < h.line then path ++ ":" ++ toString h.line
    else path
  else if 0 < h.line ∧ 0 < h.column then
    "line " ++ toString h.line ++ ", column " ++ toString h.column
  else if 0 < h.line then "line " ++ toString h.line
  else ""

def toJson (h : SourceHint) : Json :=
  let number (name : Text) (n : Int) : List (Text × Json) := if n = 0 then [] else [(name, .int n)]
  .obj ((if h.path = "" then [] else [("path", .str h.path)]) ++ number "line" h.line
    ++ number "column" h.column ++ number "endLine" h.endLine ++ number "endColumn" h.endColumn)

def read (current : SourceHint) : Json → Report.Draft SourceHint :=
  Json.readMembers (fun name j h => do
    match name with
    | "PATH" => return { h with path := ← Json.readText h.path j }
    | "LINE" => return { h with line := ← Json.readInt h.line j }
    | "COLUMN" => return { h with column := ← Json.readInt h.column j }
    | "ENDLINE" => return { h with endLine := ← Json.readInt h.endLine j }
    | "ENDCOLUMN" => return { h with endColumn := ← Json.readInt h.endColumn j }
    | _ => return h) current

end SourceHint

namespace ModuleDiagnostic

/-- A diagnostic in a line of text: where it is, or else in which module, and what it is. -/
def text (d : ModuleDiagnostic) : Text :=
  let message := Text.trim d.error.message
  let message := if d.error.kind = .unset then message else d.error.kind.name ++ ": " ++ message
  if d.source.text ≠ "" then "typechecker: " ++ d.source.text ++ " " ++ message
  else if d.module ≠ "" then "typechecker: " ++ d.module ++ ": " ++ message
  else "typechecker: " ++ message

def toJson (d : ModuleDiagnostic) : Json :=
  .obj [("module", .str d.module), ("error", d.error.toJson), ("source", d.source.toJson)]

def read : Json → Report.Draft ModuleDiagnostic :=
  Json.readMembers (fun name j d => do
    match name with
    | "MODULE" => return { d with module := ← Json.readText d.module j }
    | "ERROR" => return { d with error := ← Report.readError d.error j }
    | "SOURCE" => return { d with source := ← SourceHint.read d.source j }
    | _ => return d) {}

def ofJson (j : Json) : Except ReportError ModuleDiagnostic :=
  (read j).finish .shape

end ModuleDiagnostic

end Gradual
