import Gradual.Oracle.Rules
import Gradual.Text.Space
import Gradual.Yaml.Document
import Gradual.Yaml.Record

/-! The configuration of a check. It is written in YAML; what is left out has a default. -/

namespace Gradual

/-- What a configuration file says, before it is looked at. -/
structure ConfigText where
  mode : Text := ""
  fatal : Bool := false
  jobs : Option Int := none
  docs : List Text := []
  cacheDir : Text := ""
  deriving DecidableEq, Repr

/-- How a project is checked. Without a number of jobs the machine decides. -/
structure Config where
  path : Text := ""
  mode : Mode := .lint
  fatal : Bool := false
  jobs : Option Int := none
  docs : List Text := []
  cacheDir : Text := ""
  deriving DecidableEq, Repr

inductive ConfigIssue where
  | mode (name : Text)
  | jobs (n : Int)
  | blankDocs (index : Nat)
  | docsFormat (index : Nat) (path : Text)
  deriving DecidableEq, Repr

def ConfigIssue.message : ConfigIssue → Text
  | .mode name => "mode must be lint or compiler, got " ++ Text.quoted name
  | .jobs n => "jobs must be at least 1, got " ++ toString n
  | .blankDocs i => "docs[" ++ toString i ++ "] must be a non-empty path"
  | .docsFormat i path =>
    "docs[" ++ toString i ++ "] " ++ Text.quoted path ++ " must be a .yml, .yaml, .json or .hujson file"

inductive ConfigTextError where
  | unreadable
  | invalid (issues : List ConfigIssue)
  deriving DecidableEq, Repr

def ConfigTextError.message : ConfigTextError → Text
  | .unreadable => "parse"
  | .invalid issues =>
    "config validation failed:" ++ String.join (issues.map fun i => "\n- " ++ i.message)

namespace Text

def extension (path : Text) : Text :=
  let last := (path.toList.reverse.takeWhile (· != '/'))
  if last.contains '.' then String.ofList ('.' :: (last.takeWhile (· != '.')).reverse) else ""

end Text

namespace ConfigText

def ofYaml : Yaml → Yaml.Reading (Option ConfigText) :=
  Yaml.readMembers (fun name y (c : ConfigText) => do
    match name with
    | "mode" => return { c with mode := (← Yaml.readText y).getD c.mode }
    | "fatal" => return { c with fatal := (← Yaml.readBool y).getD c.fatal }
    | "jobs" => return { c with jobs := ← Yaml.readInt y }
    | "docs" => return { c with docs := (← Yaml.readList Yaml.readText y).getD [] }
    | "cache_dir" => return { c with cacheDir := (← Yaml.readText y).getD c.cacheDir }
    | _ => failure) {}

def parse (text : Text) : Option ConfigText :=
  match Yaml.parse text with
  | .malformed => none
  | .empty => some {}
  | .value y => (Yaml.readDocument ofYaml y).map (·.getD {})

def docsIssue (index : Nat) (path : Text) : Option ConfigIssue :=
  if Text.isBlankText path then some (.blankDocs index)
  else if [".yml", ".yaml", ".json", ".hujson"].contains (Text.extension path).toLower then none
  else some (.docsFormat index path)

def issues (c : ConfigText) : List ConfigIssue :=
  (if (Mode.ofName? c.mode).isNone then [.mode c.mode] else [])
    ++ (c.jobs.filter (· < 1)).toList.map .jobs
    ++ (c.docs.zipIdx).filterMap fun (path, i) => docsIssue i path

end ConfigText

namespace Config

def fileName : Text := "starcheck.yml"

def decode (text : Text) : Except ConfigTextError Config :=
  match ConfigText.parse text with
  | none => .error .unreadable
  | some c =>
    match c.issues with
    | [] =>
      .ok { mode := (Mode.ofName? c.mode).getD .lint
            fatal := c.fatal
            jobs := c.jobs
            docs := c.docs
            cacheDir := Text.trim c.cacheDir }
    | issues => .error (.invalid issues)

end Config

end Gradual
