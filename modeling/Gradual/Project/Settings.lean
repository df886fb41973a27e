import Gradual.Config
import Gradual.Digest.Sha256
import Gradual.Disk.Basic
import Gradual.Oracle.Docs
import Gradual.Oracle.Standard

/-! Configurations and docs on a disk. -/

namespace Gradual

inductive DocsError where
  | read (path : Text) (e : DiskError)
  | unreadable (path : Text)
  | issues (found : List DocIssue)

def DocsError.message : DocsError → Text
  | .read path e => "oracle: read docs " ++ path ++ ": " ++ e.message
  | .unreadable path => "oracle: " ++ path ++ ": " ++ DocFile.unreadableMessage
  | .issues found => DocIssue.messages found

/-- Loads docs: YAML if the ending of the path says so, and JSON otherwise. -/
def Docs.load (d : Disk) (path : Text) : Except DocsError Docs := do
  let text ← (d.read path).mapError (.read path)
  let isYaml := [".yml", ".yaml"].contains (Text.extension path).toLower
  match if isYaml then DocFile.ofYaml text else DocFile.ofJson text with
  | some file => (Docs.ofFile file).mapError .issues
  | none => throw (.unreadable path)

inductive ConfigError where
  | emptyPath
  | read (path : Text) (e : DiskError)
  | text (path : Text) (e : ConfigTextError)

def ConfigError.message : ConfigError → Text
  | .emptyPath => "config: empty path"
  | .read path e => "config: open " ++ path ++ ": " ++ e.message
  | .text path e => "config: " ++ path ++ ": " ++ e.message

namespace Config

/-- The configuration with its relative paths taken from the directory of its file. -/
def placed (c : Config) (path : Text) : Config :=
  let base := Path.parent path
  let from_ (p : Text) : Text := if Path.isAbsolute p then p else Path.join base p
  { c with
    path := path
    docs := c.docs.map from_
    cacheDir := if c.cacheDir = "" then "" else from_ c.cacheDir }

/-- Loads a configuration. A directory holds none that can be read. -/
def load (d : Disk) (path : Text) : Except ConfigError Config :=
  if path = "" then .error .emptyPath
  else
    let file := Path.absolute d.workingDirectory path
    match d.find file with
    | .error cause => .error (.read file ⟨"open", file, cause⟩)
    | .ok .directory => .error (.text file .unreadable)
    | .ok (.file text) =>
      match decode text with
      | .ok c => .ok (c.placed file)
      | .error e => .error (.text file e)

def loadOrDefault (d : Disk) (path : Text) : Except ConfigError Config :=
  match d.find path with
  | .error .notFound => .ok {}
  | _ => load d path

/-- The oracle of a configuration: its docs in order, and then the standard one. -/
def oracle (c : Config) (d : Disk) : Except DocsError Oracle := do
  let docs ← c.docs.mapM (Docs.load d)
  return .chain (docs.map Docs.oracle ++ [.standard])

def oracleMessage (e : DocsError) : Text :=
  "config: " ++ e.message

/-- The text that the key of an oracle is the digest of, part by part. -/
def oracleKeyText (d : Disk) : List Text → Except (Text × DiskError) Text
  | [] => .ok ""
  | path :: rest => do
    let text ← (d.read path).mapError fun e => (path, e)
    let others ← oracleKeyText d rest
    return "docs=" ++ path ++ "\n" ++ toString text.length ++ "\n" ++ text ++ others

def oracleKey (c : Config) (d : Disk) : Except (Text × DiskError) Text :=
  (oracleKeyText d c.docs).map Sha256.hex

def oracleKeyMessage (e : Text × DiskError) : Text :=
  "config: read docs " ++ e.1 ++ ": " ++ e.2.message

end Config

end Gradual
