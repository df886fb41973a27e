import Gradual.Digest.Sha256
import Gradual.Disk.Basic
import Gradual.Json.Comments
import Gradual.Program.Basic
import Gradual.Syntax.Decode

/-! Loading programs. The tree of a module is in a file below the root whose name is the module's with
`.json` after it. A module is loaded after those that it loads. -/

namespace Gradual

inductive LoadError where
  | emptyRoot
  | stat (root : Text) (e : DiskError)
  | notDirectory (root : Text)
  | emptyEntry
  | entryNotFound (entry : Text)
  | cycle (id : Text)
  | selfLoad (id : Text)
  | read (path : Text) (e : DiskError)
  | tree (path : Text) (e : TreeError)

def LoadError.message : LoadError → Text
  | .emptyRoot => "loader: empty root"
  | .stat root e => "loader: stat root " ++ root ++ ": " ++ e.message
  | .notDirectory root => "loader: root " ++ root ++ " is not a directory"
  | .emptyEntry => "loader: empty entry module"
  | .entryNotFound entry => "loader: entry module " ++ entry ++ " not found"
  | .cycle id => "loader: load cycle detected at module " ++ id
  | .selfLoad id => "loader: module " ++ id ++ " loads itself"
  | .read path e => "loader: read " ++ path ++ ": " ++ e.message
  | .tree path e => "loader: " ++ path ++ ": " ++ e.message

/-- A directory below which modules are found, by its absolute path. -/
structure ModuleRoot where
  path : Text

namespace ModuleRoot

def ending : Text := ".json"

def open? (d : Disk) (path : Text) : Except LoadError ModuleRoot :=
  if path = "" then .error .emptyRoot
  else
    let root := Path.absolute d.workingDirectory path
    match d.isDirectory root with
    | .ok true => .ok ⟨root⟩
    | .ok false => .error (.notDirectory root)
    | .error e => .error (.stat root e)

def fileOf (r : ModuleRoot) (id : Text) : Text :=
  Path.join r.path (id ++ ending)

def loadsOf (m : Module) : List Text :=
  (m.loads.map moduleName).eraseDups

/-- The digest of a tree's text; comments do not count. -/
def digest (text : Text) : Text :=
  Sha256.hex (Json.blankComments text)

def readModule (r : ModuleRoot) (d : Disk) (id : Text) : Except LoadError (Option SourceModule) :=
  let path := r.fileOf id
  match d.read path with
  | .error e => if e.cause = .notFound then .ok none else .error (.read path e)
  | .ok text =>
    match Module.parse text with
    | .error e => .error (.tree path e)
    | .ok m =>
      .ok (some { id := id, path := path, loads := loadsOf m, hash := digest text, tree := some m })

/-- The modules loaded so far, each after those that it loads, and the names without a file. -/
structure Loaded where
  modules : List SourceModule := []
  missing : NameSet := .empty

def Loaded.isDone (l : Loaded) (id : Text) : Bool :=
  l.modules.any (·.id == id) || l.missing.contains id

/-- Loads a module after those that it loads. The modules on the way here are in `pending`; meeting one
again is a cycle. Every step down adds to them a name that some file loads, which bounds `fuel`. -/
def load (r : ModuleRoot) (d : Disk) : Nat → List Text → Loaded → Text → Except LoadError Loaded
  | 0, _, _, id => .error (.cycle id)
  | fuel + 1, pending, l, id =>
    if l.isDone id then .ok l
    else if pending.contains id then .error (.cycle id)
    else
      match r.readModule d id with
      | .error e => .error e
      | .ok none => .ok { l with missing := l.missing.insert id () }
      | .ok (some m) => do
        let l ← m.loads.foldlM (fun l dep =>
          if dep = id then .error (.selfLoad id) else r.load d fuel (id :: pending) l dep) l
        return { l with modules := l.modules ++ [m] }

def loadCount (d : Disk) : Nat :=
  (d.files.entries.map fun (_, text) =>
    match Module.parse text with
    | .ok m => m.loads.length
    | .error _ => 0).foldl (· + ·) 0

def loadEach (r : ModuleRoot) (d : Disk) (ids : List Text) : Except LoadError Loaded :=
  ids.foldlM (fun l id => r.load d (loadCount d + 2) [] l id) {}

def programOf (entry : Option SourceModule) (l : Loaded) : Program :=
  ⟨entry, l.modules, l.missing.names⟩

def program (r : ModuleRoot) (d : Disk) (entry : Text) : Except LoadError Program :=
  if entry = "" then .error .emptyEntry
  else do
    let id := moduleName entry
    let l ← r.loadEach d [id]
    match l.modules.find? (·.id == id) with
    | some m => return programOf (some m) l
    | none => throw (.entryNotFound entry)

def moduleNames (r : ModuleRoot) (d : Disk) : List Text :=
  sortedDistinct (((d.filesBelow r.path).filter fun p => Text.endsWith p ending).map fun p =>
    Text.dropEnd p ending)

def wholeProgram (r : ModuleRoot) (d : Disk) : Except LoadError Program :=
  (r.loadEach d (r.moduleNames d)).map (programOf none)

end ModuleRoot

end Gradual
