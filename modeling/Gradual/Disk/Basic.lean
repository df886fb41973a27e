import Gradual.Disk.Path
import Gradual.NameMap

/-! Files and directories as a value. Whatever reads or writes files takes a disk and gives one back. A
path is followed part by part: every part but the last must be a directory. -/

namespace Gradual

inductive DiskCause where
  | notFound
  | notDirectory
  | isDirectory
  | alreadyThere
  | nameTooLong
  | notEmpty
  | invalid
  deriving DecidableEq, Repr

def DiskCause.text : DiskCause → Text
  | .notFound => "no such file or directory"
  | .notDirectory => "not a directory"
  | .isDirectory => "is a directory"
  | .alreadyThere => "file exists"
  | .nameTooLong => "file name too long"
  | .notEmpty => "directory not empty"
  | .invalid => "invalid argument"

structure DiskError where
  operation : Text
  path : Text
  cause : DiskCause
  deriving DecidableEq, Repr

def DiskError.message (e : DiskError) : Text :=
  e.operation ++ " " ++ e.path ++ ": " ++ e.cause.text

/-- Files and directories by their absolute paths, and the working directory. The root is always there. -/
structure Disk where
  workingDirectory : Text := "/"
  files : NameMap Text := .empty
  directories : NameSet := .empty

inductive DiskEntry where
  | file (contents : Text)
  | directory

/-- A place on a disk: the names on the way to it, the last one first. -/
abbrev Place := List Text

namespace Disk

def pathOf (place : Place) : Text :=
  "/" ++ Text.join "/" place.reverse

def placeOf (path : Text) : Place :=
  ((Path.parts path).filter (· ≠ "")).reverse

def entry? (d : Disk) (place : Place) : Option DiskEntry :=
  if place.isEmpty then some .directory
  else
    match d.files.get? (pathOf place) with
    | some contents => some (.file contents)
    | none => if d.directories.contains (pathOf place) then some .directory else none

def longestName : Nat := 255

def longestPath : Nat := 4095

def follow (d : Disk) (here : Place) : List Text → Except DiskCause Place
  | [] => .ok here
  | part :: rest =>
    match d.entry? here with
    | none => .error .notFound
    | some (.file _) => .error .notDirectory
    | some .directory =>
      if part = "" ∨ part = "." then d.follow here rest
      else if part = ".." then d.follow here.tail rest
      else if longestName < part.length then .error .nameTooLong
      else d.follow (part :: here) rest

/-- The place that a path leads to from a place; nothing need stand there. No path has a zero byte. -/
def locateFrom (d : Disk) (here : Place) (path : Text) : Except DiskCause Place :=
  if path = "" then .error .notFound
  else if path.toList.contains '\x00' then .error .invalid
  else if longestPath < path.length then .error .nameTooLong
  else d.follow here (Path.parts path)

def locate (d : Disk) (path : Text) : Except DiskCause Place :=
  d.locateFrom (if Path.isAbsolute path then [] else placeOf d.workingDirectory) path

def find (d : Disk) (path : Text) : Except DiskCause DiskEntry :=
  match d.locate path with
  | .error cause => .error cause
  | .ok place =>
    match d.entry? place with
    | some e => .ok e
    | none => .error .notFound

def isDirectory (d : Disk) (path : Text) : Except DiskError Bool :=
  match d.find path with
  | .ok .directory => .ok true
  | .ok (.file _) => .ok false
  | .error cause => .error ⟨"stat", path, cause⟩

def read (d : Disk) (path : Text) : Except DiskError Text :=
  match d.find path with
  | .ok (.file contents) => .ok contents
  | .ok .directory => .error ⟨"read", path, .isDirectory⟩
  | .error cause => .error ⟨"open", path, cause⟩

def write (d : Disk) (path contents : Text) : Except DiskError Unit × Disk :=
  match d.locate path with
  | .error cause => (.error ⟨"open", path, cause⟩, d)
  | .ok place =>
    match d.entry? place with
    | some .directory => (.error ⟨"open", path, .isDirectory⟩, d)
    | _ => (.ok (), { d with files := d.files.insert (pathOf place) contents })

def dropSlashes (path : Text) : Text :=
  String.ofList (path.toList.reverse.dropWhile (· == '/')).reverse

def dropLastPart (path : Text) : Text :=
  String.ofList ((path.toList.reverse.dropWhile (· == '/')).dropWhile (· != '/')).reverse

def makeDirectory (d : Disk) (path : Text) : Except DiskError Unit × Disk :=
  match if longestPath < path.length then .error .nameTooLong else d.locate (dropSlashes path) with
  | .error cause => (.error ⟨"mkdir", path, cause⟩, d)
  | .ok place =>
    match d.entry? place with
    | none => (.ok (), { d with directories := d.directories.insert (pathOf place) () })
    | some _ =>
      match d.isDirectory path with
      | .ok true => (.ok (), d)
      | _ => (.error ⟨"mkdir", path, .alreadyThere⟩, d)

/-- Makes a directory and those on the way to it; `fuel` bounds the length of the path. -/
def makeDirectoriesWithin : Nat → Disk → Text → Except DiskError Unit × Disk
  | 0, d, path => (.error ⟨"mkdir", path, .invalid⟩, d)
  | fuel + 1, d, path =>
    match d.isDirectory path with
    | .ok true => (.ok (), d)
    | .ok false => (.error ⟨"mkdir", path, .notDirectory⟩, d)
    | .error _ =>
      if dropLastPart path = "" then d.makeDirectory path
      else
        match makeDirectoriesWithin fuel d (dropLastPart path) with
        | (.ok (), d) => d.makeDirectory path
        | (.error e, d) => (.error e, d)

def makeDirectories (d : Disk) (path : Text) : Except DiskError Unit × Disk :=
  makeDirectoriesWithin (path.length + 1) d path

def isBelow (place : Place) (path : Text) : Bool :=
  place.isEmpty || Text.startsWith path (pathOf place ++ "/")

def erase (d : Disk) (place : Place) : Disk :=
  { d with files := d.files.erase (pathOf place), directories := d.directories.erase (pathOf place) }

def eraseBelow (d : Disk) (place : Place) : Disk :=
  { d with
    files := d.files.filter fun p _ => !isBelow place p
    directories := d.directories.filter fun p _ => !isBelow place p }

def isEmptyAt (d : Disk) (place : Place) : Bool :=
  !(d.files.names ++ d.directories.names).any (isBelow place)

/-- Why a directory cannot be removed under a name: it is not removed as the directory that one is in, nor
as the one above that. -/
def nameFault? (name : Text) : Option DiskCause :=
  if name = "." then some .invalid
  else if name = ".." then some .notEmpty
  else none

def remove (d : Disk) (path : Text) : Except DiskCause Disk := do
  let place ← d.locate path
  match d.entry? place with
  | none => throw .notFound
  | some (.file _) => return d.erase place
  | some .directory =>
    match nameFault? (Path.split path).2 with
    | some cause => throw cause
    | none => if d.isEmptyAt place then return d.erase place else throw .notEmpty

/-- Removes what has a name in a directory, with all that is in it; there need not be anything. What is in
it goes even if it cannot go itself. -/
def removeTree (d : Disk) (parent : Text) (here : Place) (name : Text) : Except DiskError Unit × Disk :=
  let failed (cause : DiskCause) : Except DiskError Unit := .error ⟨"unlinkat", parent ++ "/" ++ name, cause⟩
  match d.locateFrom here name with
  | .error .notFound => (.ok (), d)
  | .error cause => (failed cause, d)
  | .ok place =>
    match d.entry? place with
    | none => (.ok (), d)
    | some (.file _) => (.ok (), d.erase place)
    | some .directory =>
      match nameFault? name with
      | some cause => (failed cause, d.eraseBelow place)
      | none => (.ok (), (d.eraseBelow place).erase place)

def removeAll (d : Disk) (path : Text) : Except DiskError Unit × Disk :=
  if path = "" then (.ok (), d)
  else if path = "." || Text.endsWith path "/." then (.error ⟨"RemoveAll", path, .invalid⟩, d)
  else
    match d.remove path with
    | .ok d => (.ok (), d)
    | .error .notFound => (.ok (), d)
    | .error _ =>
      let (parent, name) := Path.split path
      match d.locate parent with
      | .error .notFound => (.ok (), d)
      | .error cause => (.error ⟨"open", parent, cause⟩, d)
      | .ok here => d.removeTree parent here name

/-- The paths below a directory of all files in it, relative to it, in increasing order. -/
def filesBelow (d : Disk) (path : Text) : List Text :=
  match d.locate path with
  | .error _ => []
  | .ok place =>
    let start := if place.isEmpty then "/" else pathOf place ++ "/"
    d.files.names.filterMap fun p => if Text.startsWith p start then some (Text.dropStart p start) else none

def namesIn (d : Disk) (path : Text) : List Text :=
  match d.locate path with
  | .error _ => []
  | .ok place =>
    let start := if place.isEmpty then "/" else pathOf place ++ "/"
    sortedDistinct ((d.files.names ++ d.directories.names).filterMap fun p =>
      if Text.startsWith p start then (Path.parts (Text.dropStart p start)).head? else none)

end Disk

end Gradual
