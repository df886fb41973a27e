import Gradual.Disk.Basic
import Gradual.Program.Cache

/-! A cache in a directory, one file for each module. Modules whose names differ only in how they are
divided share a file, and the key tells them apart. -/

namespace Gradual

structure EntryStore where
  directory : Text

namespace EntryStore

def fileName (module : Text) : Text :=
  String.ofList (module.toList.flatMap fun c =>
    if c = '/' then ['_', '_'] else if c = ':' then ['_'] else [c])

def fileOf (s : EntryStore) (module : Text) : Text :=
  Path.join s.directory (fileName module ++ ".json")

/-- The entry of a module, if it answers for the key. -/
def get (s : EntryStore) (d : Disk) (module key : Text) : Option CacheEntry :=
  match d.read (s.fileOf module) with
  | .ok text => (CacheEntry.ofFileText text).filter (·.answers key)
  | .error _ => none

def put (s : EntryStore) (d : Disk) (module : Text) (entry : CacheEntry) : Except Text Unit × Disk :=
  match d.makeDirectories s.directory with
  | (.error e, d) => (.error ("typechecker: create cache dir: " ++ e.message), d)
  | (.ok (), d) =>
    match entry.toJson.fault? .part with
    | some e => (.error ("typechecker: encode cache entry for " ++ module ++ ": " ++ e), d)
    | none =>
      match d.write (s.fileOf module) entry.fileText with
      | (.error e, d) =>
        (.error ("typechecker: write cache entry for " ++ module ++ ": " ++ e.message), d)
      | (.ok (), d) => (.ok (), d)

def clear (s : EntryStore) (d : Disk) : Except Text Unit × Disk :=
  match d.removeAll s.directory with
  | (.error e, d) => (.error ("typechecker: clear cache: " ++ e.message), d)
  | (.ok (), d) => (.ok (), d)

def cache (s : EntryStore) : Cache Disk where
  get := s.get
  put := s.put

end EntryStore

end Gradual
