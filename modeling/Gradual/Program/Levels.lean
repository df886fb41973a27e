import Gradual.NameMap
import Gradual.Program.Basic

/-! The order in which the modules of a program are checked. Modules are put into levels such that all
loads of a module that are in the program lie in earlier levels. -/

namespace Gradual

inductive LevelError where
  | missingTree
  | duplicate (id : Text)
  | cycle (id : Text)
  deriving DecidableEq, Repr

def LevelError.message : LevelError → Text
  | .missingTree => "typechecker: program contains a nil module"
  | .duplicate id => "typechecker: duplicate module " ++ id
  | .cycle id => "typechecker: load cycle detected at module " ++ id

namespace Levels

/-- The first module without a tree or with the name of an earlier one. -/
def firstFault (seen : List Text) : List SourceModule → Option LevelError
  | [] => none
  | m :: rest =>
    if m.tree.isNone then some .missingTree
    else if seen.contains m.id then some (.duplicate m.id)
    else firstFault (m.id :: seen) rest

def within (modules : List SourceModule) (id : Text) : List Text :=
  match modules.find? (·.id == id) with
  | some m => m.loads.filter fun dep => modules.any (·.id == dep)
  | none => []

abbrev Depths := NameMap Nat

/-- The depth of a module: one more than the greatest depth of its loads, and zero without loads. Modules
whose depth is being sought are in `pending`; meeting one again is a cycle. Every step down adds one of
finitely many modules to them, which bounds `fuel`. -/
def depth (deps : Text → List Text) : Nat → List Text → Depths → Text → Except LevelError (Nat × Depths)
  | 0, _, _, id => .error (.cycle id)
  | fuel + 1, pending, known, id =>
    match known.get? id with
    | some d => .ok (d, known)
    | none =>
      if pending.contains id then .error (.cycle id)
      else do
        let (d, known) ← (deps id).foldlM (fun (d, known) dep => do
          let (below, known) ← depth deps fuel (id :: pending) known dep
          return (max d (below + 1), known)) (0, known)
        return (d, known.insert id d)

def depths (modules : List SourceModule) : Except LevelError Depths :=
  modules.foldlM (fun known m => do
    let (_, known) ← depth (within modules) (modules.length + 1) [] known m.id
    return known) .empty

def depthOf (known : Depths) (m : SourceModule) : Nat :=
  (known.get? m.id).getD 0

def byDepth (modules : List SourceModule) (known : Depths) : List (List SourceModule) :=
  let height := modules.foldl (fun h m => max h (depthOf known m + 1)) 0
  (List.range height).map fun d => modules.filter fun m => depthOf known m == d

end Levels

def dependencyLevels (modules : List SourceModule) : Except LevelError (List (List SourceModule)) :=
  match Levels.firstFault [] modules with
  | some e => .error e
  | none => (Levels.depths modules).map (Levels.byDepth modules)

end Gradual
