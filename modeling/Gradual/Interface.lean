import Gradual.Diagnostic
import Gradual.Scope
import Gradual.Ty.Wire

/-! Interfaces: the names that a module exports, with their types. -/

namespace Gradual

structure Interface where
  exports : NameMap Ty := .empty

namespace Interface

instance : Inhabited Interface := ⟨{}⟩

def ofFrame (f : Frame) (isExported : Text → Bool) : Interface :=
  ⟨(f.symbols.filter fun name _ => isExported name).map (·.type)⟩

def get? (i : Interface) (name : Text) : Option Ty :=
  i.exports.get? name

def names (i : Interface) : List Text :=
  i.exports.names

def size (i : Interface) : Nat :=
  i.exports.size

def equal (i other : Interface) : Bool :=
  i.size == other.size && i.exports.entries.all fun (name, t) =>
    match other.get? name with
    | some u => u.equal t
    | none => false

def toJson (i : Interface) : Json :=
  .obj [("exports", .obj (i.exports.entries.map fun (name, t) => (name, t.toJson)))]

abbrev Draft := Json.Draft WireError

def readExports (current : NameMap Ty) : Json → Draft (NameMap Ty)
  | .obj members =>
    members.foldlM (fun m (name, j) => do return m.insert name (← .take (Ty.ofJson j))) current
  | .null => return .empty
  | _ => .misshapen

def read : Json → Draft Interface :=
  Json.readMembers (fun name j i => do
    match name with
    | "EXPORTS" => return ⟨← readExports i.exports j⟩
    | _ => return i) {}

def ofJson (j : Json) : Except WireError Interface :=
  (read j).finish .shape

end Interface

end Gradual
