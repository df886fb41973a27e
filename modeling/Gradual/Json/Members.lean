import Gradual.Json.Basic

/-! The members of an object, each with the proof that it is smaller than the object, by which readers of
nested objects recurse. -/

namespace Gradual.Json

abbrev Members := List (Text × Json)

theorem sizeOf_lt_of_mem_members {name : Text} {j : Json} {members : Members} (h : (name, j) ∈ members) :
    sizeOf j < sizeOf members := by
  have pair := List.sizeOf_lt_of_mem h
  have second : sizeOf j < sizeOf (name, j) := by
    simp only [Prod.mk.sizeOf_spec]
    omega
  omega

theorem sizeOf_memberOf_lt {members : Members} {name : Text} {j : Json}
    (h : memberOf? members name = some j) : sizeOf j < sizeOf members := by
  unfold memberOf? at h
  obtain ⟨⟨found, k⟩, hfind, rfl⟩ := Option.map_eq_some_iff.1 h
  exact sizeOf_lt_of_mem_members (List.mem_reverse.1 (List.mem_of_find?_eq_some hfind))

def objectMember? (members : Members) (name : Text) : Option { inner : Members // sizeOf inner < sizeOf members } :=
  match h : memberOf? members name with
  | some (.obj inner) => some ⟨inner, by
      have := sizeOf_memberOf_lt h
      simp only [Json.obj.sizeOf_spec] at this
      omega⟩
  | _ => none

def arrayMember (members : Members) (name : Text) : List { item : Json // sizeOf item < sizeOf members } :=
  match h : memberOf? members name with
  | some (.arr items) => items.attach.map fun ⟨item, hmem⟩ => ⟨item, by
      have outer := sizeOf_memberOf_lt h
      have inner := List.sizeOf_lt_of_mem hmem
      simp only [Json.arr.sizeOf_spec] at outer
      omega⟩
  | _ => []

def textMember (members : Members) (name : Text) : Text :=
  ((memberOf? members name).bind str?).getD ""

/-- What kind of value this is, in the words of error messages. -/
def shape : Json → Text
  | .null => "<nil>"
  | .bool _ => "bool"
  | .num _ => "json.Number"
  | .str _ => "string"
  | .arr _ => "[]interface \x7b\x7d"
  | .obj _ => "map[string]interface \x7b\x7d"

end Gradual.Json
