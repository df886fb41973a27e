import Gradual.Json.Basic

/-! Faults of writing. Types, signatures and interfaces write themselves, and what one of them wrote is looked
through before it is put into what surrounds it. There a value that is nested too deep comes to light, and the
fault names each value around it that writes itself. -/

namespace Gradual.Json

/-- How a value is held: as a part of what it stands in, as a value of a type that writes itself, or as a
collection of such values. -/
inductive Holding where
  | part
  | self (type : Text)
  | each (type : Text)

namespace Holding

def ofMember : Text → Holding
  | "elem" | "key" | "value" => .self "*types.Ty"
  | "type" | "result" | "expected" | "found" => .self "types.Ty"
  | "elems" | "exports" => .each "types.Ty"
  | "sig" => .self "*types.Signature"
  | "interface" => .self "*typechecker.Interface"
  | _ => .part

/-- How a member of a value is held; the items of a list go by no name. -/
def inside (h : Holding) (name : Text) : Holding :=
  match h with
  | .each type => .self type
  | _ => ofMember name

end Holding

mutual

/-- The bracket that opens the first level beyond those there is room for. -/
def overflow? : Nat → Json → Option Char
  | 0, .arr _ => some '['
  | 0, .obj _ => some '\x7b'
  | room + 1, .arr items => overflowOfItems? room items
  | room + 1, .obj members => overflowOfMembers? room members
  | _, _ => none

def overflowOfItems? : Nat → List Json → Option Char
  | _, [] => none
  | room, j :: rest => overflow? room j <|> overflowOfItems? room rest

def overflowOfMembers? : Nat → List (Text × Json) → Option Char
  | _, [] => none
  | room, (_, j) :: rest => overflow? room j <|> overflowOfMembers? room rest

end

def depthFault (j : Json) : Text :=
  "invalid character '" ++ String.ofList (overflow? greatestDepth j).toList ++ "' exceeded max depth"

/-- The fault of a value, when that of what stands in it is known. -/
def Holding.fault? (h : Holding) (j : Json) (inner : Option Text) : Option Text :=
  match h with
  | .self type =>
    (inner <|> if j.isTooDeep then some (depthFault j) else none).map fun e =>
      "json: error calling MarshalJSON for type " ++ type ++ ": " ++ e
  | _ => inner

mutual

def faultWithin? : Holding → Json → Option Text
  | h, .arr items => h.fault? (.arr items) (faultOfItems? h items)
  | h, .obj members => h.fault? (.obj members) (faultOfMembers? h members)
  | _, _ => none

def faultOfItems? : Holding → List Json → Option Text
  | _, [] => none
  | h, j :: rest => faultWithin? (h.inside "") j <|> faultOfItems? h rest

def faultOfMembers? : Holding → List (Text × Json) → Option Text
  | _, [] => none
  | h, (name, j) :: rest => faultWithin? (h.inside name) j <|> faultOfMembers? h rest

end

/-- Why a value cannot be written. -/
def fault? (h : Holding) (j : Json) : Option Text :=
  if j.isTooDeep then some ((faultWithin? h j).getD (depthFault j)) else none

end Gradual.Json
