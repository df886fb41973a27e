import Gradual.Json.Basic
import Gradual.Json.Number

/-! Reading JSON objects into records. Members are found by name whatever the case of its letters, a
`null` leaves what is there, and members of other names are passed over. A member that is given again is
read over what it was before. The first thing that is wrong ends the reading. -/

namespace Gradual.Json

/-- What ends the reading of a value: a part of the wrong shape, or an error of the part's own kind. -/
inductive Fault (ε : Type) where
  | shape
  | inside (e : ε)
  deriving DecidableEq, Repr

abbrev Draft (ε : Type) := Except (Fault ε)

namespace Draft

variable {ε α : Type}

def misshapen : Draft ε α :=
  .error .shape

def fail (e : ε) : Draft ε α :=
  .error (.inside e)

def take (part : Except ε α) : Draft ε α :=
  part.mapError .inside

def finish (reading : Draft ε α) (shape : ε) : Except ε α :=
  reading.mapError fun
    | .shape => shape
    | .inside e => e

end Draft

/-- A letter in upper case. The long s and the Kelvin sign count as the letters they are variants of. -/
def foldChar (c : Char) : Char :=
  if c.toNat = 0x17F then 'S' else if c.toNat = 0x212A then 'K' else c.toUpper

def foldName (name : Text) : Text :=
  Text.encode ((Text.toGlyphs name).map fun
    | .char c => foldChar c
    | .stray b => b)

variable {ε α : Type}

def readText (current : Text) : Json → Draft ε Text
  | .str t => return t
  | .null => return current
  | _ => .misshapen

def readBool (current : Bool) : Json → Draft ε Bool
  | .bool b => return b
  | .null => return current
  | _ => .misshapen

def readInt (current : Int) : Json → Draft ε Int
  | .null => return current
  | .num t =>
    match Decimal.int? t with
    | some n => return n
    | none => .misshapen
  | _ => .misshapen

/-- A record read member by member, beginning with `current`. -/
def readMembers (member : Text → Json → α → Draft ε α) (current : α) : Json → Draft ε α
  | .obj members => members.foldlM (fun r (name, j) => member (foldName name) j r) current
  | .null => return current
  | _ => .misshapen

/-- The items of a list that may be given again. A list that is shorter than the one before it leaves the
further items of that one in place: they are not shown, but the items of a longer list are read over
them. -/
structure Items (α : Type) where
  shown : List α := []
  hidden : List α := []

namespace Items

def all (items : Items α) : List α :=
  items.shown ++ items.hidden

/-- The items once `shown` were read over the first ones. After an empty list nothing is left. -/
def shift (items : Items α) (shown : List α) : Items α :=
  if shown.isEmpty then {} else ⟨shown, items.all.drop shown.length⟩

end Items

/-- Reads items over those of `old`, and over `blank` beyond their end. -/
def readOver (blank : α) (item : α → Json → Draft ε α) : List α → List Json → Draft ε (List α)
  | _, [] => return []
  | [], j :: rest => do
    let a ← item blank j
    return a :: (← readOver blank item [] rest)
  | a :: old, j :: rest => do
    let a ← item a j
    return a :: (← readOver blank item old rest)

/-- A list in place of `current`, which may be absent. -/
def readItems (blank : α) (item : α → Json → Draft ε α) (current : Option (Items α)) :
    Json → Draft ε (Option (Items α))
  | .arr items => do
    let current := current.getD {}
    return some (current.shift (← readOver blank item current.all items))
  | .null => return none
  | _ => .misshapen

end Gradual.Json
