import Gradual.Text.Bytes

/-! JSON values. Numbers keep the text they were written with, and objects keep all their members in
order, so that nothing a reader may care about is lost. -/

namespace Gradual

inductive Json where
  | null
  | bool (b : Bool)
  | num (text : Text)
  | str (text : Text)
  | arr (items : List Json)
  | obj (members : List (Text × Json))
  deriving Inhabited

namespace Json

def int (n : Int) : Json :=
  .num (toString n)

/-- The last member of a name among members. -/
def memberOf? (members : List (Text × Json)) (name : Text) : Option Json :=
  (members.reverse.find? (·.1 == name)).map (·.2)

def get? (j : Json) (name : Text) : Option Json :=
  match j with
  | .obj members => memberOf? members name
  | _ => none

def str? : Json → Option Text
  | .str t => some t
  | _ => none

def arr? : Json → Option (List Json)
  | .arr items => some items
  | _ => none

def obj? : Json → Option (List (Text × Json))
  | .obj members => some members
  | _ => none

def num? : Json → Option Text
  | .num t => some t
  | _ => none

def bool? : Json → Option Bool
  | .bool b => some b
  | _ => none

def isNull : Json → Bool
  | .null => true
  | _ => false

mutual

/-- How deep arrays and objects are nested in a value. -/
def depth : Json → Nat
  | .arr items => depthOfItems items + 1
  | .obj members => depthOfMembers members + 1
  | _ => 0

def depthOfItems : List Json → Nat
  | [] => 0
  | j :: rest => max (depth j) (depthOfItems rest)

def depthOfMembers : List (Text × Json) → Nat
  | [] => 0
  | (_, j) :: rest => max (depth j) (depthOfMembers rest)

end

def greatestDepth : Nat := 10000

def isTooDeep (j : Json) : Bool :=
  greatestDepth < j.depth

end Json

end Gradual
