import Gradual.NameMap
import Gradual.Ty.Text

/-! The normal form of types. The alternatives of a normal type stand in strictly increasing order of
their texts, `Any` stands alone, the fields of a struct stand in strictly increasing order of name, and
the same holds of every type inside. The operations here build normal types from normal types. -/

namespace Gradual

/-- The alternatives with `a` at its place; one of the same text that is there already stays. -/
def Alt.insert (a : Alt) : List Alt → List Alt
  | [] => [a]
  | b :: rest =>
    if a.text < b.text then a :: b :: rest
    else if a.text = b.text then b :: rest
    else b :: Alt.insert a rest

namespace Ty

/-- The type of a list of alternatives. `Any` absorbs the others, and of several alternatives of one
text the first counts. -/
def ofAlts (alts : List Alt) : Ty :=
  if alts.any Alt.isAny then any
  else ⟨alts.foldl (fun sorted a => a.insert sorted) []⟩

def union (ts : List Ty) : Ty :=
  ofAlts (ts.flatMap Ty.alts)

def map (f : Alt → Ty) (t : Ty) : Ty :=
  union (t.alts.map f)

/-- Whether two types have the same alternatives, as told by their texts. -/
def equal (t u : Ty) : Bool :=
  t.alts.map Alt.text == u.alts.map Alt.text

/-- The struct type of a list of fields; of several fields of one name the last one counts. -/
def struct (fields : List (Text × Ty)) (isOpen : Bool) : Ty :=
  only (.struct (NameMap.ofList fields).entries isOpen)

end Ty

namespace Alt

/-- The type of the elements that iterating over the alternative yields. -/
def iterElem? : Alt → Option Ty
  | .any => some .any
  | .list elem | .tupleOf elem | .iterable elem => some elem
  | .tuple elems => some (Ty.union elems)
  | .dict key _ => some key
  | .custom _ (some host) => host.iter
  | _ => none

def elementUnion? : Alt → Option Ty
  | .tuple elems => some (Ty.union elems)
  | .tupleOf elem => some elem
  | _ => none

def field? (a : Alt) (name : Text) : Option Ty :=
  match a with
  | .struct fields _ => NameMap.bisect name fields
  | _ => none

def hostCalls : Option Host → Bool
  | some host => host.call.isSome
  | none => false

end Alt

/-- The type of the elements that iterating over a type yields; what cannot be iterated over
contributes `Any`. -/
def Ty.element (t : Ty) : Ty :=
  t.map fun a => a.iterElem?.getD .any

mutual

/-- Whether `Any` occurs in a type, inside containers and results included. An open struct and a
callable without a signature count as holding it. -/
def Ty.hasAny : Ty → Bool
  | ⟨alts⟩ => Alt.someHasAny alts

def Alt.someHasAny : List Alt → Bool
  | [] => false
  | a :: rest => a.hasAny || Alt.someHasAny rest

def Alt.hasAny : Alt → Bool
  | .any => true
  | .prim _ => false
  | .list elem | .tupleOf elem | .iterable elem => elem.hasAny
  | .tuple elems => Ty.someHasAny elems
  | .dict key value => key.hasAny || value.hasAny
  | .function none => true
  | .function (some ⟨_, result⟩) => result.hasAny
  | .struct fields isOpen => Ty.fieldHasAny fields || isOpen
  | .custom _ _ => false

def Ty.someHasAny : List Ty → Bool
  | [] => false
  | t :: rest => t.hasAny || Ty.someHasAny rest

def Ty.fieldHasAny : List (Text × Ty) → Bool
  | [] => false
  | (_, t) :: rest => t.hasAny || Ty.fieldHasAny rest

end

end Gradual
