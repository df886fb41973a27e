import Gradual.Ty.Normal

/-! Attaching hosts. A type that was read from a text or from JSON knows custom types by name only;
attaching gives every custom type outside signatures the host registered for its name. -/

namespace Gradual

mutual

/-- The type with the hosts of `lookup` attached to its custom types. -/
def Ty.attach (lookup : Text → Option Host) : Ty → Ty
  | ⟨alts⟩ => Ty.ofAlts (Alt.attachAll lookup alts)

def Alt.attachAll (lookup : Text → Option Host) : List Alt → List Alt
  | [] => []
  | a :: rest => a.attach lookup :: Alt.attachAll lookup rest

def Alt.attach (lookup : Text → Option Host) : Alt → Alt
  | .list elem => .list (elem.attach lookup)
  | .tuple elems => .tuple (Ty.attachAll lookup elems)
  | .tupleOf elem => .tupleOf (elem.attach lookup)
  | .dict key value => .dict (key.attach lookup) (value.attach lookup)
  | .iterable elem => .iterable (elem.attach lookup)
  | .struct fields isOpen => .struct (Ty.attachFields lookup fields) isOpen
  | .custom name host => .custom name (lookup name <|> host)
  | .any => .any
  | .prim p => .prim p
  | .function sig => .function sig

def Ty.attachAll (lookup : Text → Option Host) : List Ty → List Ty
  | [] => []
  | t :: rest => t.attach lookup :: Ty.attachAll lookup rest

def Ty.attachFields (lookup : Text → Option Host) : List (Text × Ty) → List (Text × Ty)
  | [] => []
  | (name, t) :: rest => (name, t.attach lookup) :: Ty.attachFields lookup rest

end

end Gradual
