import Gradual.Text.Quoted
import Gradual.Ty.Text

/-! Signatures. Parameters stand in the order positional-only, positional-or-named, the collector of
positional arguments, named-only, the collector of named arguments; each collector occurs at most once
and no two parameters share a name. -/

namespace Gradual

inductive SignatureError where
  | outOfOrder (name : Text) (mode : ParamMode)
  | repeatedCollector (name : Text)
  | duplicate (name : Text)
  deriving DecidableEq, Repr

def SignatureError.message : SignatureError → Text
  | .outOfOrder name mode =>
    "types: parameter " ++ Text.quoted name ++ " (" ++ mode.name ++ ") out of order"
  | .repeatedCollector name => "types: parameter " ++ Text.quoted name ++ " repeats a variadic kind"
  | .duplicate name => "types: duplicate parameter " ++ Text.quoted name

def ParamMode.unknownMessage (name : Text) : Text :=
  "types: unknown parameter kind " ++ Text.quoted name

namespace Param

def required (name : Text) (type : Ty) : Param := ⟨.posOrNamed, name, type, false⟩

def optionally (name : Text) (type : Ty) : Param := ⟨.posOrNamed, name, type, true⟩

def posOnly (name : Text) (type : Ty) (optional : Bool) : Param := ⟨.posOnly, name, type, optional⟩

def namedOnly (name : Text) (type : Ty) (optional : Bool) : Param := ⟨.namedOnly, name, type, optional⟩

def args (name : Text) (type : Ty) : Param := ⟨.args, name, type, true⟩

def kwargs (name : Text) (type : Ty) : Param := ⟨.kwargs, name, type, true⟩

end Param

namespace Signature

/-- The fault of parameter `p` after parameters of which `last` is the mode of the last one and `seen`
the names. Parameters without a name never collide. -/
def faultOf (last : ParamMode) (seen : List Text) (p : Param) : Option SignatureError :=
  if p.mode.rank < last.rank then some (.outOfOrder p.name p.mode)
  else if p.mode.isVariadic && p.mode == last then some (.repeatedCollector p.name)
  else if p.name != "" && seen.contains p.name then some (.duplicate p.name)
  else none

def firstFault (last : ParamMode) (seen : List Text) : List Param → Option SignatureError
  | [] => none
  | p :: rest =>
    match faultOf last seen p with
    | some e => some e
    | none => firstFault p.mode (p.name :: seen) rest

/-- The signature of a parameter list and a result; a parameter typed `Never` takes anything. -/
def make (params : List Param) (result : Ty) : Except SignatureError Signature :=
  match firstFault .posOnly [] params with
  | some e => .error e
  | none => .ok ⟨params.map fun p => { p with type := p.type.orAny }, result⟩

def withResult (sig : Signature) (result : Ty) : Signature :=
  { sig with result := result }

end Signature

end Gradual
