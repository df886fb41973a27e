import Gradual.Call

/-! Oracles supply the facts about built-in values that types alone do not give: attributes, operators
and the signatures of global functions. -/

namespace Gradual

inductive Fact where
  | unknown
  | known (type : Ty)
  | unsupported
  /-- The oracle has a rule for operands of these kinds, but the operands are not what the rule takes
  apart: a custom type may go by the name of a built-in kind. -/
  | broken

namespace Fact

def isUnknown : Fact → Bool
  | .unknown => true
  | _ => false

def status : Fact → Int
  | .known _ => 1
  | .unsupported => 2
  | .unknown | .broken => 0

def statusName : Int → Text
  | 1 => "known"
  | 2 => "unsupported"
  | _ => "unknown"

end Fact

/-- A source of facts. Unary operators, and results sharpened by the argument types of a call, are
questions that some oracles do not take. -/
structure Oracle where
  attr : Alt → Text → Fact
  binOp : Text → Alt → Alt → Fact
  signature : Text → Option Signature
  unOp : Option (Text → Alt → Fact) := none
  refine : Option (Text → List Arg → Option Ty) := none

namespace Oracle

def firstOpinion (ask : Oracle → Fact) : List Oracle → Fact
  | [] => .unknown
  | o :: rest => if (ask o).isUnknown then firstOpinion ask rest else ask o

/-- The answer of an oracle about a unary operator, if it takes the question. -/
def askUnOp (op : Text) (operand : Alt) (o : Oracle) : Fact :=
  match o.unOp with
  | some ask => ask op operand
  | none => .unknown

/-- The sharpened result of a call, from the first oracle that knows the function. -/
def chainRefine (name : Text) (args : List Arg) : List Oracle → Option Ty
  | [] => none
  | o :: rest =>
    match o.signature name with
    | none => chainRefine name args rest
    | some _ => o.refine.bind fun refine => refine name args

def chain (oracles : List Oracle) : Oracle where
  attr recv name := firstOpinion (fun o => o.attr recv name) oracles
  binOp op left right := firstOpinion (fun o => o.binOp op left right) oracles
  signature name := oracles.findSome? fun o => o.signature name
  unOp := some fun op operand => firstOpinion (askUnOp op operand) oracles
  refine := some fun name args => chainRefine name args oracles

end Oracle

end Gradual
