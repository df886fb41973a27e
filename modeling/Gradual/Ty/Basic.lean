import Gradual.Json.Basic

/-! Types. A type is a union of alternatives; `Never` is the union of none. The gradual unknown `Any`
is an alternative of its own. A custom type is known by its name and may carry a host, which describes
what values of that type can do. -/

namespace Gradual

inductive Primitive where
  | none
  | bool
  | int
  | float
  | str
  deriving DecidableEq, Repr

inductive ParamMode where
  | posOnly
  | posOrNamed
  | args
  | namedOnly
  | kwargs
  deriving DecidableEq, Repr

mutual

/-- A union of alternatives. -/
structure Ty where
  alts : List Alt

/-- A type that is not a union. -/
inductive Alt where
  /-- The gradual unknown, compatible with every type in both directions. -/
  | any
  | prim (p : Primitive)
  | list (elem : Ty)
  /-- A tuple of known length. -/
  | tuple (elems : List Ty)
  /-- A tuple of any length, all of whose elements have one type. -/
  | tupleOf (elem : Ty)
  | dict (key value : Ty)
  | iterable (elem : Ty)
  /-- A callable; without a signature it is some callable. -/
  | function (sig : Option Signature)
  /-- A record, its fields by increasing name; an open one may have fields beyond those listed. -/
  | struct (fields : List (Text × Ty)) (isOpen : Bool)
  | custom (name : Text) (host : Option Host)

structure Signature where
  params : List Param
  result : Ty

structure Param where
  mode : ParamMode
  name : Text
  type : Ty
  optional : Bool

/-- What a host says of its values, each capability on its own: the types of their attributes, how
they are called (perhaps without a signature), their binary operators as left operand, by the JSON form of
the right one, and the type of the elements they yield. -/
structure Host where
  attributes : Option (Text → Option Ty)
  call : Option (Option Signature)
  binOps : Option (Text → Json → Option Ty)
  iter : Option Ty

end

namespace Alt

def isAny : Alt → Bool
  | .any => true
  | _ => false

end Alt

namespace Ty

def never : Ty := ⟨[]⟩

def only (a : Alt) : Ty := ⟨[a]⟩

def any : Ty := only .any

def none : Ty := only (.prim .none)

def bool : Ty := only (.prim .bool)

def int : Ty := only (.prim .int)

def float : Ty := only (.prim .float)

def str : Ty := only (.prim .str)

def list (elem : Ty) : Ty := only (.list elem)

def tuple (elems : List Ty) : Ty := only (.tuple elems)

def tupleOf (elem : Ty) : Ty := only (.tupleOf elem)

def dict (key value : Ty) : Ty := only (.dict key value)

def iterable (elem : Ty) : Ty := only (.iterable elem)

def function (sig : Option Signature) : Ty := only (.function sig)

def named (name : Text) : Ty := only (.custom name .none)

instance : Inhabited Ty := ⟨never⟩

def isNever (t : Ty) : Bool :=
  t.alts.isEmpty

def isAny (t : Ty) : Bool :=
  match t.alts with
  | [a] => a.isAny
  | _ => false

def single? (t : Ty) : Option Alt :=
  match t.alts with
  | [a] => some a
  | _ => .none

def isNone (t : Ty) : Bool :=
  match t.alts with
  | [.prim .none] => true
  | _ => false

def contains (t : Ty) (p : Alt → Bool) : Bool :=
  t.alts.any p

def filter (t : Ty) (keep : Alt → Bool) : Ty :=
  ⟨t.alts.filter keep⟩

def orAny (t : Ty) : Ty :=
  if t.isNever then any else t

def fixedTuple? (t : Ty) : Option (List Ty) :=
  match t.alts with
  | [.tuple elems] => some elems
  | _ => .none

end Ty

namespace ParamMode

/-- Whether a positional argument can reach the parameter by its place. -/
def takesPositional : ParamMode → Bool
  | .posOnly | .posOrNamed => true
  | _ => false

def takesNamed : ParamMode → Bool
  | .posOrNamed | .namedOnly => true
  | _ => false

def isVariadic : ParamMode → Bool
  | .args | .kwargs => true
  | _ => false

/-- The place of a mode in the order that parameters must keep. -/
def rank : ParamMode → Nat
  | .posOnly => 0
  | .posOrNamed => 1
  | .args => 2
  | .namedOnly => 3
  | .kwargs => 4

def all : List ParamMode :=
  [.posOnly, .posOrNamed, .args, .namedOnly, .kwargs]

def name : ParamMode → Text
  | .posOnly => "pos_only"
  | .posOrNamed => "pos_or_named"
  | .args => "args"
  | .namedOnly => "named_only"
  | .kwargs => "kwargs"

def ofName? (name : Text) : Option ParamMode :=
  all.find? (·.name == name)

/-- The name of the mode of a number; other numbers are named by themselves. -/
def nameOfNumber (n : Int) : Text :=
  match all.find? fun m => (m.rank : Int) == n with
  | some m => m.name
  | none => "ParamMode(" ++ toString n ++ ")"

end ParamMode

end Gradual
