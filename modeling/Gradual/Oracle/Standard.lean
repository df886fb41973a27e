import Gradual.Oracle.Basic

/-! The standard oracle: the methods, operators and global functions of the language itself. It knows
the kinds of built-in values completely, so what is not listed for them is unsupported. -/

namespace Gradual.Standard

def builtinKinds : List Text :=
  ["None", "bool", "int", "float", "str", "list", "tuple", "dict", "function", "struct"]

def isBuiltin (kind : Text) : Bool :=
  builtinKinds.contains kind

def method (result : Ty) (params : List Param) : Ty :=
  .function (some ⟨params, result⟩)

def need (name : Text) (type : Ty) : Param := .posOnly name type false

def may (name : Text) (type : Ty) : Param := .posOnly name type true

def strOrNone : Ty := .union [.str, .none]

def intOrNone : Ty := .union [.int, .none]

def numeric : Ty := .union [.int, .float]

def strings : Ty := .list .str

def strMethod (name : Text) : Option Ty :=
  match name with
  | "capitalize" | "lower" | "upper" | "title" => some (method .str [])
  | "strip" | "lstrip" | "rstrip" => some (method .str [may "chars" strOrNone])
  | "format" => some (method .str [.args "args" .any, .kwargs "kwargs" .any])
  | "join" => some (method .str [need "iterable" (.iterable .str)])
  | "partition" | "rpartition" => some (method (.tuple [.str, .str, .str]) [need "sep" .str])
  | "removeprefix" => some (method .str [need "prefix" .str])
  | "removesuffix" => some (method .str [need "suffix" .str])
  | "replace" => some (method .str [need "old" .str, need "new" .str, may "count" .int])
  | "split" | "rsplit" => some (method strings [may "sep" strOrNone, may "maxsplit" .int])
  | "splitlines" => some (method strings [may "keepends" .bool])
  | "elems" | "codepoints" => some (method (.iterable .str) [])
  | "elem_ords" | "codepoint_ords" => some (method (.iterable .int) [])
  | "count" | "find" | "rfind" | "index" | "rindex" =>
    some (method .int [need "sub" .str, may "start" intOrNone, may "end" intOrNone])
  | "startswith" | "endswith" =>
    some (method .bool [need "affix" (.union [.str, .tupleOf .str]), may "start" intOrNone,
      may "end" intOrNone])
  | "isalnum" | "isalpha" | "isdigit" | "islower" | "isspace" | "istitle" | "isupper" =>
    some (method .bool [])
  | _ => none

def listElem : Alt → Ty
  | .list elem => elem
  | _ => .any

def dictKey : Alt → Ty
  | .dict key _ => key
  | _ => .any

def dictValue : Alt → Ty
  | .dict _ value => value
  | _ => .any

def listMethod (recv : Alt) (name : Text) : Option Ty :=
  match name with
  | "append" | "remove" => some (method .none [need "x" .any])
  | "extend" => some (method .none [need "x" (.iterable .any)])
  | "insert" => some (method .none [need "index" .int, need "x" .any])
  | "clear" => some (method .none [])
  | "index" => some (method .int [need "x" .any, may "start" .int, may "end" .int])
  | "pop" => some (method (listElem recv) [may "index" .int])
  | _ => none

def dictMethod (recv : Alt) (name : Text) : Option Ty :=
  match name with
  | "clear" => some (method .none [])
  | "update" => some (method .none [may "pairs" .any, .kwargs "kwargs" .any])
  | "get" => some (method (.union [dictValue recv, .none]) [need "key" .any, may "default" .any])
  | "items" => some (method (.list (.tuple [dictKey recv, dictValue recv])) [])
  | "keys" => some (method (.list (dictKey recv)) [])
  | "values" => some (method (.list (dictValue recv)) [])
  | "pop" | "setdefault" => some (method (dictValue recv) [need "key" .any, may "default" .any])
  | "popitem" => some (method (.tuple [dictKey recv, dictValue recv]) [])
  | _ => none

/-- What a table says of an operation on a kind that it covers. -/
def fromTable : Option Ty → Fact
  | some t => .known t
  | none => .unsupported

def attr (recv : Alt) (name : Text) : Fact :=
  match recv.kind with
  | "str" => fromTable (strMethod name)
  | "list" => fromTable (listMethod recv name)
  | "dict" => fromTable (dictMethod recv name)
  | "None" | "bool" | "int" | "float" | "tuple" | "function" => .unsupported
  | _ => .unknown

def isOrder (op : Text) : Bool :=
  op == "<" || op == "<=" || op == ">" || op == ">="

def isMembership (op : Text) : Bool :=
  op == "in" || op == "not in"

def isNumeric (kind : Text) : Bool :=
  kind == "int" || kind == "float"

def numericOp (op left right : Text) : Option Ty :=
  if op == "+" || op == "-" || op == "*" || op == "//" || op == "%" then
    some (if left == "int" && right == "int" then .int else .float)
  else if op == "/" then some .float
  else if isOrder op then some .bool
  else if left == "int" && right == "int"
      && (op == "&" || op == "|" || op == "^" || op == "<<" || op == ">>") then some .int
  else none

def concat : Alt → Alt → Fact
  | .tuple as, .tuple bs => .known (.tuple (as ++ bs))
  | a, b =>
    match a.elementUnion?, b.elementUnion? with
    | some t, some u => .known (.tupleOf (.union [t, u]))
    | _, _ => .broken

def repeatTuple (a : Alt) : Fact :=
  match a.elementUnion? with
  | some t => .known (.tupleOf t)
  | none => .broken

def binOpOfKinds (op : Text) (left right : Alt) : Option Fact :=
  match left.kind, right.kind with
  | "str", "str" =>
    if isOrder op || isMembership op then some (.known .bool)
    else if op == "+" then some (.known .str)
    else none
  | "list", "list" =>
    if isOrder op then some (.known .bool)
    else if op == "+" then some (.known (.list (.union [listElem left, listElem right])))
    else none
  | "tuple", "tuple" =>
    if isOrder op then some (.known .bool)
    else if op == "+" then some (concat left right)
    else none
  | "bool", "bool" => if isOrder op then some (.known .bool) else none
  | "dict", "dict" =>
    if op == "|" then
      some (.known (.dict (.union [dictKey left, dictKey right]) (.union [dictValue left, dictValue right])))
    else none
  | "str", "int" | "int", "str" => if op == "*" then some (.known .str) else none
  | "list", "int" => if op == "*" then some (.known (.only left)) else none
  | "int", "list" => if op == "*" then some (.known (.only right)) else none
  | "tuple", "int" => if op == "*" then some (repeatTuple left) else none
  | "int", "tuple" => if op == "*" then some (repeatTuple right) else none
  | l, r => if isNumeric l && isNumeric r then (numericOp op l r).map .known else none

/-- Operators on values. Membership asks only for a container on the right, and formatting only for a
string on the left. -/
def binOp (op : Text) (left right : Alt) : Fact :=
  if !isBuiltin right.kind || (!isMembership op && !isBuiltin left.kind) then .unknown
  else match binOpOfKinds op left right with
    | some fact => fact
    | none =>
      if isMembership op && ["list", "tuple", "dict"].contains right.kind then .known .bool
      else if op == "%" && left.kind == "str" then .known .str
      else .unsupported

def unOp (op : Text) (operand : Alt) : Fact :=
  if !isBuiltin operand.kind then .unknown
  else match op, operand.kind with
    | "-", "int" | "+", "int" | "~", "int" => .known .int
    | "-", "float" | "+", "float" => .known .float
    | _, _ => .unsupported

def signature (name : Text) : Option Signature :=
  match name with
  | "len" => some ⟨[need "x" .any], .int⟩
  | "str" | "repr" | "type" => some ⟨[need "x" .any], .str⟩
  | "hash" => some ⟨[need "x" .str], .int⟩
  | "int" => some ⟨[may "x" .any, may "base" .int], .int⟩
  | "float" => some ⟨[may "x" .any], .float⟩
  | "bool" => some ⟨[may "x" .any], .bool⟩
  | "range" => some ⟨[need "start_or_stop" .int, may "stop" .int, may "step" .int], .list .int⟩
  | "print" => some ⟨[.args "args" .any, .namedOnly "sep" .str true], .none⟩
  | "fail" => some ⟨[.args "args" .any, .namedOnly "msg" .any true], .never⟩
  | "list" => some ⟨[may "x" (.iterable .any)], .list .any⟩
  | "tuple" => some ⟨[may "x" (.iterable .any)], .tupleOf .any⟩
  | "dict" => some ⟨[may "pairs" .any, .kwargs "kwargs" .any], .dict .any .any⟩
  | "sorted" =>
    some ⟨[need "x" (.iterable .any), .namedOnly "key" (.function none) true,
      .namedOnly "reverse" .bool true], .list .any⟩
  | "reversed" => some ⟨[need "x" (.iterable .any)], .list .any⟩
  | "enumerate" =>
    some ⟨[need "x" (.iterable .any), may "start" .int], .list (.tuple [.int, .any])⟩
  | "zip" => some ⟨[.args "args" (.iterable .any)], .list (.tupleOf .any)⟩
  | "min" | "max" => some ⟨[.args "args" .any, .namedOnly "key" (.function none) true], .any⟩
  | "abs" => some ⟨[need "x" numeric], numeric⟩
  | "any" | "all" => some ⟨[need "x" (.iterable .any)], .bool⟩
  | "dir" => some ⟨[need "x" .any], strings⟩
  | "getattr" => some ⟨[need "x" .any, need "name" .str, may "default" .any], .any⟩
  | "hasattr" => some ⟨[need "x" .any, need "name" .str], .bool⟩
  | "struct" => some ⟨[.kwargs "kwargs" .any], .struct [] true⟩
  | _ => none

def refineDict (t : Ty) : Option Ty :=
  match t.alts with
  | [.dict key value] => some (.dict key value)
  | _ => none

/-- The results of calls that build containers or choose among their arguments, from the types of the
positional and the named arguments. -/
def refineBy (name : Text) (positional named : List Ty) : Option Ty :=
  match name, positional with
  | "list", [] => some (.list .never)
  | "list", t :: _ | "sorted", t :: _ | "reversed", t :: _ => some (.list t.element)
  | "tuple", t :: _ => some (.tupleOf t.element)
  | "enumerate", t :: _ => some (.list (.tuple [.int, t.element]))
  | "zip", ts => some (.list (.tuple (ts.map Ty.element)))
  | "min", [t] | "max", [t] => some t.element
  | "min", t :: u :: ts | "max", t :: u :: ts => some (.union (t :: u :: ts))
  | "abs", t :: _ => some t
  | "dict", t :: _ => refineDict t
  | "dict", [] => if named.isEmpty then none else some (.dict .str (.union named))
  | _, _ => none

/-- The sharpened result of a call; spread arguments are not looked at. -/
def refine (name : Text) (args : List Arg) : Option Ty :=
  refineBy name (args.filterMap Arg.positional?) ((args.filterMap Arg.named?).map (·.2))

end Gradual.Standard

namespace Gradual

def Oracle.standard : Oracle where
  attr := Standard.attr
  binOp := Standard.binOp
  signature := Standard.signature
  unOp := some Standard.unOp
  refine := some Standard.refine

end Gradual
