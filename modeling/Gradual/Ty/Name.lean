import Gradual.Ty.Normal

/-! Type names. A name and its bracketed arguments denote a type; a name that is not reserved denotes
the custom type of that name. -/

namespace Gradual.Ty

/-- The type of a name with arguments. A missing argument is `Any`; `variadic` says that an ellipsis
stood among the arguments. -/
def ofName (name : Text) (args : List Ty) (variadic : Bool) : Ty :=
  match name with
  | "None" | "NoneType" => none
  | "bool" => bool
  | "int" => int
  | "float" => float
  | "str" | "string" => str
  | "Any" | "typing.Any" | "" => any
  | "Never" | "typing.Never" => never
  | "list" | "List" | "typing.List" => list (args[0]?.getD any)
  | "dict" | "Dict" | "typing.Dict" => dict (args[0]?.getD any) (args[1]?.getD any)
  | "iterable" | "Iterable" | "typing.Iterable" => iterable (args[0]?.getD any)
  | "tuple" | "Tuple" | "typing.Tuple" =>
    match args with
    | [] => tupleOf any
    | [elem] => if variadic then tupleOf elem else tuple [elem]
    | elems => tuple elems
  | "function" | "Callable" | "typing.Callable" => function .none
  | "struct" => struct [] true
  | name => named name

end Gradual.Ty
