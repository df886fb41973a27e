import Gradual.Ty.Basic

/-! The text of a type. It is what messages show, and what the alternatives of a union are ordered and
told apart by. -/

namespace Gradual

def Primitive.text : Primitive → Text
  | .none => "None"
  | .bool => "bool"
  | .int => "int"
  | .float => "float"
  | .str => "str"

/-- The mark before a parameter that collects surplus arguments. -/
def ParamMode.stars : ParamMode → Text
  | .args => "*"
  | .kwargs => "**"
  | _ => ""

mutual

def Ty.text : Ty → Text
  | ⟨alts⟩ => if alts.isEmpty then "Never" else Text.join " | " (Alt.texts alts)

def Alt.texts : List Alt → List Text
  | [] => []
  | a :: rest => a.text :: Alt.texts rest

def Alt.text : Alt → Text
  | .any => "Any"
  | .prim p => p.text
  | .list elem => "list[" ++ elem.text ++ "]"
  | .tuple elems => if elems.isEmpty then "tuple[()]" else "tuple[" ++ Text.join ", " (Ty.texts elems) ++ "]"
  | .tupleOf elem => "tuple[" ++ elem.text ++ ", ...]"
  | .dict key value => "dict[" ++ key.text ++ ", " ++ value.text ++ "]"
  | .iterable elem => "iterable[" ++ elem.text ++ "]"
  | .function none => "function"
  | .function (some sig) => sig.text
  | .struct fields isOpen =>
    "struct(" ++ Text.join ", " (Ty.fieldTexts fields ++ if isOpen then ["..."] else []) ++ ")"
  | .custom name _ => name

def Ty.texts : List Ty → List Text
  | [] => []
  | t :: rest => t.text :: Ty.texts rest

def Ty.fieldTexts : List (Text × Ty) → List Text
  | [] => []
  | (name, t) :: rest => (name ++ " = " ++ t.text) :: Ty.fieldTexts rest

def Signature.text : Signature → Text
  | ⟨params, result⟩ =>
    "def(" ++ Text.join ", " (Param.parts false false params) ++ ") -> " ++ result.text

/-- The parts of a parameter list. A slash ends a run of positional-only parameters, and a star goes
before the first named-only parameter where nothing collects positional arguments; `afterPosOnly` and
`starred` say what went before. -/
def Param.parts (afterPosOnly starred : Bool) : List Param → List Text
  | [] => if afterPosOnly then ["/"] else []
  | p :: rest =>
    (if afterPosOnly && p.mode != .posOnly then ["/"] else [])
      ++ (if p.mode == .namedOnly && !starred then ["*"] else [])
      ++ p.text :: Param.parts (p.mode == .posOnly)
          (starred || p.mode == .args || p.mode == .namedOnly) rest

def Param.text : Param → Text
  | ⟨mode, name, type, optional⟩ =>
    mode.stars ++ name ++ ": " ++ type.text ++ if optional then " = ..." else ""

end

/-- The name of the kind of an alternative; a custom type is a kind of its own. -/
def Alt.kind : Alt → Text
  | .any => "Any"
  | .prim p => p.text
  | .list _ => "list"
  | .tuple _ | .tupleOf _ => "tuple"
  | .dict _ _ => "dict"
  | .iterable _ => "iterable"
  | .function _ => "function"
  | .struct _ _ => "struct"
  | .custom name _ => name

end Gradual
