import Gradual.Json.Record
import Gradual.Signature
import Gradual.Ty.Normal

/-! Types and signatures as JSON. A type is the array of its alternatives, each an object with a `kind`;
custom types travel by name. Reading puts the alternatives into normal form. -/

namespace Gradual

inductive WireError where
  | shape
  | namelessCustom
  | unknownKind (kind : Text)
  | unknownMode (mode : Text)
  | inType (e : WireError)
  | inSignature (e : WireError)
  deriving DecidableEq, Repr

namespace WireError

def labelled (label inner : Text) : Text :=
  if inner = "" then label else label ++ ": " ++ inner

/-- The message of a value that is no type or signature; a wrong shape has no text of its own. -/
def message : WireError → Text
  | .shape => ""
  | .namelessCustom => "types: custom type without name"
  | .unknownKind kind => "types: unknown type kind " ++ Text.quoted kind
  | .unknownMode mode => ParamMode.unknownMessage mode
  | .inType e => labelled "types: decode type" e.message
  | .inSignature e => labelled "types: decode signature" e.message

end WireError

mutual

def Ty.toJson : Ty → Json
  | ⟨alts⟩ => .arr (Alt.toJsons alts)

def Alt.toJsons : List Alt → List Json
  | [] => []
  | a :: rest => a.toJson :: Alt.toJsons rest

def Alt.toJson : Alt → Json
  | .any => .obj [("kind", .str "any")]
  | .prim p => .obj [("kind", .str p.text)]
  | .list elem => .obj [("kind", .str "list"), ("elem", elem.toJson)]
  | .tuple elems =>
    .obj (("kind", .str "tuple") :: if elems.isEmpty then [] else [("elems", .arr (Ty.toJsons elems))])
  | .tupleOf elem => .obj [("kind", .str "tuple"), ("elem", elem.toJson), ("variadic", .bool true)]
  | .dict key value => .obj [("kind", .str "dict"), ("key", key.toJson), ("value", value.toJson)]
  | .iterable elem => .obj [("kind", .str "iterable"), ("elem", elem.toJson)]
  | .function none => .obj [("kind", .str "function")]
  | .function (some sig) => .obj [("kind", .str "function"), ("sig", sig.toJson)]
  | .struct fields isOpen =>
    .obj (("kind", .str "struct")
      :: ((if fields.isEmpty then [] else [("fields", .arr (Ty.fieldsToJson fields))])
        ++ if isOpen then [("extra", .bool true)] else []))
  | .custom name _ => .obj (("kind", .str "custom") :: if name = "" then [] else [("name", .str name)])

def Ty.toJsons : List Ty → List Json
  | [] => []
  | t :: rest => t.toJson :: Ty.toJsons rest

def Ty.fieldsToJson : List (Text × Ty) → List Json
  | [] => []
  | (name, t) :: rest => .obj [("name", .str name), ("type", t.toJson)] :: Ty.fieldsToJson rest

def Signature.toJson : Signature → Json
  | ⟨params, result⟩ => .obj [("params", .arr (Param.toJsons params)), ("result", result.toJson)]

def Param.toJsons : List Param → List Json
  | [] => []
  | p :: rest => p.toJson :: Param.toJsons rest

def Param.toJson : Param → Json
  | ⟨mode, name, type, optional⟩ =>
    .obj ([("mode", .str mode.name), ("name", .str name), ("type", type.toJson)]
      ++ if optional then [("optional", .bool true)] else [])

end

namespace Wire

structure RawAlt where
  kind : Text := ""
  name : Text := ""
  elem : Option Ty := none
  elems : List Ty := []
  variadic : Bool := false
  key : Option Ty := none
  value : Option Ty := none
  sig : Option Signature := none
  fields : Json.Items (Text × Ty) := {}
  extra : Bool := false

structure RawParam where
  mode : Text := ""
  name : Text := ""
  type : Ty := .never
  optional : Bool := false

structure RawSignature where
  params : Json.Items RawParam := {}
  result : Ty := .never

/-- The alternative that the members of an object describe; a missing type is `Any`. -/
def RawAlt.toAlt (r : RawAlt) : Except WireError Alt :=
  match r.kind with
  | "None" => .ok (.prim .none)
  | "bool" => .ok (.prim .bool)
  | "int" => .ok (.prim .int)
  | "float" => .ok (.prim .float)
  | "str" => .ok (.prim .str)
  | "list" => .ok (.list (r.elem.getD .any))
  | "tuple" => .ok (if r.variadic then .tupleOf (r.elem.getD .any) else .tuple r.elems)
  | "dict" => .ok (.dict (r.key.getD .any) (r.value.getD .any))
  | "iterable" => .ok (.iterable (r.elem.getD .any))
  | "function" => .ok (.function r.sig)
  | "struct" => .ok (.struct (NameMap.ofList r.fields.shown).entries r.extra)
  | "custom" => if r.name = "" then .error .namelessCustom else .ok (.custom r.name none)
  | "any" => .ok .any
  | kind => .error (.unknownKind kind)

def RawParam.toParam (r : RawParam) : Except WireError Param :=
  match ParamMode.ofName? r.mode with
  | some mode => .ok ⟨mode, r.name, r.type, r.optional⟩
  | none => .error (.unknownMode r.mode)

def RawSignature.toSignature (r : RawSignature) : Except WireError Signature := do
  return ⟨← r.params.shown.mapM RawParam.toParam, r.result⟩

abbrev Draft := Json.Draft WireError

/-- The outcome of reading a type: an error inside is marked as such. -/
def finishType (alts : Draft (List RawAlt)) : Except WireError Ty := do
  let raw ← (alts.finish .shape).mapError .inType
  return Ty.ofAlts (← raw.mapM RawAlt.toAlt)

/-- The outcome of reading a signature: an error inside is marked as such. -/
def finishSignature (sig : Draft RawSignature) : Except WireError Signature := do
  let raw ← (sig.finish .shape).mapError .inSignature
  raw.toSignature

mutual

def readTy : Json → Except WireError Ty
  | .arr items => finishType (readAlts items)
  | .null => .ok .never
  | _ => .error (.inType .shape)

def readAlts : List Json → Draft (List RawAlt)
  | [] => return []
  | j :: rest => do
    let alt ← readAlt j
    return alt :: (← readAlts rest)

def readAlt : Json → Draft RawAlt
  | .obj members => readAltMembers {} members
  | .null => return {}
  | _ => .misshapen

def readAltMembers (r : RawAlt) : List (Text × Json) → Draft RawAlt
  | [] => return r
  | (name, j) :: rest => do
    match Json.foldName name with
    | "KIND" => readAltMembers { r with kind := ← Json.readText r.kind j } rest
    | "NAME" => readAltMembers { r with name := ← Json.readText r.name j } rest
    | "ELEM" => readAltMembers { r with elem := ← readOptional j } rest
    | "ELEMS" => readAltMembers { r with elems := ← readTyList j } rest
    | "VARIADIC" => readAltMembers { r with variadic := ← Json.readBool r.variadic j } rest
    | "KEY" => readAltMembers { r with key := ← readOptional j } rest
    | "VALUE" => readAltMembers { r with value := ← readOptional j } rest
    | "SIG" => readAltMembers { r with sig := ← readOptionalSignature j } rest
    | "FIELDS" => readAltMembers { r with fields := ← readFieldList r.fields j } rest
    | "EXTRA" => readAltMembers { r with extra := ← Json.readBool r.extra j } rest
    | _ => readAltMembers r rest

def readOptional : Json → Draft (Option Ty)
  | .null => return none
  | .arr items => return some (← .take (finishType (readAlts items)))
  | _ => .fail (.inType .shape)

def readOptionalSignature : Json → Draft (Option Signature)
  | .null => return none
  | .obj members => return some (← .take (finishSignature (readSignatureMembers {} members)))
  | _ => .fail (.inSignature .shape)

def readTyList : Json → Draft (List Ty)
  | .arr items => readTys items
  | .null => return []
  | _ => .misshapen

def readTys : List Json → Draft (List Ty)
  | [] => return []
  | j :: rest => do
    let t ← .take (readTy j)
    return t :: (← readTys rest)

def readFieldList (current : Json.Items (Text × Ty)) : Json → Draft (Json.Items (Text × Ty))
  | .arr items => return current.shift (← readFields current.all items)
  | .null => return {}
  | _ => .misshapen

def readFields (old : List (Text × Ty)) : List Json → Draft (List (Text × Ty))
  | [] => return []
  | j :: rest => do
    let field ← readField (old.headD ("", .never)) j
    return field :: (← readFields old.tail rest)

def readField (current : Text × Ty) : Json → Draft (Text × Ty)
  | .obj members => readFieldMembers current members
  | .null => return current
  | _ => .misshapen

def readFieldMembers (field : Text × Ty) : List (Text × Json) → Draft (Text × Ty)
  | [] => return field
  | (name, j) :: rest => do
    match Json.foldName name with
    | "NAME" => readFieldMembers (← Json.readText field.1 j, field.2) rest
    | "TYPE" => readFieldMembers (field.1, ← .take (readTy j)) rest
    | _ => readFieldMembers field rest

def readSignatureMembers (r : RawSignature) : List (Text × Json) → Draft RawSignature
  | [] => return r
  | (name, j) :: rest => do
    match Json.foldName name with
    | "PARAMS" => readSignatureMembers { r with params := ← readParamList r.params j } rest
    | "RESULT" => readSignatureMembers { r with result := ← .take (readTy j) } rest
    | _ => readSignatureMembers r rest

def readParamList (current : Json.Items RawParam) : Json → Draft (Json.Items RawParam)
  | .arr items => return current.shift (← readParams current.all items)
  | .null => return {}
  | _ => .misshapen

def readParams (old : List RawParam) : List Json → Draft (List RawParam)
  | [] => return []
  | j :: rest => do
    let p ← readParam (old.headD {}) j
    return p :: (← readParams old.tail rest)

def readParam (current : RawParam) : Json → Draft RawParam
  | .obj members => readParamMembers current members
  | .null => return current
  | _ => .misshapen

def readParamMembers (p : RawParam) : List (Text × Json) → Draft RawParam
  | [] => return p
  | (name, j) :: rest => do
    match Json.foldName name with
    | "MODE" => readParamMembers { p with mode := ← Json.readText p.mode j } rest
    | "NAME" => readParamMembers { p with name := ← Json.readText p.name j } rest
    | "TYPE" => readParamMembers { p with type := ← .take (readTy j) } rest
    | "OPTIONAL" => readParamMembers { p with optional := ← Json.readBool p.optional j } rest
    | _ => readParamMembers p rest

end

end Wire

def Ty.ofJson (j : Json) : Except WireError Ty :=
  Wire.readTy j

def Signature.ofJson : Json → Except WireError Signature
  | .obj members => Wire.finishSignature (Wire.readSignatureMembers {} members)
  | .null => .ok ⟨[], .never⟩
  | _ => .error (.inSignature .shape)

end Gradual
