import Gradual.Json.Reader
import Gradual.Json.Record
import Gradual.NameMap
import Gradual.Oracle.Basic
import Gradual.Signature
import Gradual.Ty.Parse
import Gradual.Yaml.Document
import Gradual.Yaml.Record

/-! Oracles that are described in files: the signatures of global functions, and the members of named
types. A file is YAML, or JSON with comments and trailing commas. A list that a file leaves out is kept
apart from an empty one. -/

namespace Gradual

/-- A described parameter. An empty kind stands for a parameter taken by place or by name, an empty type
for any type. -/
structure DocParam where
  name : Text := ""
  type : Text := ""
  kind : Text := ""
  optional : Bool := false
  deriving DecidableEq, Repr

structure DocMember where
  name : Text := ""
  params : Option (List DocParam) := none
  result : Text := ""
  type : Text := ""
  deriving DecidableEq, Repr

structure DocType where
  name : Text := ""
  members : Option (List DocMember) := none
  deriving DecidableEq, Repr

structure DocFile where
  functions : Option (List DocMember) := none
  types : Option (List DocType) := none
  deriving DecidableEq, Repr

namespace DocFile

/-! Reading descriptions written in JSON. Every fault makes the file unreadable. -/

abbrev Draft := Json.Draft Unit

structure RawMember where
  name : Text := ""
  params : Option (Json.Items DocParam) := none
  result : Text := ""
  type : Text := ""

structure RawType where
  name : Text := ""
  members : Option (Json.Items RawMember) := none

structure RawFile where
  functions : Option (Json.Items RawMember) := none
  types : Option (Json.Items RawType) := none

def RawMember.toMember (m : RawMember) : DocMember :=
  ⟨m.name, m.params.map (·.shown), m.result, m.type⟩

def RawType.toType (t : RawType) : DocType :=
  ⟨t.name, t.members.map fun ms => ms.shown.map RawMember.toMember⟩

def RawFile.toFile (f : RawFile) : DocFile :=
  ⟨f.functions.map fun ms => ms.shown.map RawMember.toMember, f.types.map fun ts => ts.shown.map RawType.toType⟩

def readParam (current : DocParam) : Json → Draft DocParam :=
  Json.readMembers (fun name j p => do
    match name with
    | "NAME" => return { p with name := ← Json.readText p.name j }
    | "TYPE" => return { p with type := ← Json.readText p.type j }
    | "KIND" => return { p with kind := ← Json.readText p.kind j }
    | "DEFAULT" => return { p with optional := ← Json.readBool p.optional j }
    | _ => .misshapen) current

def readMember (current : RawMember) : Json → Draft RawMember :=
  Json.readMembers (fun name j m => do
    match name with
    | "NAME" => return { m with name := ← Json.readText m.name j }
    | "PARAMS" => return { m with params := ← Json.readItems {} readParam m.params j }
    | "RETURN" => return { m with result := ← Json.readText m.result j }
    | "TYPE" => return { m with type := ← Json.readText m.type j }
    | _ => .misshapen) current

def readType (current : RawType) : Json → Draft RawType :=
  Json.readMembers (fun name j t => do
    match name with
    | "NAME" => return { t with name := ← Json.readText t.name j }
    | "MEMBERS" => return { t with members := ← Json.readItems {} readMember t.members j }
    | _ => .misshapen) current

def readFile : Json → Draft RawFile :=
  Json.readMembers (fun name j f => do
    match name with
    | "FUNCTIONS" => return { f with functions := ← Json.readItems {} readMember f.functions j }
    | "TYPES" => return { f with types := ← Json.readItems {} readType f.types j }
    | _ => .misshapen) {}

def ofJson (text : Text) : Option DocFile :=
  (Json.parse .relaxed text).bind fun j =>
    match readFile j with
    | .ok file => some file.toFile
    | .error _ => none

/-! Reading descriptions written in YAML. -/

def paramOfYaml : Yaml → Yaml.Reading (Option DocParam) :=
  Yaml.readMembers (fun name y (p : DocParam) => do
    match name with
    | "name" => return { p with name := (← Yaml.readText y).getD p.name }
    | "type" => return { p with type := (← Yaml.readText y).getD p.type }
    | "kind" => return { p with kind := (← Yaml.readText y).getD p.kind }
    | "default" => return { p with optional := (← Yaml.readBool y).getD p.optional }
    | _ => failure) {}

def memberOfYaml : Yaml → Yaml.Reading (Option DocMember) :=
  Yaml.readMembers (fun name y (m : DocMember) => do
    match name with
    | "name" => return { m with name := (← Yaml.readText y).getD m.name }
    | "params" => return { m with params := ← Yaml.readList paramOfYaml y }
    | "return" => return { m with result := (← Yaml.readText y).getD m.result }
    | "type" => return { m with type := (← Yaml.readText y).getD m.type }
    | _ => failure) {}

def typeOfYaml : Yaml → Yaml.Reading (Option DocType) :=
  Yaml.readMembers (fun name y (t : DocType) => do
    match name with
    | "name" => return { t with name := (← Yaml.readText y).getD t.name }
    | "members" => return { t with members := ← Yaml.readList memberOfYaml y }
    | _ => failure) {}

def fileOfYaml : Yaml → Yaml.Reading (Option DocFile) :=
  Yaml.readMembers (fun name y (f : DocFile) => do
    match name with
    | "functions" => return { f with functions := ← Yaml.readList memberOfYaml y }
    | "types" => return { f with types := ← Yaml.readList typeOfYaml y }
    | _ => failure) {}

def ofYaml (text : Text) : Option DocFile :=
  match Yaml.parse text with
  | .malformed => none
  | .empty => some {}
  | .value y => (Yaml.readDocument fileOfYaml y).map (·.getD {})

def unreadableMessage : Text := "decode docs"

end DocFile

inductive DocFault where
  | missingName
  | unknownMode (name : Text)
  | param (name : Text) (e : TypeTextError)
  | result (e : TypeTextError)
  | type (e : TypeTextError)
  | signature (e : SignatureError)

def DocFault.message : DocFault → Text
  | .missingName => "missing name"
  | .unknownMode name => ParamMode.unknownMessage name
  | .param name e => "parameter " ++ name ++ ": " ++ e.message
  | .result e => "return: " ++ e.message
  | .type e => e.message
  | .signature e => e.message

inductive DocIssue where
  | function (name : Text) (fault : DocFault)
  | member (type name : Text) (fault : DocFault)

def DocIssue.message : DocIssue → Text
  | .function name fault => "function " ++ name ++ ": " ++ fault.message
  | .member type name fault => "type " ++ type ++ " member " ++ name ++ ": " ++ fault.message

def DocIssue.messages (issues : List DocIssue) : Text :=
  Text.join "\n" (issues.map DocIssue.message)

namespace DocParam

def mode (p : DocParam) : Except DocFault ParamMode :=
  let kind := if p.kind = "" then ParamMode.posOrNamed.name else p.kind
  match ParamMode.ofName? kind with
  | some mode => .ok mode
  | none => .error (.unknownMode kind)

def readType (p : DocParam) : Except DocFault Ty :=
  if p.type = "" then .ok .any else (Ty.parse p.type).mapError (.param p.name)

/-- The parameter that is described; collectors need no argument. -/
def toParam (p : DocParam) : Except DocFault Param := do
  let mode ← p.mode
  let type ← p.readType
  return ⟨mode, p.name, type, p.optional || mode.isVariadic⟩

end DocParam

namespace DocMember

def isCallable (m : DocMember) : Bool :=
  m.type == "" || !(m.params.getD []).isEmpty || m.result != ""

def signature (m : DocMember) : Except DocFault Signature := do
  if m.name = "" then throw .missingName
  let params ← (m.params.getD []).mapM DocParam.toParam
  let result ← if m.result = "" then .ok .any else (Ty.parse m.result).mapError .result
  (Signature.make params result).mapError .signature

def memberType (m : DocMember) : Except DocFault Ty :=
  if m.isCallable then m.signature.map fun sig => .function (some sig)
  else (Ty.parse m.type).mapError .type

end DocMember

/-- Described functions, and the members of types by the kind of the type. -/
structure Docs where
  functions : NameMap Signature := .empty
  members : NameMap (NameMap Ty) := .empty

namespace Docs

def kindOfName (name : Text) : Text :=
  match (Ty.ofName name [] false).single? with
  | some a => a.kind
  | none => name

def addFunction (d : Docs × List DocIssue) (m : DocMember) : Docs × List DocIssue :=
  match m.signature with
  | .ok sig => ({ d.1 with functions := d.1.functions.insert m.name sig }, d.2)
  | .error fault => (d.1, d.2 ++ [.function m.name fault])

def addMember (type : Text) (table : NameMap Ty × List DocIssue) (m : DocMember) :
    NameMap Ty × List DocIssue :=
  match m.memberType with
  | .ok t => (table.1.insert m.name t, table.2)
  | .error fault => (table.1, table.2 ++ [.member type m.name fault])

def addType (d : Docs × List DocIssue) (t : DocType) : Docs × List DocIssue :=
  let kind := kindOfName t.name
  let (table, issues) :=
    (t.members.getD []).foldl (addMember t.name) ((d.1.members.get? kind).getD .empty, d.2)
  ({ d.1 with members := d.1.members.insert kind table }, issues)

/-- The contents of a description, or everything that is wrong with it. A later entry of the same name
replaces an earlier one. -/
def ofFile (file : DocFile) : Except (List DocIssue) Docs :=
  let (docs, issues) :=
    (file.types.getD []).foldl addType ((file.functions.getD []).foldl addFunction ({}, []))
  if issues.isEmpty then .ok docs else .error issues

def attr (d : Docs) (recv : Alt) (name : Text) : Fact :=
  match (d.members.get? recv.kind).bind fun table => table.get? name with
  | some t => .known t
  | none => .unknown

/-- The oracle of a description. It knows nothing of operators. -/
def oracle (d : Docs) : Oracle where
  attr := d.attr
  binOp _ _ _ := .unknown
  signature := d.functions.get?

end Docs

end Gradual
