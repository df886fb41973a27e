import Gradual.Json.Members
import Gradual.Json.Number
import Gradual.Json.Reader
import Gradual.Syntax.Basic
import Gradual.Text.Quoted

/-! Reading syntax trees from JSON. Every node is an object whose `type` tells its form; only members
that a form has are looked at. -/

namespace Gradual

inductive TreeError where
  | unreadable
  | notObject
  /-- The text holds an object that is nested too deep. -/
  | tooDeep
  | noNode
  | root (form : Text)
  | unsupported (form : Text)
  | unsupportedType (form : Text)
  | missing (owner key : Text)
  | missingBase
  /-- A list holds something other than an object. -/
  | invalid (what shape : Text)
  | notStatement (form : Text)
  | notExpression (form : Text)
  | notIdentifier (form : Text)
  | notTarget (form : Text)
  | integerRange (text : Text)
  | integerSyntax (text : Text)
  deriving DecidableEq, Repr

def TreeError.message : TreeError → Text
  | .unreadable => "ast: parse module json"
  | .notObject | .tooDeep => "ast: decode module json"
  | .noNode => "ast: node is nil"
  | .root form => "ast: root node is " ++ form ++ ", expected Module"
  | .unsupported form => "ast: unsupported node type " ++ Text.quoted form
  | .unsupportedType form => "ast: unsupported type expression " ++ Text.quoted form
  | .missing owner key => "ast: " ++ owner ++ " missing " ++ key
  | .missingBase => "ast: generic type missing base"
  | .invalid what shape => "ast: invalid " ++ what ++ " " ++ shape
  | .notStatement form => "ast: " ++ form ++ " is not a statement"
  | .notExpression form => "ast: " ++ form ++ " is not an expression"
  | .notIdentifier form => "ast: " ++ form ++ " is not an identifier"
  | .notTarget form => "ast: invalid assignment target " ++ form
  | .integerRange text =>
    "ast: integer literal " ++ text ++ ": strconv.ParseInt: parsing " ++ Text.quoted text
      ++ ": value out of range"
  | .integerSyntax text =>
    "ast: integer literal " ++ text ++ ": strconv.ParseInt: parsing " ++ Text.quoted text
      ++ ": invalid syntax"

inductive Node where
  | module (m : Module)
  | stmt (s : Stmt)
  | expr (e : Expr)
  | type (t : TypeExpr)

namespace Node

def form : Node → Text
  | .module _ => "Module"
  | .stmt s => s.form
  | .expr e => e.form
  | .type t => t.form

/-- The node as a statement. Expressions are statements. -/
def toStmt : Node → Except TreeError Stmt
  | .stmt s => .ok s
  | .expr e => .ok (.expr e)
  | n => .error (.notStatement n.form)

def toExpr : Node → Except TreeError Expr
  | .expr e => .ok e
  | n => .error (.notExpression n.form)

def toIdent : Node → Except TreeError Ident
  | .expr (.ident id) => .ok id
  | n => .error (.notIdentifier n.form)

def toTarget : Node → Except TreeError Expr
  | .expr e => if e.isTarget then .ok e else .error (.notTarget e.form)
  | n => .error (.notTarget n.form)

def toModule : Node → Except TreeError Module
  | .module m => .ok m
  | n => .error (.root n.form)

end Node

namespace Tree

open Json (Members memberOf? textMember objectMember? arrayMember)

mutual

def shown : Json → Text
  | .null => "<nil>"
  | .bool b => toString b
  | .num text => text
  | .str text => text
  | .arr items => "[" ++ Text.join " " (shownItems items) ++ "]"
  | .obj members => "map[" ++ Text.join " " ((NameMap.ofList (shownMembers members)).entries.map
      fun (name, text) => name ++ ":" ++ text) ++ "]"

def shownItems : List Json → List Text
  | [] => []
  | j :: rest => shown j :: shownItems rest

def shownMembers : List (Text × Json) → List (Text × Text)
  | [] => []
  | (name, j) :: rest => (name, shown j) :: shownMembers rest

end

def owner (node : Members) : Text :=
  shown ((memberOf? node "type").getD .null)

def missing {α : Type} (node : Members) (key : Text) : Except TreeError α :=
  .error (.missing (owner node) key)

/-- The number of a member, held to the range of integers; zero if it is no integer. -/
def intMember (node : Members) (key : Text) : Int :=
  Decimal.intOrZero (((memberOf? node key).bind Json.num?).getD "")

def readPosition (node : Members) (key : Text) : Position :=
  match memberOf? node key with
  | some (.obj inner) => ⟨intMember inner "line", intMember inner "column"⟩
  | _ => {}

def readSpan (node : Members) : Span :=
  match memberOf? node "span" with
  | some (.obj inner) => ⟨readPosition inner "start", readPosition inner "end"⟩
  | _ => {}

def readInteger (node : Members) : Except TreeError Int :=
  match memberOf? node "value" with
  | some (.num text) =>
    match Decimal.readInt text with
    | .value n => .ok n
    | .range _ => .error (.integerRange text)
    | .malformed => .error (.integerSyntax text)
  | _ => .ok 0

def readFloat (node : Members) : UInt64 :=
  Decimal.floatBits (((memberOf? node "value").bind Json.num?).getD "")

def readBool (node : Members) : Bool :=
  ((memberOf? node "value").bind Json.bool?).getD false

def orElse (text other : Text) : Text :=
  if text = "" then other else text

/-- Readers of the nodes smaller than a given one. -/
structure Readers (top : Members) where
  node : (node : Members) → sizeOf node < sizeOf top → Except TreeError Node
  type : (node : Members) → sizeOf node < sizeOf top → Except TreeError TypeExpr

/-- Reads every object of a list; `what` names the items in error messages. -/
def readItems {α : Type} {top : Members} (what : Text)
    (read : (item : Members) → sizeOf item < sizeOf top → Except TreeError α) :
    List { j : Json // sizeOf j < sizeOf top } → Except TreeError (List α)
  | [] => .ok []
  | ⟨.obj item, h⟩ :: rest => do
    let first ← read item (by simp only [Json.obj.sizeOf_spec] at h; omega)
    return first :: (← readItems what read rest)
  | ⟨j, _⟩ :: _ => .error (.invalid what j.shape)

section

variable {top : Members} (r : Readers top) (node : Members) (h : sizeOf node ≤ sizeOf top)

def listMember {α : Type} (key what : Text)
    (read : (item : Members) → sizeOf item < sizeOf top → Except TreeError α) : Except TreeError (List α) :=
  readItems what read ((arrayMember node key).map fun ⟨j, hj⟩ => ⟨j, by omega⟩)

/-- Reads a member that must be a node, and turns it into what is wanted. -/
def nodeMember {α : Type} (key : Text) (into : Node → Except TreeError α) : Except TreeError α :=
  match objectMember? node key with
  | some ⟨inner, hi⟩ => (r.node inner (by omega)).bind into
  | none => missing node key

def exprMember (key : Text) : Except TreeError Expr :=
  nodeMember r node h key Node.toExpr

def targetMember (key : Text) : Except TreeError Expr :=
  nodeMember r node h key Node.toTarget

/-- Reads an expression that is left out when the member is no object. -/
def optionalExpr (key : Text) : Except TreeError Expr :=
  match objectMember? node key with
  | some ⟨inner, hi⟩ => (r.node inner (by omega)).bind Node.toExpr
  | none => .ok .hole

def optionalType (key : Text) : Except TreeError TypeExpr :=
  match objectMember? node key with
  | some ⟨inner, hi⟩ => r.type inner (by omega)
  | none => .ok .hole

/-- Reads a bound of a slice, which is left out when the member is missing or null. -/
def sliceBound (key : Text) : Except TreeError Expr :=
  match memberOf? node key with
  | none | some .null => .ok .hole
  | some _ => exprMember r node h key

/-- Reads a name that a node declares: a node of its own, or a bare text. -/
def identMember (key : Text) : Except TreeError Ident :=
  match memberOf? node key with
  | some (.str name) => if name = "" then missing node key else .ok ⟨{}, name⟩
  | _ => nodeMember r node h key Node.toIdent

def stmtsMember (key : Text) : Except TreeError (List Stmt) :=
  listMember node h key "statement" fun inner hi => (r.node inner hi).bind Node.toStmt

def exprsMember (key : Text) : Except TreeError (List Expr) :=
  listMember node h key "expression" fun inner hi => (r.node inner hi).bind Node.toExpr

def typesMember (key : Text) : Except TreeError (List TypeExpr) :=
  listMember node h key "type expression" r.type

def readEntry : Except TreeError DictEntry := do
  let key ← exprMember r node h "key"
  let value ← exprMember r node h "value"
  return .entry {} key value

def readField : Except TreeError FieldExpr := do
  let name ← identMember r node h "name"
  let value ← exprMember r node h "value"
  return .field {} name value

def readArg : Except TreeError ArgExpr := do
  let value ← exprMember r node h "value"
  return .arg (readSpan node) (orElse (textMember node "kind") "positional") (textMember node "name") value

def readParam : Except TreeError ParamDecl := do
  let name ← identMember r node h "name"
  let type ← optionalType r node h "paramType"
  let default ← optionalExpr r node h "default"
  return .param (readSpan node) name (orElse (textMember node "kind") "pos_or_named") type default

def paramsMember (key : Text) : Except TreeError (List ParamDecl) :=
  listMember node h key "function parameter" fun inner hi => readParam r inner (Nat.le_of_lt hi)

def readClause : Except TreeError Clause := do
  if (memberOf? node "iterable").isSome then
    let target ← targetMember r node h "target"
    let iterable ← exprMember r node h "iterable"
    return .clause (readSpan node) target iterable .hole
  else
    let condition ← exprMember r node h "condition"
    return .clause (readSpan node) .hole .hole condition

def clausesMember (key : Text) : Except TreeError (List Clause) :=
  listMember node h key "comprehension clause" fun inner hi => readClause r inner (Nat.le_of_lt hi)

/-- Reads a symbol of a load statement. A symbol without a name is called as it is here. -/
def readSymbol : Except TreeError LoadSymbol := do
  let here ← identMember r node h "local"
  return .symbol (readSpan node) (some here) (orElse (textMember node "name") here.name)

def typeOf : Except TreeError TypeExpr := do
  match textMember node "type" with
  | "SimpleTypeExpression" => return .simple (readSpan node) (← identMember r node h "name")
  | "GenericTypeExpression" =>
    match objectMember? node "base" with
    | none => throw .missingBase
    | some ⟨inner, hi⟩ =>
      let base ← r.type inner (by omega)
      return .generic (readSpan node) base (← typesMember r node h "arguments")
  | "UnionTypeExpression" => return .union (readSpan node) (← typesMember r node h "members")
  | form => throw (.unsupportedType form)

/-- Reads an expression of the form that the node tells; none if it is no form of expressions. -/
def exprOf : Option (Except TreeError Expr) :=
  let span := readSpan node
  match textMember node "type" with
  | "Identifier" => some (.ok (.ident ⟨span, textMember node "name"⟩))
  | "StringLiteral" => some (.ok (.str span (textMember node "value")))
  | "IntegerLiteral" => some ((readInteger node).map (.int span))
  | "FloatLiteral" => some (.ok (.float span (readFloat node)))
  | "BooleanLiteral" => some (.ok (.bool span (readBool node)))
  | "NoneLiteral" => some (.ok (.none span))
  | "ListLiteral" => some ((exprsMember r node h "elements").map (.list span))
  | "TupleLiteral" => some ((exprsMember r node h "elements").map (.tuple span))
  | "DictLiteral" => some <|
    (listMember node h "entries" "dict entry" fun inner hi => readEntry r inner (Nat.le_of_lt hi)).map
      (.dict span)
  | "StructLiteral" => some <|
    (listMember node h "fields" "struct field" fun inner hi => readField r inner (Nat.le_of_lt hi)).map
      (.struct span)
  | "FunctionCall" => some do
    let callee ← exprMember r node h "callee"
    let args ← listMember node h "arguments" "call argument" fun inner hi =>
      readArg r inner (Nat.le_of_lt hi)
    return .call span callee args
  | "MemberAccessExpression" => some do
    let object ← exprMember r node h "object"
    return .member span object (← identMember r node h "member")
  | "IndexExpression" => some do
    let object ← exprMember r node h "object"
    return .index span object (← exprMember r node h "index")
  | "SliceExpression" => some do
    let object ← exprMember r node h "object"
    let start ← sliceBound r node h "start"
    let stop ← sliceBound r node h "stop"
    return .slice span object start stop (← sliceBound r node h "step")
  | "BinaryExpression" => some do
    let left ← exprMember r node h "left"
    return .binary span (textMember node "operator") left (← exprMember r node h "right")
  | "UnaryExpression" => some do
    return .unary span (textMember node "operator") (← exprMember r node h "operand")
  | "ConditionalExpression" => some do
    let condition ← exprMember r node h "condition"
    let yes ← exprMember r node h "then"
    return .conditional span condition yes (← exprMember r node h "else")
  | "LambdaExpression" => some do
    let params ← paramsMember r node h "params"
    return .lambda span params (← exprMember r node h "body")
  | "ListComprehension" => some do
    let elem ← exprMember r node h "element"
    return .listComp span elem (← clausesMember r node h "clauses")
  | "DictComprehension" => some do
    let key ← exprMember r node h "key"
    let value ← exprMember r node h "value"
    return .dictComp span key value (← clausesMember r node h "clauses")
  | _ => none

/-- Reads a statement of the form that the node tells; none if it is no form of statements. -/
def stmtOf : Option (Except TreeError Stmt) :=
  let span := readSpan node
  match textMember node "type" with
  | "AssignmentStatement" => some do
    let target ← targetMember r node h "left"
    let declared ← optionalType r node h "annotation"
    let value ← exprMember r node h "right"
    return .assign span (orElse (textMember node "operator") "=") target declared value
  | "FunctionDefinition" => some do
    let name ← identMember r node h "id"
    let params ← paramsMember r node h "params"
    let result ← optionalType r node h "returnType"
    return .define span name params result (← stmtsMember r node h "body")
  | "ReturnStatement" => some ((optionalExpr r node h "argument").map (.ret span))
  | "IfStatement" => some do
    let condition ← exprMember r node h "condition"
    let yes ← stmtsMember r node h "then"
    return .branch span condition yes (← stmtsMember r node h "else")
  | "ForLoop" => some do
    let target ← targetMember r node h "target"
    let iterable ← exprMember r node h "iterable"
    return .forIn span target iterable (← stmtsMember r node h "body")
  | "WhileLoop" => some do
    let condition ← exprMember r node h "condition"
    return .whileDo span condition (← stmtsMember r node h "body")
  | "BreakStatement" => some (.ok (.exit span))
  | "ContinueStatement" => some (.ok (.next span))
  | "PassStatement" => some (.ok (.pass span))
  | "LoadStatement" => some do
    let symbols ← listMember node h "symbols" "load symbol" fun inner hi =>
      readSymbol r inner (Nat.le_of_lt hi)
    return .load span (textMember node "module") symbols
  | _ => none

def isTypeForm (form : Text) : Bool :=
  form == "SimpleTypeExpression" || form == "GenericTypeExpression" || form == "UnionTypeExpression"

def nodeOf : Except TreeError Node :=
  let form := textMember node "type"
  if form = "Module" then
    (stmtsMember r node h "body").map fun body => .module ⟨readSpan node, body⟩
  else if isTypeForm form then (typeOf r node h).map .type
  else match exprOf r node h with
    | some e => e.map .expr
    | none =>
      match stmtOf r node h with
      | some s => s.map .stmt
      | none => .error (.unsupported form)

end

mutual

def readType (node : Members) : Except TreeError TypeExpr :=
  typeOf ⟨fun inner _ => readNode inner, fun inner _ => readType inner⟩ node (Nat.le_refl _)
termination_by sizeOf node

def readNode (node : Members) : Except TreeError Node :=
  nodeOf ⟨fun inner _ => readNode inner, fun inner _ => readType inner⟩ node (Nat.le_refl _)
termination_by sizeOf node

end

end Tree

def Module.ofJson : Json → Except TreeError Module
  | .obj node => (Tree.readNode node).bind Node.toModule
  | .null => .error .noNode
  | _ => .error .notObject

/-- The module in a text: JSON, in which comments and trailing commas may stand. -/
def Module.parse (text : Text) : Except TreeError Module :=
  (Json.decode .relaxed Module.ofJson text).mapError fun
    | .malformed => .unreadable
    | .tooDeep => .tooDeep
    | .refused e => e

end Gradual
