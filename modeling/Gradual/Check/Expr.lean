import Gradual.Check.Annotation
import Gradual.Check.Narrowing
import Gradual.Check.State

/-! The types of expressions, and what assigning to them does. Evaluating an expression leaves the names
of the scope as they are, except that a list may come to hold more. -/

namespace Gradual.Check

def constant? : Text → Option Ty
  | "True" | "False" => some .bool
  | "None" => some .none
  | _ => none

/-- The type of a name: a constant, a name in scope, a global function, and inside functions a name that
the module binds later. -/
def ident (c : Setup) (id : Ident) : Check Ty := do
  let s ← get
  match constant? id.name with
  | some t => return t
  | none =>
    match s.scope.resolve? id.name with
    | some b =>
      if b.isApproximate then taint
      return b.type
    | none =>
      match c.rules.oracle.signature id.name with
      | some sig => return .function (some sig)
      | none =>
        if s.scope.isWildcard then
          approximate "scope" ("`" ++ id.name ++ "` may come from a wildcard load") id.span
          return .any
        else
          match if 0 < s.depth then c.forward.get? id.name else none with
          | some fwd =>
            if fwd.isApproximate then taint
            return fwd.type
          | none =>
            report (.notInScope id.name) id.span
            return .any

/-- What a call calls: the constructor of records, a global function that the oracle knows, or a value. -/
inductive Callee where
  | record
  | builtin (id : Ident) (sig : Signature)
  | value

def calleeOf (c : Setup) (s : Scope) : Expr → Callee
  | .ident id =>
    if s.has id.name then .value
    else if id.name = "struct" then .record
    else match c.rules.oracle.signature id.name with
      | some sig => .builtin id sig
      | none => .value
  | _ => .value

def argOf (kind name : Text) (type : Ty) : Arg :=
  match kind with
  | "named" => .named name type
  | "args" => .splat type
  | "kwargs" => .doubleSplat type
  | _ => .positional type

def isPlaced : Arg → Bool
  | .positional _ | .splat _ => true
  | _ => false

/-- The type of a record made by a call. Named arguments are its fields; others are matched against the
constructor's signature. -/
def recordCall (c : Setup) (args : List Arg) (span : Span) : Check Ty := do
  if args.any isPlaced then
    match c.rules.oracle.signature "struct" with
    | some sig => discard (settle (c.rules.call (.function (some sig)) args span))
    | none => pure ()
  let fields := args.filterMap fun
    | .named name t => some (name, t)
    | _ => none
  let isOpen := args.any fun
    | .doubleSplat _ => true
    | _ => false
  return .struct fields isOpen

/-- A call of a global function. A result without any dynamic part is precise whatever the arguments
are. -/
def builtinCall (c : Setup) (id : Ident) (sig : Signature) (args : List Arg) (before : Nat) (span : Span) :
    Check Ty := do
  let type ← settle (c.rules.callBuiltin id.name sig args span)
  if !type.hasAny then modify fun s => { s with taint := before }
  return type

/-- Binds an own name without an annotation to a type that holds more. -/
def widen (e : Expr) (before after : Ty) : Check Unit :=
  match e with
  | .ident id => modifyScope fun s =>
    if s.hasLocal id.name && !before.equal after && (s.annotation? id.name).isNone then
      s.retype id.name after
    else s
  | _ => pure ()

def addedBy (method : Text) (args : List Ty) : Option Ty :=
  match method, args with
  | "append", [t] => some t
  | "insert", [_, t] => some t
  | "extend", [t] => some t.element
  | _, _ => none

def placedTypes (args : List Arg) : List Ty :=
  args.filterMap fun
    | .positional t => some t
    | _ => none

/-- After a call of a method, the list it was called on may hold more. -/
def widenOnCall (callee : Expr) (args : List Arg) : Check Unit := do
  match callee with
  | .member _ (.ident id) method =>
    let s ← scope
    if s.hasLocal id.name then
      match s.resolve? id.name with
      | some b =>
        match b.type.single? with
        | some (.list elem) =>
          match addedBy method.name (placedTypes args) with
          | some added => widen (.ident id) b.type (.list (.union [elem, added]))
          | none => pure ()
        | _ => pure ()
      | none => pure ()
  | _ => pure ()

def sliceBound (value : Ty) (span : Span) (bound : TypeInfo) : Check Unit :=
  if bound.type.subtype (.union [.int, .none]) then pure ()
  else report (.incompatibleBinOp "[:]" value bound.type) span

def constantIndex : Expr → Option Int
  | .int _ value => some value
  | .unary _ "-" (.int _ value) => some (-value)
  | _ => none

def checkDefault (name : Text) (declared : TypeExpr) (default : Expr) (info : TypeInfo) : Check Unit :=
  if default.isHole || declared.isHole || info.type.subtype declared.denote then pure ()
  else report { TypingError.incompatibleAssignment declared.denote info.type with param := name } default.span

/-- The parameter that is written; collectors need no argument. -/
def paramOf (name : Ident) (kind : Text) (type : TypeExpr) (default : Expr) : Param :=
  ⟨.ofKind kind, name.name, type.denote, !default.isHole || (ParamMode.ofKind kind).isVariadic⟩

def signatureOf (params : List Param) (result : Ty) (span : Span) : Check (Option Signature) :=
  match Signature.make params result with
  | .ok sig => return some sig
  | .error e => do
    approximate "signature" e.message span
    return none

def boundType (sig : Option Signature) (name : Text) : Ty :=
  match (sig.bind fun sig => sig.params.reverse.find? (·.name == name)) with
  | some ⟨.args, _, t, _⟩ => .tupleOf t
  | some ⟨.kwargs, _, t, _⟩ => .dict .str t
  | some p => p.type
  | none => .any

def bindParams (path : NodePath) (sig : Option Signature) (i : Nat) : List ParamDecl → Check Unit
  | [] => pure ()
  | .hole :: rest => bindParams path sig (i + 1) rest
  | .param _ name _ declared _ :: rest => do
    let type := boundType sig name.name
    modifyScope fun s =>
      let s := s.bind name.name type false
      if declared.isHole then s else s.annotate name.name type
    note (0 :: i :: path) "Identifier" name.span ⟨type, false⟩
    bindParams path sig (i + 1) rest

/-- Binds a name, and holds it to its annotation if it has one. -/
def bindName (path : NodePath) (id : Ident) (type : Ty) (isApproximate : Bool) : Check Unit := do
  let s ← scope
  let info : TypeInfo := match s.annotation? id.name with
    | some declared => ⟨declared, false⟩
    | none => ⟨type, isApproximate⟩
  match s.annotation? id.name with
  | some declared =>
    if type.subtype declared then pure () else report (.incompatibleAssignment declared type) id.span
  | none => pure ()
  modify fun st =>
    { st with
      scope := st.scope.bind id.name info.type info.isApproximate
      loaded := if st.scope.isModule then st.loaded.erase id.name else st.loaded }
  note path "Identifier" id.span info

/-- The types that a value gives to `count` targets it is unpacked into. -/
def unpacked (c : Setup) (type : Ty) (count : Nat) (span : Span) : Check (List Ty) := do
  match type.fixedTuple? with
  | some types =>
    if types.length = count then return types
    else
      report { TypingError.incompatibleAssignment (.tuple (List.replicate count .any)) type with
        message := "cannot unpack `" ++ type.text ++ "` into " ++ toString count ++ " targets" } span
      return List.replicate count .any
  | none =>
    let elem ← settle (c.rules.iter type span)
    return List.replicate count elem

/-- Stores a value in a container. An own list or dictionary without an annotation comes to hold it. -/
def storeAt (c : Setup) (path : NodePath) (span : Span) (object index : Expr) (container at_ value : Ty) :
    Check Unit := do
  match container.single? with
  | some (.dict key old) =>
    widen object container (.dict (.union [key, at_]) (.union [old, value]))
    note path "IndexExpression" span ⟨value, false⟩
  | some (.list elem) =>
    if at_.subtype .int then pure () else report (.incompatibleBinOp "[]" container at_) span
    widen object container (.list (.union [elem, value]))
    note path "IndexExpression" span ⟨value, false⟩
  | _ =>
    let type ← settle (c.rules.index container at_ (constantIndex index) span)
    note path "IndexExpression" span ⟨type, false⟩

mutual

/-- Types an expression and notes its type. -/
def expr (c : Setup) (path : NodePath) : Expr → Check TypeInfo
  | .hole => return ⟨.none, false⟩
  | .ident id => noted path "Identifier" id.span (ident c id)
  | .str span _ => noted path "StringLiteral" span (pure .str)
  | .int span _ => noted path "IntegerLiteral" span (pure .int)
  | .float span _ => noted path "FloatLiteral" span (pure .float)
  | .bool span _ => noted path "BooleanLiteral" span (pure .bool)
  | .none span => noted path "NoneLiteral" span (pure .none)
  | .list span elems => noted path "ListLiteral" span do
    return .list (.union (← exprs c path 0 elems))
  | .tuple span elems => noted path "TupleLiteral" span do
    return .tuple (← exprs c path 0 elems)
  | .dict span items => noted path "DictLiteral" span do
    let types ← entries c path 0 items
    return .dict (.union (types.map (·.1))) (.union (types.map (·.2)))
  | .struct span items => noted path "StructLiteral" span do
    return .struct (← fields c path 0 items) false
  | .call span callee items => noted path "FunctionCall" span do
    match calleeOf c (← scope) callee with
    | .record =>
      let given ← args c (1 :: path) 0 items
      recordCall c given span
    | .builtin id sig =>
      note (0 :: path) "Identifier" id.span ⟨.function (some sig), false⟩
      let before := (← get).taint
      let given ← args c (1 :: path) 0 items
      builtinCall c id sig given before span
    | .value =>
      let f ← expr c (0 :: path) callee
      let given ← args c (1 :: path) 0 items
      let type ← settle (c.rules.call f.type given span)
      widenOnCall callee given
      return type
  | .member span object name => noted path "MemberAccessExpression" span do
    let value ← expr c (0 :: path) object
    settle (c.rules.attr value.type name.name span)
  | .index span object index => noted path "IndexExpression" span do
    let value ← expr c (0 :: path) object
    let at_ ← expr c (1 :: path) index
    settle (c.rules.index value.type at_.type (constantIndex index) span)
  | .slice span object start stop step => noted path "SliceExpression" span do
    let value ← expr c (0 :: path) object
    sliceBound value.type start.span (← expr c (1 :: path) start)
    sliceBound value.type stop.span (← expr c (2 :: path) stop)
    sliceBound value.type step.span (← expr c (3 :: path) step)
    settle (c.rules.slice value.type span)
  | .binary span op left right => noted path "BinaryExpression" span do
    let l ← expr c (0 :: path) left
    if op = "and" || op = "or" then
      let facts := NameFact.ofCondition (← scope) left
      let r ← aside (fun s => s.copy.narrow facts (op == "and") true) (expr c (1 :: path) right)
      return .union [l.type, r.type]
    else
      let r ← expr c (1 :: path) right
      settle (c.rules.binOp op l.type r.type span)
  | .unary span op operand => noted path "UnaryExpression" span do
    let value ← expr c (0 :: path) operand
    settle (c.rules.unOp op value.type span)
  | .conditional span condition yes no => noted path "ConditionalExpression" span do
    discard (expr c (0 :: path) condition)
    let facts := NameFact.ofCondition (← scope) condition
    let y ← aside (fun s => s.copy.narrow facts true true) (expr c (1 :: path) yes)
    let n ← aside (fun s => s.copy.narrow facts false true) (expr c (2 :: path) no)
    return .union [y.type, n.type]
  | .lambda span params body => noted path "LambdaExpression" span do
    let declared ← paramDecls c (1 :: path) 0 params
    let sig ← signatureOf declared .any span
    let result ← aside Scope.extend do
      bindParams (1 :: path) sig 0 params
      inBody (expr c (0 :: path) body)
    return .function (sig.map (·.withResult result.type))
  | .listComp span elem items => noted path "ListComprehension" span do
    aside Scope.extend do
      clauses c (1 :: path) 0 items
      let t ← expr c (0 :: path) elem
      return .list t.type
  | .dictComp span key value items => noted path "DictComprehension" span do
    aside Scope.extend do
      clauses c (2 :: path) 0 items
      let k ← expr c (0 :: path) key
      let v ← expr c (1 :: path) value
      return .dict k.type v.type

def exprs (c : Setup) (path : NodePath) (i : Nat) : List Expr → Check (List Ty)
  | [] => return []
  | e :: rest => do
    let first ← expr c (i :: path) e
    let others ← exprs c path (i + 1) rest
    return first.type :: others

def entries (c : Setup) (path : NodePath) (i : Nat) : List DictEntry → Check (List (Ty × Ty))
  | [] => return []
  | .hole :: rest => entries c path (i + 1) rest
  | .entry _ key value :: rest => do
    let k ← expr c (0 :: i :: path) key
    let v ← expr c (1 :: i :: path) value
    let others ← entries c path (i + 1) rest
    return (k.type, v.type) :: others

def fields (c : Setup) (path : NodePath) (i : Nat) : List FieldExpr → Check (List (Text × Ty))
  | [] => return []
  | .hole :: rest => fields c path (i + 1) rest
  | .field span name value :: rest => do
    let v ← expr c (0 :: i :: path) value
    note (i :: path) "StructField" span ⟨v.type, false⟩
    let others ← fields c path (i + 1) rest
    return (name.name, v.type) :: others

def args (c : Setup) (path : NodePath) (i : Nat) : List ArgExpr → Check (List Arg)
  | [] => return []
  | .hole :: rest => args c path (i + 1) rest
  | .arg span kind name value :: rest => do
    let v ← expr c (0 :: i :: path) value
    note (i :: path) "Argument" span ⟨v.type, false⟩
    let others ← args c path (i + 1) rest
    return argOf kind name v.type :: others

def paramDecls (c : Setup) (path : NodePath) (i : Nat) : List ParamDecl → Check (List Param)
  | [] => return []
  | .hole :: rest => paramDecls c path (i + 1) rest
  | .param _ name kind declared default :: rest => do
    let info ← expr c (1 :: i :: path) default
    checkDefault name.name declared default info
    let others ← paramDecls c path (i + 1) rest
    return paramOf name kind declared default :: others

def clauses (c : Setup) (path : NodePath) (i : Nat) : List Clause → Check Unit
  | [] => pure ()
  | .hole :: rest => clauses c path (i + 1) rest
  | .clause _ target iterable condition :: rest => do
    if iterable.isHole then
      discard (expr c (2 :: i :: path) condition)
      modifyScope fun s => s.narrow (NameFact.ofCondition s condition) true true
    else
      let info ← expr c (1 :: i :: path) iterable
      let elem ← settle (c.rules.iter info.type iterable.span)
      assign c (0 :: i :: path) elem info.isApproximate target
    clauses c path (i + 1) rest

def assign (c : Setup) (path : NodePath) (type : Ty) (isApproximate : Bool) : Expr → Check Unit
  | .ident id => bindName path id type isApproximate
  | .list span elems => do
    assignEach c path isApproximate 0 elems (← unpacked c type elems.length span)
  | .tuple span elems => do
    assignEach c path isApproximate 0 elems (← unpacked c type elems.length span)
  | .index span object index => do
    let container ← expr c (0 :: path) object
    let at_ ← expr c (1 :: path) index
    storeAt c path span object index container.type at_.type type
  | .member span object name => do
    let value ← expr c (0 :: path) object
    let attr ← settle (c.rules.attr value.type name.name span)
    note path "MemberAccessExpression" span ⟨attr, false⟩
  | _ => pure ()

def assignEach (c : Setup) (path : NodePath) (isApproximate : Bool) (i : Nat) : List Expr → List Ty → Check Unit
  | e :: rest, t :: types => do
    assign c (i :: path) t isApproximate e
    assignEach c path isApproximate (i + 1) rest types
  | _, _ => pure ()

end

end Gradual.Check
