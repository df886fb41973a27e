import Gradual.Syntax.Basic

/-! Writing syntax trees as JSON. What every node is made of is told here once; how a node is written from
its parts is up to a style. The standard style is what trees are read from. -/

namespace Gradual

inductive TreePart where
  | text (t : Text)
  | optionalText (t : Text)
  | int (n : Int)
  | float (bits : UInt64)
  | bool (b : Bool)
  | child (j : Option Json)
  | children (js : List (Option Json))
  | optionalChildren (js : List (Option Json))

/-- How a node is written, given its form, its place and its parts. -/
structure TreeStyle where
  node : Text → Span → List (Text × TreePart) → Json

namespace TreeStyle

variable (s : TreeStyle)

def ident (id : Ident) : Json :=
  s.node "Identifier" id.span [("name", .text id.name)]

def name (id : Ident) : TreePart :=
  .child (some (s.ident id))

mutual

def type : TypeExpr → Option Json
  | .hole => none
  | .simple span id => some (s.node "SimpleTypeExpression" span [("name", s.name id)])
  | .generic span base args => some (s.node "GenericTypeExpression" span
      [("base", .child (type base)), ("arguments", .children (types args))])
  | .union span members => some (s.node "UnionTypeExpression" span [("members", .children (types members))])

def types : List TypeExpr → List (Option Json)
  | [] => []
  | t :: rest => type t :: types rest

end

mutual

def expr : Expr → Option Json
  | .hole => none
  | .ident id => some (s.ident id)
  | .str span value => some (s.node "StringLiteral" span [("value", .text value)])
  | .int span value => some (s.node "IntegerLiteral" span [("value", .int value)])
  | .float span bits => some (s.node "FloatLiteral" span [("value", .float bits)])
  | .bool span value => some (s.node "BooleanLiteral" span [("value", .bool value)])
  | .none span => some (s.node "NoneLiteral" span [])
  | .list span elems => some (s.node "ListLiteral" span [("elements", .children (exprs elems))])
  | .tuple span elems => some (s.node "TupleLiteral" span [("elements", .children (exprs elems))])
  | .dict span es => some (s.node "DictLiteral" span [("entries", .children (entries es))])
  | .struct span fs => some (s.node "StructLiteral" span [("fields", .children (fields fs))])
  | .call span callee as => some (s.node "FunctionCall" span
      [("callee", .child (expr callee)), ("arguments", .children (args as))])
  | .member span object id => some (s.node "MemberAccessExpression" span
      [("object", .child (expr object)), ("member", s.name id)])
  | .index span object place => some (s.node "IndexExpression" span
      [("object", .child (expr object)), ("index", .child (expr place))])
  | .slice span object start stop step => some (s.node "SliceExpression" span
      [("object", .child (expr object)), ("start", .child (expr start)), ("stop", .child (expr stop)),
        ("step", .child (expr step))])
  | .binary span op left right => some (s.node "BinaryExpression" span
      [("operator", .text op), ("left", .child (expr left)), ("right", .child (expr right))])
  | .unary span op operand => some (s.node "UnaryExpression" span
      [("operator", .text op), ("operand", .child (expr operand))])
  | .conditional span condition yes no => some (s.node "ConditionalExpression" span
      [("condition", .child (expr condition)), ("then", .child (expr yes)), ("else", .child (expr no))])
  | .lambda span ps body => some (s.node "LambdaExpression" span
      [("params", .children (params ps)), ("body", .child (expr body))])
  | .listComp span elem cs => some (s.node "ListComprehension" span
      [("element", .child (expr elem)), ("clauses", .children (clauses cs))])
  | .dictComp span key value cs => some (s.node "DictComprehension" span
      [("key", .child (expr key)), ("value", .child (expr value)), ("clauses", .children (clauses cs))])

def exprs : List Expr → List (Option Json)
  | [] => []
  | e :: rest => expr e :: exprs rest

def entry : DictEntry → Option Json
  | .hole => none
  | .entry span key value => some (s.node "DictEntry" span
      [("key", .child (expr key)), ("value", .child (expr value))])

def entries : List DictEntry → List (Option Json)
  | [] => []
  | e :: rest => entry e :: entries rest

def field : FieldExpr → Option Json
  | .hole => none
  | .field span id value => some (s.node "StructField" span
      [("name", s.name id), ("value", .child (expr value))])

def fields : List FieldExpr → List (Option Json)
  | [] => []
  | f :: rest => field f :: fields rest

def arg : ArgExpr → Option Json
  | .hole => none
  | .arg span kind name value => some (s.node "Argument" span
      [("kind", .text kind), ("name", .optionalText name), ("value", .child (expr value))])

def args : List ArgExpr → List (Option Json)
  | [] => []
  | a :: rest => arg a :: args rest

def param : ParamDecl → Option Json
  | .hole => none
  | .param span id kind declared default => some (s.node "FunctionParameter" span
      [("name", s.name id), ("kind", .text kind), ("paramType", .child (s.type declared)),
        ("default", .child (expr default))])

def params : List ParamDecl → List (Option Json)
  | [] => []
  | p :: rest => param p :: params rest

def clause : Clause → Option Json
  | .hole => none
  | .clause span target iterable condition => some (s.node "ComprehensionClause" span
      [("target", .child (expr target)), ("iterable", .child (expr iterable)),
        ("condition", .child (expr condition))])

def clauses : List Clause → List (Option Json)
  | [] => []
  | c :: rest => clause c :: clauses rest

end

def symbol : LoadSymbol → Option Json
  | .hole => none
  | .symbol span here name => some (s.node "LoadSymbol" span
      [("local", .child (here.map s.ident)), ("name", .text name)])

mutual

def stmt : Stmt → Option Json
  | .hole => none
  | .expr e => s.expr e
  | .assign span op target declared value => some (s.node "AssignmentStatement" span
      [("operator", .text op), ("left", .child (s.expr target)), ("annotation", .child (s.type declared)),
        ("right", .child (s.expr value))])
  | .define span id ps result body => some (s.node "FunctionDefinition" span
      [("id", s.name id), ("params", .children (s.params ps)), ("returnType", .child (s.type result)),
        ("body", .children (stmts body))])
  | .ret span value => some (s.node "ReturnStatement" span [("argument", .child (s.expr value))])
  | .branch span condition yes no => some (s.node "IfStatement" span
      [("condition", .child (s.expr condition)), ("then", .children (stmts yes)),
        ("else", .optionalChildren (stmts no))])
  | .forIn span target iterable body => some (s.node "ForLoop" span
      [("target", .child (s.expr target)), ("iterable", .child (s.expr iterable)),
        ("body", .children (stmts body))])
  | .whileDo span condition body => some (s.node "WhileLoop" span
      [("condition", .child (s.expr condition)), ("body", .children (stmts body))])
  | .exit span => some (s.node "BreakStatement" span [])
  | .next span => some (s.node "ContinueStatement" span [])
  | .pass span => some (s.node "PassStatement" span [])
  | .load span source symbols => some (s.node "LoadStatement" span
      [("module", .text source), ("symbols", .children (symbols.map s.symbol))])

def stmts : List Stmt → List (Option Json)
  | [] => []
  | first :: rest => stmt first :: stmts rest

end

def tree (m : Module) : Json :=
  s.node "Module" m.span [("body", .children (s.stmts m.body))]

def array (js : List (Option Json)) : Json :=
  .arr (js.map (·.getD .null))

/-- The decimal text of a floating-point number, digit for digit. An infinite one is written as a number
that is too large for any other. -/
def floatText (bits : UInt64) : Text :=
  let sign := if bits.toNat < Nat.pow 2 63 then "" else "-"
  let exponent := bits.toNat / Nat.pow 2 52 % Nat.pow 2 11
  let fraction := bits.toNat % Nat.pow 2 52
  let mantissa := if exponent = 0 then fraction else fraction + Nat.pow 2 52
  let down := 1075 - max exponent 1
  sign ++
    if exponent = 2047 then "1e999"
    else if max exponent 1 < 1075 then toString (mantissa * Nat.pow 5 down) ++ "e-" ++ toString down
    else toString (mantissa * Nat.pow 2 (exponent - 1075))

def standardPart : TreePart → Option Json
  | .text t => some (.str t)
  | .optionalText t => if t = "" then none else some (.str t)
  | .int n => some (.int n)
  | .float bits => some (.num (floatText bits))
  | .bool b => some (.bool b)
  | .child j => j
  | .children js => some (array js)
  | .optionalChildren js => if js.isEmpty then none else some (array js)

/-- The style that trees are read from: an object with the form, the parts that are there, and the place
unless it is unknown. -/
def standard : TreeStyle where
  node form span parts :=
    .obj (("type", .str form)
      :: (parts.filterMap fun (key, part) => (standardPart part).map fun j => (key, j))
      ++ if span.isNone then [] else [("span", span.toJson)])

end TreeStyle

def Module.toJson (m : Module) : Json :=
  TreeStyle.standard.tree m

end Gradual
