import Gradual.NameMap
import Gradual.Span

/-! Syntax trees. Every node carries the stretch of source it came from. A place where a tree has no
child is a `hole`, be the child optional or missing. Operators and the kinds of arguments and parameters
are kept as they were written, for the checker takes any. -/

namespace Gradual

structure Ident where
  span : Span := {}
  name : Text
  deriving DecidableEq, Repr, Inhabited

inductive TypeExpr where
  | hole
  | simple (span : Span) (name : Ident)
  | generic (span : Span) (base : TypeExpr) (args : List TypeExpr)
  | union (span : Span) (members : List TypeExpr)
  deriving Repr, Inhabited

mutual

/-- An expression. A floating-point number is kept by its bits. -/
inductive Expr where
  | hole
  | ident (id : Ident)
  | str (span : Span) (value : Text)
  | int (span : Span) (value : Int)
  | float (span : Span) (bits : UInt64)
  | bool (span : Span) (value : Bool)
  | none (span : Span)
  | list (span : Span) (elems : List Expr)
  | tuple (span : Span) (elems : List Expr)
  | dict (span : Span) (entries : List DictEntry)
  | struct (span : Span) (fields : List FieldExpr)
  | call (span : Span) (callee : Expr) (args : List ArgExpr)
  | member (span : Span) (object : Expr) (name : Ident)
  | index (span : Span) (object index : Expr)
  | slice (span : Span) (object start stop step : Expr)
  | binary (span : Span) (op : Text) (left right : Expr)
  | unary (span : Span) (op : Text) (operand : Expr)
  | conditional (span : Span) (condition yes no : Expr)
  | lambda (span : Span) (params : List ParamDecl) (body : Expr)
  | listComp (span : Span) (elem : Expr) (clauses : List Clause)
  | dictComp (span : Span) (key value : Expr) (clauses : List Clause)

inductive DictEntry where
  | hole
  | entry (span : Span) (key value : Expr)

inductive FieldExpr where
  | hole
  | field (span : Span) (name : Ident) (value : Expr)

inductive ArgExpr where
  | hole
  | arg (span : Span) (kind name : Text) (value : Expr)

inductive ParamDecl where
  | hole
  | param (span : Span) (name : Ident) (kind : Text) (type : TypeExpr) (default : Expr)

/-- A clause of a comprehension. It binds a target if it has something to iterate over, and else
states a condition. -/
inductive Clause where
  | hole
  | clause (span : Span) (target iterable condition : Expr)

end

/-- A symbol taken from another module, and the name it goes by here. -/
inductive LoadSymbol where
  | hole
  | symbol (span : Span) (here : Option Ident) (name : Text)
  deriving DecidableEq, Repr, Inhabited

inductive Stmt where
  | hole
  | expr (e : Expr)
  | assign (span : Span) (op : Text) (target : Expr) (declared : TypeExpr) (value : Expr)
  | define (span : Span) (name : Ident) (params : List ParamDecl) (result : TypeExpr) (body : List Stmt)
  | ret (span : Span) (value : Expr)
  | branch (span : Span) (condition : Expr) (yes no : List Stmt)
  | forIn (span : Span) (target iterable : Expr) (body : List Stmt)
  | whileDo (span : Span) (condition : Expr) (body : List Stmt)
  | exit (span : Span)
  | next (span : Span)
  | pass (span : Span)
  | load (span : Span) (module : Text) (symbols : List LoadSymbol)

structure Module where
  span : Span := {}
  body : List Stmt

instance : Inhabited Expr := ⟨.hole⟩
instance : Inhabited Stmt := ⟨.hole⟩

namespace TypeExpr

def isHole : TypeExpr → Bool
  | .hole => true
  | _ => false

def form : TypeExpr → Text
  | .hole => ""
  | .simple _ _ => "SimpleTypeExpression"
  | .generic _ _ _ => "GenericTypeExpression"
  | .union _ _ => "UnionTypeExpression"

def span : TypeExpr → Span
  | .hole => {}
  | .simple span _ | .generic span _ _ | .union span _ => span

end TypeExpr

namespace Expr

def isHole : Expr → Bool
  | .hole => true
  | _ => false

def form : Expr → Text
  | .hole => ""
  | .ident _ => "Identifier"
  | .str _ _ => "StringLiteral"
  | .int _ _ => "IntegerLiteral"
  | .float _ _ => "FloatLiteral"
  | .bool _ _ => "BooleanLiteral"
  | .none _ => "NoneLiteral"
  | .list _ _ => "ListLiteral"
  | .tuple _ _ => "TupleLiteral"
  | .dict _ _ => "DictLiteral"
  | .struct _ _ => "StructLiteral"
  | .call _ _ _ => "FunctionCall"
  | .member _ _ _ => "MemberAccessExpression"
  | .index _ _ _ => "IndexExpression"
  | .slice _ _ _ _ _ => "SliceExpression"
  | .binary _ _ _ _ => "BinaryExpression"
  | .unary _ _ _ => "UnaryExpression"
  | .conditional _ _ _ _ => "ConditionalExpression"
  | .lambda _ _ _ => "LambdaExpression"
  | .listComp _ _ _ => "ListComprehension"
  | .dictComp _ _ _ _ => "DictComprehension"

def span : Expr → Span
  | .hole => {}
  | .ident id => id.span
  | .str span _ | .int span _ | .float span _ | .bool span _ | .none span => span
  | .list span _ | .tuple span _ | .dict span _ | .struct span _ => span
  | .call span _ _ | .member span _ _ | .index span _ _ | .slice span _ _ _ _ => span
  | .binary span _ _ _ | .unary span _ _ | .conditional span _ _ _ => span
  | .lambda span _ _ | .listComp span _ _ | .dictComp span _ _ _ => span

def isTarget : Expr → Bool
  | .ident _ | .list _ _ | .tuple _ _ | .member _ _ _ | .index _ _ _ => true
  | _ => false

def isCall : Expr → Bool
  | .call _ _ _ => true
  | _ => false

def isTrue : Expr → Bool
  | .bool _ value => value
  | .ident id => id.name == "True"
  | _ => false

def isNone : Expr → Bool
  | .none _ => true
  | .ident id => id.name == "None"
  | _ => false

end Expr

namespace Stmt

def form : Stmt → Text
  | .hole => ""
  | .expr e => e.form
  | .assign _ _ _ _ _ => "AssignmentStatement"
  | .define _ _ _ _ _ => "FunctionDefinition"
  | .ret _ _ => "ReturnStatement"
  | .branch _ _ _ _ => "IfStatement"
  | .forIn _ _ _ _ => "ForLoop"
  | .whileDo _ _ _ => "WhileLoop"
  | .exit _ => "BreakStatement"
  | .next _ => "ContinueStatement"
  | .pass _ => "PassStatement"
  | .load _ _ _ => "LoadStatement"

def span : Stmt → Span
  | .hole => {}
  | .expr e => e.span
  | .assign span _ _ _ _ | .define span _ _ _ _ | .ret span _ | .branch span _ _ _ => span
  | .forIn span _ _ _ | .whileDo span _ _ | .exit span | .next span | .pass span => span
  | .load span _ _ => span

def loaded? : Stmt → Option Text
  | .load _ module _ => if module = "" then none else some module
  | _ => none

end Stmt

/-- The operator that an augmented assignment applies; empty for a plain one. -/
def assignedOperator (op : Text) : Text :=
  if op = "=" ∨ op.length < 2 then "" else String.ofList op.toList.dropLast

namespace Module

/-- The modules that the load statements of a module's own block name, each once, in order. -/
def loads (m : Module) : List Text :=
  (m.body.filterMap Stmt.loaded?).eraseDups

end Module

end Gradual
