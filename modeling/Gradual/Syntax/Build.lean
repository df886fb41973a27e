import Gradual.Syntax.Basic

/-! Building syntax trees by hand. The nodes have no place in a source until one is given to them. -/

namespace Gradual

namespace Ident

def of (name : Text) : Ident := ⟨{}, name⟩

end Ident

namespace TypeExpr

def named (name : Text) : TypeExpr := .simple {} (.of name)

def applied (base : TypeExpr) (args : List TypeExpr) : TypeExpr := .generic {} base args

def oneOf (members : List TypeExpr) : TypeExpr := .union {} members

def withSpan (span : Span) : TypeExpr → TypeExpr
  | .hole => .hole
  | .simple _ name => .simple span name
  | .generic _ base args => .generic span base args
  | .union _ members => .union span members

end TypeExpr

namespace ArgExpr

def positional (value : Expr) : ArgExpr := .arg {} "positional" "" value

def named (name : Text) (value : Expr) : ArgExpr := .arg {} "named" name value

def splat (value : Expr) : ArgExpr := .arg {} "args" "" value

def doubleSplat (value : Expr) : ArgExpr := .arg {} "kwargs" "" value

def withSpan (span : Span) : ArgExpr → ArgExpr
  | .hole => .hole
  | .arg _ kind name value => .arg span kind name value

end ArgExpr

namespace ParamDecl

def plain (name : Text) (type : TypeExpr) (default : Expr := .hole) : ParamDecl :=
  .param {} (.of name) "pos_or_named" type default

def posOnly (name : Text) (type : TypeExpr) : ParamDecl := .param {} (.of name) "pos_only" type .hole

def namedOnly (name : Text) (type : TypeExpr) (default : Expr) : ParamDecl :=
  .param {} (.of name) "named_only" type default

def args (name : Text) (type : TypeExpr) : ParamDecl := .param {} (.of name) "args" type .hole

def kwargs (name : Text) (type : TypeExpr) : ParamDecl := .param {} (.of name) "kwargs" type .hole

def withSpan (span : Span) : ParamDecl → ParamDecl
  | .hole => .hole
  | .param _ name kind type default => .param span name kind type default

end ParamDecl

namespace Clause

def forIn (target iterable : Expr) : Clause := .clause {} target iterable .hole

def onlyIf (condition : Expr) : Clause := .clause {} .hole .hole condition

def withSpan (span : Span) : Clause → Clause
  | .hole => .hole
  | .clause _ target iterable condition => .clause span target iterable condition

end Clause

namespace DictEntry

def withSpan (span : Span) : DictEntry → DictEntry
  | .hole => .hole
  | .entry _ key value => .entry span key value

end DictEntry

namespace FieldExpr

def named (name : Text) (value : Expr) : FieldExpr := .field {} (.of name) value

def withSpan (span : Span) : FieldExpr → FieldExpr
  | .hole => .hole
  | .field _ name value => .field span name value

end FieldExpr

namespace Expr

def name (name : Text) : Expr := .ident (.of name)

def attr (object : Expr) (name : Text) : Expr := .member {} object (.of name)

def negation (operand : Expr) : Expr := .unary {} "not" operand

def withSpan (span : Span) : Expr → Expr
  | .hole => .hole
  | .ident id => .ident { id with span := span }
  | .str _ value => .str span value
  | .int _ value => .int span value
  | .float _ bits => .float span bits
  | .bool _ value => .bool span value
  | .none _ => .none span
  | .list _ elems => .list span elems
  | .tuple _ elems => .tuple span elems
  | .dict _ entries => .dict span entries
  | .struct _ fields => .struct span fields
  | .call _ callee args => .call span callee args
  | .member _ object name => .member span object name
  | .index _ object place => .index span object place
  | .slice _ object start stop step => .slice span object start stop step
  | .binary _ op left right => .binary span op left right
  | .unary _ op operand => .unary span op operand
  | .conditional _ condition yes no => .conditional span condition yes no
  | .lambda _ params body => .lambda span params body
  | .listComp _ elem clauses => .listComp span elem clauses
  | .dictComp _ key value clauses => .dictComp span key value clauses

end Expr

namespace LoadSymbol

def same (name : Text) : LoadSymbol := .symbol {} (some (.of name)) name

def renamed (here name : Text) : LoadSymbol := .symbol {} (some (.of here)) name

def bare (name : Text) : LoadSymbol := .symbol {} none name

def withSpan (span : Span) : LoadSymbol → LoadSymbol
  | .hole => .hole
  | .symbol _ here name => .symbol span here name

end LoadSymbol

namespace Stmt

def set (target value : Expr) : Stmt := .assign {} "=" target .hole value

def withSpan (span : Span) : Stmt → Stmt
  | .hole => .hole
  | .expr e => .expr (e.withSpan span)
  | .assign _ op target declared value => .assign span op target declared value
  | .define _ name params result body => .define span name params result body
  | .ret _ value => .ret span value
  | .branch _ condition yes no => .branch span condition yes no
  | .forIn _ target iterable body => .forIn span target iterable body
  | .whileDo _ condition body => .whileDo span condition body
  | .exit _ => .exit span
  | .next _ => .next span
  | .pass _ => .pass span
  | .load _ module symbols => .load span module symbols

end Stmt

end Gradual
