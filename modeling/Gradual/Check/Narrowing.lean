import Gradual.Scope
import Gradual.Syntax.Basic
import Gradual.Ty.Meet
import Gradual.Ty.Name

/-! What conditions say about names. A condition that compares the type of a name, or the name itself
with `None`, and conditions put together from such ones, narrow the type of the name on either branch. -/

namespace Gradual

/-- What a condition says about a name: the type it has where the condition is read, where the condition
holds and where it fails. -/
structure NameFact where
  name : Text
  current : Ty
  yes : Ty
  no : Ty

/-- The alternatives of `t` that are not below `target`. The dynamic type is kept. -/
def Ty.without (t target : Ty) : Ty :=
  t.filter fun a => a.isAny || !(Ty.only a).subtype target

namespace NameFact

def negate (f : NameFact) : NameFact :=
  { f with yes := f.no, no := f.yes }

def narrowTo (s : Scope) (name : Text) (target : Ty) : Option NameFact :=
  (s.resolve? name).map fun b =>
    { name := name, current := b.type, yes := b.type.meet target, no := b.type.without target }

def soleName? : List ArgExpr → Option Text
  | [.arg _ "positional" _ (.ident id)] => some id.name
  | _ => none

def ofComparison (s : Scope) (subject other : Expr) : Option NameFact :=
  match subject with
  | .call _ (.ident callee) args =>
    match other, soleName? args with
    | .str _ typeName, some name =>
      if callee.name = "type" && !s.has "type" then narrowTo s name (.ofName typeName [] false) else none
    | _, _ => none
  | .ident id => if other.isNone then narrowTo s id.name .none else none
  | _ => none

/-- The fact about a name, weakened to the branch where it need not hold: the other one of two conditions
may decide. -/
def weaken (conjunction : Bool) (f : NameFact) : NameFact :=
  if conjunction then { f with no := .union [f.no, f.current] }
  else { f with yes := .union [f.yes, f.current] }

def combine (conjunction : Bool) (f g : NameFact) : NameFact :=
  if conjunction then { f with yes := f.yes.meet g.yes, no := .union [f.no, g.no] }
  else { f with yes := .union [f.yes, g.yes], no := f.no.meet g.no }

/-- The facts of two conditions, of which both hold or one does. -/
def combineAll (conjunction : Bool) (left right : List NameFact) : List NameFact :=
  (left.map fun f =>
    match right.find? (·.name == f.name) with
    | some g => combine conjunction f g
    | none => f.weaken conjunction)
  ++ (right.filter fun g => !left.any (·.name == g.name)).map (weaken conjunction)

def ofCondition (s : Scope) : Expr → List NameFact
  | .unary _ op operand => if op = "not" then (ofCondition s operand).map negate else []
  | .binary _ op left right =>
    if op = "and" then combineAll true (ofCondition s left) (ofCondition s right)
    else if op = "or" then combineAll false (ofCondition s left) (ofCondition s right)
    else if op = "==" || op = "!=" then
      match ofComparison s left right <|> ofComparison s right left with
      | some f => [if op = "!=" then f.negate else f]
      | none => []
    else []
  | .ident id =>
    match s.resolve? id.name with
    | some b => [{ name := id.name, current := b.type, yes := b.type.without .none, no := b.type }]
    | none => []
  | _ => []

end NameFact

/-- The scope of a branch on which a condition holds or fails. Names that are bound further out are
narrowed only if they may be shadowed. -/
def Scope.narrow (s : Scope) (facts : List NameFact) (holds shadow : Bool) : Scope :=
  facts.foldl (fun s f =>
    if shadow || s.hasLocal f.name then s.retype f.name (if holds then f.yes else f.no) else s) s

end Gradual
