import Gradual.Check.Stmt

/-! Checking a module. Function bodies may use names that the module binds later, so these are collected
first. -/

namespace Gradual

namespace Forward

def paramOf : ParamDecl → Option Param
  | .hole => none
  | .param _ name kind type default => some ⟨.ofKind kind, name.name, type.denote, !default.isHole⟩

def ofDefinition (params : List ParamDecl) (result : TypeExpr) : Forward where
  type := match Signature.make (params.filterMap paramOf) result.denote with
    | .ok sig => .function (some sig)
    | .error _ => .function none
  isApproximate := result.isHole

mutual

def targetNames : Expr → List Text
  | .ident id => [id.name]
  | .list _ elems | .tuple _ elems => elementNames elems
  | _ => []

def elementNames : List Expr → List Text
  | [] => []
  | e :: rest => targetNames e ++ elementNames rest

end

/-- Adds an assigned name, of which nothing is known. A definition of the name says more. -/
def addName (known : NameMap Forward) (name : Text) : NameMap Forward :=
  if known.contains name then known else known.insert name ⟨.any, true⟩

mutual

def collectStmt (known : NameMap Forward) : Stmt → NameMap Forward
  | .define _ name params result _ => known.insert name.name (ofDefinition params result)
  | .assign _ _ target _ _ => (targetNames target).foldl addName known
  | .branch _ _ yes no => collect (collect known yes) no
  | .forIn _ _ _ body => collect known body
  | .whileDo _ _ body => collect known body
  | _ => known

def collect (known : NameMap Forward) : List Stmt → NameMap Forward
  | [] => known
  | s :: rest => collect (collectStmt known s) rest

end

end Forward

/-- What checking a module tells. It is broken if an oracle was asked about operands that its rule cannot
take apart. -/
structure ModuleReport where
  interface : Interface := {}
  errors : List TypingError := []
  approximations : List Approximation := []
  types : TypeMap := {}
  globals : Scope := {}
  isBroken : Bool := false

namespace Module

def walked (rules : Rules) (loads : NameMap Interface) (m : Module) : State :=
  ((Check.block ⟨rules, loads, Forward.collect .empty m.body⟩ [] 0 m.body).run {}).2

/-- Whether a module exports a name of its scope: one that does not begin with an underscore and was not
loaded. -/
def isExported (loaded : NameSet) (name : Text) : Bool :=
  !Text.startsWith name "_" && !loaded.contains name

def check (rules : Rules) (loads : NameMap Interface) (m : Module) : ModuleReport :=
  let s := walked rules loads m
  { interface := .ofFrame s.scope.own (isExported s.loaded)
    errors := s.errors
    approximations := s.approximations
    types := s.types
    globals := s.scope
    isBroken := s.isBroken }

def absentMessage : Text := "typechecker: module is nil"

end Module

end Gradual
