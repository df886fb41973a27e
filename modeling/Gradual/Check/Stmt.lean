import Gradual.Check.Expr

/-! Statements. Walking a statement tells whether what follows it can be reached. Branches are walked in
copies of the scope and come together afterwards; a loop's body is walked once. -/

namespace Gradual.Check

def allLists (t : Ty) : Bool :=
  !t.isNever && t.alts.all fun
    | .list _ => true
    | _ => false

/-- The value of an augmented assignment. A list comes to hold what the other operand yields. -/
def augmented (c : Setup) (op : Text) (current right : Ty) (span rightSpan : Span) : Check Ty := do
  if op = "+" && allLists current then
    let elem ← settle (c.rules.iter right rightSpan)
    return .list (.union [current.element, elem])
  else settle (c.rules.binOp op current right span)

def targetValue (c : Setup) (path : NodePath) (target : Expr) : Check Ty :=
  if target.isHole then return .any
  else do return (← expr c path target).type

def assignment (c : Setup) (path : NodePath) (span : Span) (op : Text) (target : Expr) (declared : TypeExpr)
    (value : Expr) : Check Unit := do
  if assignedOperator op = "" then
    let info ← expr c (1 :: path) value
    if !declared.isHole then
      match target with
      | .ident id => modifyScope fun s => s.annotate id.name declared.denote
      | _ =>
        if info.type.subtype declared.denote then pure ()
        else report (.incompatibleAssignment declared.denote info.type) value.span
    assign c (0 :: path) info.type info.isApproximate target
  else
    let current ← targetValue c (0 :: path) target
    let right ← expr c (1 :: path) value
    let type ← augmented c (assignedOperator op) current right.type span value.span
    match target with
    | .ident id => bindName (0 :: path) id type right.isApproximate
    | _ => pure ()

/-- Notes a return in the innermost function, unless the code is dead. -/
def returned (s : State) (info : TypeInfo) : State :=
  match s.functions with
  | f :: rest =>
    if s.dead = 0 then
      { s with functions :=
        { f with returns := f.returns ++ [info.type]
                 isApproximate := f.isApproximate || info.isApproximate } :: rest }
    else s
  | [] => s

def returnError (declared found : Ty) : TypingError :=
  { TypingError.incompatibleAssignment declared found with
    message := "return type `" ++ found.text ++ "` is incompatible with declared `" ++ declared.text ++ "`" }

def returnStmt (c : Setup) (path : NodePath) (span : Span) (value : Expr) : Check Unit := do
  let info ← expr c (0 :: path) value
  match (← get).functions with
  | { declared := some declared, .. } :: _ =>
    if info.type.subtype declared then pure () else report (returnError declared info.type) span
  | _ => pure ()
  modify fun s => returned s info

/-- Leaves the innermost loop or begins its next round, unless the code is dead. -/
def leaveLoop (isExit : Bool) : Check Unit :=
  modify fun s =>
    match s.loops with
    | l :: rest =>
      if s.dead = 0 then
        let l := if isExit then { l with exits := l.exits ++ [s.scope.own] }
          else { l with nexts := l.nexts ++ [s.scope.own] }
        { s with loops := l :: rest }
      else s
    | [] => s

def bindLoaded (path : NodePath) (id : Ident) (info : TypeInfo) : Check Unit := do
  modify fun s =>
    { s with
      scope := s.scope.bind id.name info.type info.isApproximate
      loaded := s.loaded.insert id.name () }
  note path "Identifier" id.span info

def bindExports (i : Interface) : Check Unit :=
  modify fun s =>
    { s with
      scope := i.exports.entries.foldl (fun sc e => sc.bind e.1 e.2 false) s.scope
      loaded := i.exports.entries.foldl (fun l e => l.insert e.1 ()) s.loaded }

def notExported (module name : Text) : TypingError :=
  { TypingError.notInScope name with
    message := "module " ++ Text.quoted module ++ " does not export `" ++ name ++ "`" }

/-- Loads a symbol. The symbol `*` stands for everything that the module exports. -/
def loadSymbol (path : NodePath) (module : Text) (source : Option Interface) : LoadSymbol → Check Unit
  | .hole => pure ()
  | .symbol span here name => do
    let id := here.getD ⟨{}, name⟩
    match source with
    | none =>
      if name = "*" then modifyScope Scope.markWildcard
      else bindLoaded path id ⟨.any, true⟩
    | some i =>
      if name = "*" then bindExports i
      else
        match i.get? name with
        | some t => bindLoaded path id ⟨t, false⟩
        | none =>
          report (notExported module name) span
          bindLoaded path id ⟨.any, false⟩

def loadSymbols (path : NodePath) (module : Text) (source : Option Interface) (i : Nat) :
    List LoadSymbol → Check Unit
  | [] => pure ()
  | sym :: rest => do
    loadSymbol (i :: path) module source sym
    loadSymbols path module source (i + 1) rest

def load (c : Setup) (path : NodePath) (span : Span) (module : Text) (symbols : List LoadSymbol) : Check Unit := do
  let source := c.loads.get? module
  if source.isNone then
    approximate "load" ("module " ++ Text.quoted module ++ " has no published interface") span
  loadSymbols path module source 0 symbols

/-- The result of a function: what it declares, or what it returns; a body that can come to its end
returns `None` there. -/
def resultOf (f : FunctionFrame) (live : Bool) : Ty :=
  match f.declared with
  | some t => t
  | none => .union (f.returns ++ if live then [.none] else [])

def declaredResult (result : TypeExpr) : Option Ty :=
  if result.isHole then none else some result.denote

def liveFrame (walked : Bool × Frame) : List Frame :=
  if walked.1 then [walked.2] else []

/-- Brings branches together. Without one, what follows is not reached. -/
def mergeLive (branches : List Frame) : Check Bool := do
  modifyScope fun s => s.merge branches
  return !branches.isEmpty

mutual

/-- Walks a statement; tells whether what follows can be reached. -/
def stmt (c : Setup) (path : NodePath) : Stmt → Check Bool
  | .hole => return true
  | .expr e => do
    let info ← expr c path e
    return !(e.isCall && info.type.isNever)
  | .assign span op target declared value => do
    assignment c path span op target declared value
    return true
  | .define span name params result body => do
    let declared := declaredResult result
    let given ← paramDecls c (1 :: path) 0 params
    let sig ← signatureOf given result.denote span
    modifyScope fun s => s.bind name.name (.function sig) declared.isNone
    let (live, frame) ← aside Scope.extend do
      bindParams (1 :: path) sig 0 params
      inFunction declared (block c (2 :: path) 0 body)
    let type := Ty.function (sig.map (·.withResult (resultOf frame live)))
    bindName (0 :: path) name type (frame.isApproximate && declared.isNone)
    return true
  | .ret span value => do
    returnStmt c path span value
    return false
  | .branch _ condition yes no => do
    discard (expr c (0 :: path) condition)
    let facts := NameFact.ofCondition (← scope) condition
    let y ← branch (fun s => s.narrow facts true false) (block c (1 :: path) 0 yes)
    let n ← branch (fun s => s.narrow facts false false) (block c (2 :: path) 0 no)
    mergeLive (liveFrame y ++ liveFrame n)
  | .forIn _ target iterable body => do
    let info ← expr c (1 :: path) iterable
    let elem ← settle (c.rules.iter info.type iterable.span)
    let before := (← scope).own
    let ((live, loop), after) ← branch id do
      assign c (0 :: path) elem info.isApproximate target
      inLoop (block c (2 :: path) 0 body)
    mergeLive (before :: liveFrame (live, after) ++ loop.nexts ++ loop.exits)
  | .whileDo _ condition body => do
    discard (expr c (0 :: path) condition)
    let facts := NameFact.ofCondition (← scope) condition
    let before := (← scope).own
    let ((live, loop), after) ← branch (fun s => s.narrow facts true false)
      (inLoop (block c (1 :: path) 0 body))
    if condition.isTrue then mergeLive loop.exits
    else mergeLive (before :: liveFrame (live, after) ++ loop.nexts ++ loop.exits)
  | .exit _ => do
    leaveLoop true
    return false
  | .next _ => do
    leaveLoop false
    return false
  | .pass _ => return true
  | .load span module symbols => do
    load c path span module symbols
    return true

/-- Walks statements in order; what follows one that does not come to its end is walked as dead code. -/
def block (c : Setup) (path : NodePath) (i : Nat) : List Stmt → Check Bool
  | [] => return true
  | s :: rest => do
    if ← stmt c (i :: path) s then block c path (i + 1) rest
    else
      unreached (deadBlock c path (i + 1) rest)
      return false

def deadBlock (c : Setup) (path : NodePath) (i : Nat) : List Stmt → Check Unit
  | [] => pure ()
  | s :: rest => do
    discard (stmt c (i :: path) s)
    deadBlock c path (i + 1) rest

end

end Gradual.Check
