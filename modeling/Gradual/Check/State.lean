import Gradual.Interface
import Gradual.Oracle.Rules
import Gradual.Scope

/-! The state of a check. A check walks a module once, in the order of its text. It keeps the scope at the
point it has reached, what it reported so far, and the type of every node it passed. -/

namespace Gradual

/-- The way to a node: the places of its ancestors among their siblings, from the node up. -/
abbrev NodePath := List Nat

/-- A type, and whether an approximation lies beneath it. -/
structure TypeInfo where
  type : Ty
  isApproximate : Bool := false

structure TypeNote where
  path : NodePath
  form : Text
  span : Span
  info : TypeInfo

namespace TypeNote

/-- What notes are ordered by, in this order: where the node starts, its form, where it ends, its type, and
whether that is approximate. -/
def notAfter (a b : TypeNote) : Bool :=
  let starts := (compare a.span.start.line b.span.start.line).then
    (compare a.span.start.column b.span.start.column)
  let ends := (compare a.span.stop.line b.span.stop.line).then
    (compare a.span.stop.column b.span.stop.column)
  let types := (compare a.info.type.text b.info.type.text).then
    (compare a.info.isApproximate.toNat b.info.isApproximate.toNat)
  ((starts.then (compare a.form b.form)).then (ends.then types)).isLE

/-- Whether one number comes before another as far as 64 bits tell: numbers whose difference has no place
in them count as being the other way round. -/
def isBefore (a b : Int) : Bool :=
  if a - b ≤ Decimal.minInt then false
  else if Decimal.maxInt < a - b then true
  else a < b

/-- The order of listings. Nodes come as they start, line by line, as far as 64 bits tell; nodes that start
together come in the other order. -/
def isListedBefore (a b : TypeNote) : Bool :=
  if a.span.start.line ≠ b.span.start.line then isBefore a.span.start.line b.span.start.line
  else if a.span.start.column ≠ b.span.start.column then isBefore a.span.start.column b.span.start.column
  else notAfter a b

end TypeNote

/-- The types of nodes. The latest note comes first, and of the notes of one node it is the one that
counts. -/
structure TypeMap where
  notes : List TypeNote := []

namespace TypeMap

def insert (m : TypeMap) (note : TypeNote) : TypeMap :=
  ⟨note :: m.notes⟩

def get? (m : TypeMap) (path : NodePath) : Option TypeInfo :=
  (m.notes.find? (·.path == path)).map (·.info)

def latest (m : TypeMap) : List TypeNote :=
  (m.notes.foldl (fun kept n => if kept.any (·.path == n.path) then kept else n :: kept) [])

def sorted (m : TypeMap) : List TypeNote :=
  m.latest.mergeSort TypeNote.notAfter

/-- The note of every node in the order of listings. -/
def listing (m : TypeMap) : List TypeNote :=
  m.latest.mergeSort TypeNote.isListedBefore

def size (m : TypeMap) : Nat :=
  m.latest.length

end TypeMap

/-- The entries of the scopes in which a loop was left or its next round begun. -/
structure LoopFrame where
  exits : List Frame := []
  nexts : List Frame := []

/-- The returns of a function: its declared result, the types returned so far, and whether one of them
is approximate. -/
structure FunctionFrame where
  declared : Option Ty := none
  returns : List Ty := []
  isApproximate : Bool := false

/-- What a function body may assume of a name that is bound later. -/
structure Forward where
  type : Ty
  isApproximate : Bool := false

/-- What a check is given: the rules for operations, the interfaces of the modules it may load from, and
the names that are bound somewhere in the module. -/
structure Setup where
  rules : Rules
  loads : NameMap Interface := .empty
  forward : NameMap Forward := .empty

/-- The state of a check. Code is dead when `dead` is positive; `taint` counts the approximations met so
far; `loaded` holds the names that came from other modules; `depth` counts the enclosing function
bodies. -/
structure State where
  scope : Scope := {}
  errors : List TypingError := []
  approximations : List Approximation := []
  dead : Nat := 0
  taint : Nat := 0
  types : TypeMap := {}
  loaded : NameSet := .empty
  loops : List LoopFrame := []
  functions : List FunctionFrame := []
  depth : Nat := 0
  isBroken : Bool := false

abbrev Check := StateM State

namespace State

/-- The state with errors reported, unless the code is dead. -/
def report (s : State) (errors : List TypingError) : State :=
  if s.dead = 0 then { s with errors := s.errors ++ errors } else s

/-- The state with approximations made. In dead code they are counted but not reported. -/
def approximate (s : State) (approximations : List Approximation) : State :=
  { s with
    taint := s.taint + approximations.length
    approximations := if s.dead = 0 then s.approximations ++ approximations else s.approximations }

/-- The state with the type of a node noted. Nodes of dead code have no value. -/
def note (s : State) (path : NodePath) (form : Text) (span : Span) (info : TypeInfo) : State :=
  { s with types := s.types.insert ⟨path, form, span, if s.dead = 0 then info else ⟨.never, false⟩⟩ }

end State

namespace Check

def scope : Check Scope := do
  return (← get).scope

def modifyScope (f : Scope → Scope) : Check Unit :=
  modify fun s => { s with scope := f s.scope }

def report (e : TypingError) (span : Span) : Check Unit :=
  modify fun s => s.report [e.located span]

def approximate (category message : Text) (span : Span) : Check Unit :=
  modify fun s => s.approximate [⟨category, message, span⟩]

def taint : Check Unit :=
  modify fun s => { s with taint := s.taint + 1 }

def note (path : NodePath) (form : Text) (span : Span) (info : TypeInfo) : Check Unit :=
  modify fun s => s.note path form span info

/-- Reports what a judgement reports; its type is the result. -/
def settle (j : Judgement) : Check Ty := do
  modify fun s =>
    let s := (s.report j.errors).approximate j.approximations
    { s with isBroken := s.isBroken || j.broken }
  return j.type

/-- Evaluates an expression and notes its type. It is approximate if an approximation was met on the
way. -/
def noted (path : NodePath) (form : Text) (span : Span) (eval : Check Ty) : Check TypeInfo := do
  let before := (← get).taint
  let type ← eval
  let info : TypeInfo := ⟨type, (← get).taint != before⟩
  note path form span info
  return info

/-- Walks in a scope made from this one, and comes back to this one. -/
def aside {α : Type} (enter : Scope → Scope) (walk : Check α) : Check α := do
  let here ← scope
  modifyScope enter
  let a ← walk
  modifyScope fun _ => here
  return a

/-- Walks a branch in a copy of this scope. The result has the entries at the end of the branch. -/
def branch {α : Type} (enter : Scope → Scope) (walk : Check α) : Check (α × Frame) :=
  aside (fun s => enter s.copy) do
    let a ← walk
    return (a, (← scope).own)

def unreached (walk : Check Unit) : Check Unit := do
  modify fun s => { s with dead := s.dead + 1 }
  aside Scope.copy walk
  modify fun s => { s with dead := s.dead - 1 }

def inLoop {α : Type} (walk : Check α) : Check (α × LoopFrame) := do
  modify fun s => { s with loops := {} :: s.loops }
  let a ← walk
  let frame := (← get).loops.head?.getD {}
  modify fun s => { s with loops := s.loops.tail }
  return (a, frame)

def inBody {α : Type} (walk : Check α) : Check α := do
  modify fun s => { s with depth := s.depth + 1 }
  let a ← walk
  modify fun s => { s with depth := s.depth - 1 }
  return a

def inFunction {α : Type} (declared : Option Ty) (walk : Check α) : Check (α × FunctionFrame) := do
  modify fun s => { s with functions := { declared := declared } :: s.functions }
  let a ← inBody walk
  let frame := (← get).functions.head?.getD {}
  modify fun s => { s with functions := s.functions.tail }
  return (a, frame)

end Check

end Gradual
