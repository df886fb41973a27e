import Gradual.Diagnostic
import Gradual.NameMap
import Gradual.Ty.Normal

/-! Lexical scopes: what is known of the names at a point of a program. A scope has entries of its own
and sees those of the scopes around it. Walking a program changes own entries only. -/

namespace Gradual

/-- What a scope knows of a name: its type, and whether the type could not be derived precisely. -/
structure Binding where
  type : Ty
  isApproximate : Bool := false

/-- The own entries of a scope: the types of names, the types that names were declared to keep to, and
whether any other name may be bound by a load that is not resolved. -/
structure Frame where
  symbols : NameMap Binding := .empty
  annotations : NameMap Ty := .empty
  isWildcard : Bool := false

namespace Frame

instance : Inhabited Frame := ⟨{}⟩

def bind (f : Frame) (name : Text) (type : Ty) (isApproximate : Bool) : Frame :=
  { f with symbols := f.symbols.insert name ⟨type, isApproximate⟩ }

def annotate (f : Frame) (name : Text) (type : Ty) : Frame :=
  { f with annotations := f.annotations.insert name type }

/-- The entries of `symbols` and `b` joined: a name that both have gets the union of its types, and is
approximate if it is so in one of them. -/
def joinEntry (symbols : NameMap Binding) (name : Text) (b : Binding) : NameMap Binding :=
  match symbols.get? name with
  | some old => symbols.insert name ⟨.union [old.type, b.type], old.isApproximate || b.isApproximate⟩
  | none => symbols.insert name ⟨.union [b.type], b.isApproximate⟩

def joinSymbols (branches : List Frame) : NameMap Binding :=
  branches.foldl (fun joined f => f.symbols.entries.foldl (fun s e => joinEntry s e.1 e.2) joined) .empty

/-- The entries after branches that began with the entries of `f` have come together. A name that a
branch lacks adds nothing; annotations are kept, and later branches prevail. -/
def merge (f : Frame) (branches : List Frame) : Frame :=
  if branches.isEmpty then f
  else
    { symbols := joinSymbols branches
      annotations := branches.foldl (fun a b => a.overlay b.annotations) f.annotations
      isWildcard := f.isWildcard || branches.any (·.isWildcard) }

end Frame

/-- A scope: its own entries, and those of the scopes around it from the inside out. The scope of a
branch is a copy of the scope that the branch is in. -/
structure Scope where
  own : Frame := {}
  outer : List Frame := []
  isCopy : Bool := false

namespace Scope

instance : Inhabited Scope := ⟨{}⟩

def frames (s : Scope) : List Frame :=
  s.own :: s.outer

/-- Whether this is the scope of the module itself, and not a copy of it. -/
def isModule (s : Scope) : Bool :=
  s.outer.isEmpty && !s.isCopy

def resolve? (s : Scope) (name : Text) : Option Binding :=
  s.frames.findSome? fun f => f.symbols.get? name

def has (s : Scope) (name : Text) : Bool :=
  (s.resolve? name).isSome

def hasLocal (s : Scope) (name : Text) : Bool :=
  s.own.symbols.contains name

/-- The type that an own entry declares a name to keep to. -/
def annotation? (s : Scope) (name : Text) : Option Ty :=
  s.own.annotations.get? name

def isWildcard (s : Scope) : Bool :=
  s.frames.any (·.isWildcard)

/-- The type of a name: any type if it may come from a load that is not resolved. -/
def lookup (s : Scope) (name : Text) : Except TypingError Ty :=
  match s.resolve? name with
  | some b => .ok b.type
  | none => if s.isWildcard then .ok .any else .error (.notInScope name)

def bind (s : Scope) (name : Text) (type : Ty) (isApproximate : Bool) : Scope :=
  { s with own := s.own.bind name type isApproximate }

/-- Binds a name to another type, which is as precise as the last one. A name bound further out is
shadowed. -/
def retype (s : Scope) (name : Text) (type : Ty) : Scope :=
  s.bind name type (((s.resolve? name).map (·.isApproximate)).getD false)

def annotate (s : Scope) (name : Text) (type : Ty) : Scope :=
  { s with own := s.own.annotate name type }

def markWildcard (s : Scope) : Scope :=
  { s with own := { s.own with isWildcard := true } }

def extend (s : Scope) : Scope where
  outer := s.frames

def copy (s : Scope) : Scope :=
  { s with isCopy := true }

def merge (s : Scope) (branches : List Frame) : Scope :=
  { s with own := s.own.merge branches }

end Scope

end Gradual
