import Gradual.Json.Record
import Gradual.Span
import Gradual.Text.Quoted
import Gradual.Ty.Wire

/-! What a check reports: typing errors, and approximations where it knowingly gave up precision. -/

namespace Gradual

/-- The kinds of typing errors. An error that was read without a kind has the kind `unset`. -/
inductive ErrorKind where
  | unset
  | notSupportedAttribute
  | notCallable
  | tooManyPositionalArguments
  | missingRequiredArgument
  | unexpectedKeywordArgument
  | argumentTypeMismatch
  | incompatibleBinOp
  | incompatibleAssignment
  | notInScope
  deriving DecidableEq, Repr

namespace ErrorKind

/-- The kinds that have a name, in the order of their numbers, which begin with one. -/
def all : List ErrorKind :=
  [.notSupportedAttribute, .notCallable, .tooManyPositionalArguments, .missingRequiredArgument,
    .unexpectedKeywordArgument, .argumentTypeMismatch, .incompatibleBinOp, .incompatibleAssignment,
    .notInScope]

def name : ErrorKind → Text
  | .unset => "ErrorKind(0)"
  | .notSupportedAttribute => "NotSupportedAttribute"
  | .notCallable => "NotCallable"
  | .tooManyPositionalArguments => "TooManyPositionalArguments"
  | .missingRequiredArgument => "MissingRequiredArgument"
  | .unexpectedKeywordArgument => "UnexpectedKeywordArgument"
  | .argumentTypeMismatch => "ArgumentTypeMismatch"
  | .incompatibleBinOp => "IncompatibleBinOp"
  | .incompatibleAssignment => "IncompatibleAssignment"
  | .notInScope => "NotInScope"

def ofName? (name : Text) : Option ErrorKind :=
  all.find? (·.name == name)

def number (k : ErrorKind) : Nat :=
  match all.findIdx? (· == k) with
  | some i => i + 1
  | none => 0

/-- The name of the kind of a number; other numbers are named by themselves. -/
def nameOfNumber (n : Int) : Text :=
  match all.find? fun k => (k.number : Int) == n with
  | some k => k.name
  | none => "ErrorKind(" ++ toString n ++ ")"

def unknownMessage (name : Text) : Text :=
  "types: unknown error kind " ++ Text.quoted name

end ErrorKind

/-- A typing error: the types that were expected and found, and the parameter, operator or name that it
is about. -/
structure TypingError where
  kind : ErrorKind
  span : Span := {}
  message : Text
  param : Text := ""
  expected : Ty := .never
  found : Ty := .never

namespace TypingError

def located (e : TypingError) (span : Span) : TypingError :=
  { e with span := span }

def notSupportedAttribute (recv : Ty) (attr : Text) : TypingError where
  kind := .notSupportedAttribute
  message := "type `" ++ recv.text ++ "` has no attribute `" ++ attr ++ "`"
  param := attr
  found := recv

def notCallable (t : Ty) : TypingError where
  kind := .notCallable
  message := "type `" ++ t.text ++ "` is not callable"
  found := t

def incompatibleBinOp (op : Text) (left right : Ty) : TypingError where
  kind := .incompatibleBinOp
  message := "binary operator `" ++ op ++ "` is not supported for `" ++ left.text ++ "` and `"
    ++ right.text ++ "`"
  param := op
  expected := left
  found := right

def incompatibleUnOp (op : Text) (operand : Ty) : TypingError where
  kind := .incompatibleBinOp
  message := "unary operator `" ++ op ++ "` is not supported for `" ++ operand.text ++ "`"
  param := op
  found := operand

def notIterable (t : Ty) : TypingError where
  kind := .incompatibleBinOp
  message := "type `" ++ t.text ++ "` is not iterable"
  param := "iter"
  found := t

def incompatibleAssignment (declared found : Ty) : TypingError where
  kind := .incompatibleAssignment
  message := "expected type `" ++ declared.text ++ "`, found `" ++ found.text ++ "`"
  expected := declared
  found := found

def notInScope (name : Text) : TypingError where
  kind := .notInScope
  message := "name `" ++ name ++ "` is not defined"
  param := name

end TypingError

/-- A place where the checker gave up precision. -/
structure Approximation where
  category : Text
  message : Text
  span : Span := {}
  deriving DecidableEq, Repr

def Approximation.text (a : Approximation) : Text :=
  a.category ++ ": " ++ a.message

/-- The JSON form of a typing error; an empty parameter is left out. -/
def TypingError.toJson (e : TypingError) : Json :=
  .obj ([("kind", .str e.kind.name), ("span", e.span.toJson), ("message", .str e.message)]
    ++ (if e.param = "" then [] else [("param", .str e.param)])
    ++ [("expected", e.expected.toJson), ("found", e.found.toJson)])

def Approximation.toJson (a : Approximation) : Json :=
  .obj [("category", .str a.category), ("message", .str a.message), ("span", a.span.toJson)]

inductive ReportError where
  | shape
  | unknownKind (name : Text)
  | type (e : WireError)
  | exports (e : WireError)
  deriving DecidableEq, Repr

def WireError.interfaceMessage (e : WireError) : Text :=
  WireError.labelled "typechecker: decode interface" e.message

def ReportError.message : ReportError → Text
  | .shape => ""
  | .unknownKind name => ErrorKind.unknownMessage name
  | .type e => e.message
  | .exports e => e.interfaceMessage

namespace Report

abbrev Draft := Json.Draft ReportError

def readPosition (current : Position) : Json → Draft Position :=
  Json.readMembers (fun name j p => do
    match name with
    | "LINE" => return { p with line := ← Json.readInt p.line j }
    | "COLUMN" => return { p with column := ← Json.readInt p.column j }
    | _ => return p) current

def readSpan (current : Span) : Json → Draft Span :=
  Json.readMembers (fun name j s => do
    match name with
    | "START" => return { s with start := ← readPosition s.start j }
    | "END" => return { s with stop := ← readPosition s.stop j }
    | _ => return s) current

def readKind (current : ErrorKind) : Json → Draft ErrorKind
  | .str name =>
    match ErrorKind.ofName? name with
    | some kind => return kind
    | none => .fail (.unknownKind name)
  | .null => return current
  | _ => .misshapen

def readType (j : Json) : Draft Ty :=
  .take ((Ty.ofJson j).mapError .type)

def readError (current : TypingError) : Json → Draft TypingError :=
  Json.readMembers (fun name j e => do
    match name with
    | "KIND" => return { e with kind := ← readKind e.kind j }
    | "SPAN" => return { e with span := ← readSpan e.span j }
    | "MESSAGE" => return { e with message := ← Json.readText e.message j }
    | "PARAM" => return { e with param := ← Json.readText e.param j }
    | "EXPECTED" => return { e with expected := ← readType j }
    | "FOUND" => return { e with found := ← readType j }
    | _ => return e) current

def blankError : TypingError where
  kind := .unset
  message := ""

def readApproximation (current : Approximation) : Json → Draft Approximation :=
  Json.readMembers (fun name j a => do
    match name with
    | "CATEGORY" => return { a with category := ← Json.readText a.category j }
    | "MESSAGE" => return { a with message := ← Json.readText a.message j }
    | "SPAN" => return { a with span := ← readSpan a.span j }
    | _ => return a) current

end Report

end Gradual
