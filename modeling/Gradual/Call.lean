import Gradual.Diagnostic
import Gradual.NameMap
import Gradual.Signature
import Gradual.Ty.Subtype

/-! Matching calls against signatures. Named arguments are bound first; positional arguments then fill
the remaining positional parameters in order, and what is left goes to the collector. Matching never
stops at the first problem: it reports them all, in a fixed order. -/

namespace Gradual

/-- An argument of a call, by the type of its value. -/
inductive Arg where
  | positional (type : Ty)
  | named (name : Text) (type : Ty)
  /-- A sequence spread over positional arguments. -/
  | splat (type : Ty)
  /-- A dictionary spread over named arguments. -/
  | doubleSplat (type : Ty)

namespace Arg

def type : Arg → Ty
  | .positional t | .named _ t | .splat t | .doubleSplat t => t

/-- The positional arguments that an argument stands for; a spread sequence of unknown length stands
for none that are known. -/
def positionals : Arg → List Ty
  | .positional t => [t]
  | .splat t => t.fixedTuple?.getD []
  | _ => []

def positional? : Arg → Option Ty
  | .positional t => some t
  | _ => none

def named? : Arg → Option (Text × Ty)
  | .named name t => some (name, t)
  | _ => none

def isOpenSplat : Arg → Bool
  | .splat t => t.fixedTuple?.isNone
  | _ => false

def isDoubleSplat : Arg → Bool
  | .doubleSplat _ => true
  | _ => false

def text : Arg → Text
  | .positional t => t.text
  | .named name t => name ++ "=" ++ t.text
  | .splat t => "*" ++ t.text
  | .doubleSplat t => "**" ++ t.text

def describe (args : List Arg) : Text :=
  "(" ++ Text.join ", " (args.map text) ++ ")"

end Arg

namespace Call

structure Slot where
  param : Param
  arg : Option Ty

/-- What becomes of the arguments: the parameters with what they received, the names given twice, the
named arguments without a parameter and the positional ones beyond the parameters. -/
structure Binding where
  slots : List Slot
  repeated : List Text := []
  strayNamed : List (Text × Ty) := []
  surplus : List Ty := []

inductive Landing where
  | bound (slots : List Slot)
  | taken
  | nowhere

/-- Gives a named argument to the first parameter of its name that takes named arguments. -/
def landNamed (name : Text) (t : Ty) : List Slot → Landing
  | [] => .nowhere
  | s :: rest =>
    if s.param.name = name ∧ s.param.mode.takesNamed then
      match s.arg with
      | some _ => .taken
      | none => .bound ({ s with arg := some t } :: rest)
    else
      match landNamed name t rest with
      | .bound slots => .bound (s :: slots)
      | other => other

def bindNamed (b : Binding) (arg : Text × Ty) : Binding :=
  match landNamed arg.1 arg.2 b.slots with
  | .bound slots => { b with slots := slots }
  | .taken => { b with repeated := b.repeated ++ [arg.1] }
  | .nowhere => { b with strayNamed := b.strayNamed ++ [arg] }

/-- Fills the free positional parameters in order, up to the first parameter that takes no positional
argument; what is left over is the surplus. -/
def fillPositional : List Slot → List Ty → List Slot × List Ty
  | slots, [] => (slots, [])
  | [], surplus => ([], surplus)
  | s :: rest, t :: ts =>
    if s.param.mode.takesPositional then
      match s.arg with
      | some _ =>
        let (slots, surplus) := fillPositional rest (t :: ts)
        (s :: slots, surplus)
      | none =>
        let (slots, surplus) := fillPositional rest ts
        ({ s with arg := some t } :: slots, surplus)
    else (s :: rest, t :: ts)

def bind (params : List Param) (args : List Arg) : Binding :=
  let named := (args.filterMap Arg.named?).foldl bindNamed ⟨params.map fun p => ⟨p, none⟩, [], [], []⟩
  let (slots, surplus) := fillPositional named.slots (args.flatMap Arg.positionals)
  { named with slots := slots, surplus := surplus }

def hasMode (params : List Param) (mode : ParamMode) : Bool :=
  params.any (·.mode == mode)

def tooMany (capacity given : Nat) : TypingError where
  kind := .tooManyPositionalArguments
  message := "too many positional arguments: accepts at most " ++ toString capacity ++ ", got "
    ++ toString given

def unexpected (name : Text) : TypingError where
  kind := .unexpectedKeywordArgument
  message := "unexpected keyword argument `" ++ name ++ "`"
  param := name

def multiple (name : Text) : TypingError where
  kind := .unexpectedKeywordArgument
  message := "multiple values for parameter `" ++ name ++ "`"
  param := name

def missing (p : Param) : TypingError where
  kind := .missingRequiredArgument
  message := "missing required argument `" ++ p.name ++ "`"
  param := p.name
  expected := p.type

def mismatch (p : Param) (found : Ty) : TypingError where
  kind := .argumentTypeMismatch
  message := "argument `" ++ p.name ++ "`: expected type `" ++ p.type.text ++ "`, found `"
    ++ found.text ++ "`"
  param := p.name
  expected := p.type
  found := found

def checkArg (p : Param) (found : Ty) : List TypingError :=
  if found.subtype p.type then [] else [mismatch p found]

/-- Whether a parameter that received nothing is missed. A sequence of unknown length may reach every
positional parameter, a spread dictionary every parameter that can be named. -/
def isMissing (openPositional openNamed : Bool) (s : Slot) : Bool :=
  s.arg.isNone && !s.param.optional && !s.param.mode.isVariadic
    && !(openPositional && s.param.mode.takesPositional)
    && !(openNamed && s.param.mode.takesNamed)

def checkSlot (b : Binding) (s : Slot) : List TypingError :=
  match s.arg with
  | some t => checkArg s.param t
  | none =>
    match s.param.mode with
    | .args => b.surplus.flatMap (checkArg s.param)
    | .kwargs => (sortByName b.strayNamed).flatMap fun a => checkArg s.param a.2
    | _ => []

/-- Every problem of a call, in the order: too many arguments, unexpected names, repeated names,
missing arguments, mismatched types. -/
def problems (params : List Param) (args : List Arg) : List TypingError :=
  let b := bind params args
  let openPositional := args.any Arg.isOpenSplat
  let openNamed := args.any Arg.isDoubleSplat
  let overflow := !b.surplus.isEmpty && !hasMode params .args && !openPositional
  (if overflow then
      [tooMany (params.countP (·.mode.takesPositional)) (args.flatMap Arg.positionals).length]
    else [])
    ++ (if hasMode params .kwargs then [] else (sortedDistinct (b.strayNamed.map (·.1))).map unexpected)
    ++ (sortedDistinct b.repeated).map multiple
    ++ (b.slots.filter (isMissing openPositional openNamed)).map (missing ·.param)
    ++ b.slots.flatMap (checkSlot b)

end Call

/-- The result of a call and its problems. A callable without a signature takes every call. -/
def Signature.matchCall (sig : Option Signature) (args : List Arg) : Ty × List TypingError :=
  match sig with
  | none => (.any, [])
  | some sig => (sig.result, Call.problems sig.params args)

end Gradual
