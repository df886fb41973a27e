import Gradual.NameMap
import Gradual.Text.Quoted

/-! Flags on a command line. A flag begins with one or two dashes. The first argument that is no flag
ends the flags, and so does an argument of two dashes alone, which is dropped. -/

namespace Gradual

inductive FlagKind where
  | switch
  | text
  deriving DecidableEq, Repr

structure Flag where
  name : Text
  kind : FlagKind
  about : Text

/-- The flags that were given; of a flag given twice the later value counts. -/
structure FlagValues where
  switches : NameMap Bool := .empty
  texts : NameMap Text := .empty

inductive FlagError where
  | help
  | malformed (arg : Text)
  | unknown (name : Text)
  | noArgument (name : Text)
  | notBool (name value : Text)

/-- The message of flags that cannot be read; asking for help is no fault. -/
def FlagError.message? : FlagError → Option Text
  | .help => none
  | .malformed arg => some ("bad flag syntax: " ++ arg)
  | .unknown name => some ("flag provided but not defined: -" ++ name)
  | .noArgument name => some ("flag needs an argument: -" ++ name)
  | .notBool name value =>
    some ("invalid boolean value " ++ Text.quoted value ++ " for -" ++ name ++ ": parse error")

namespace FlagValues

def isOn (v : FlagValues) (name : Text) : Bool :=
  (v.switches.get? name).getD false

def text (v : FlagValues) (name : Text) : Text :=
  (v.texts.get? name).getD ""

end FlagValues

namespace Flag

inductive Shape where
  | word
  | stop
  | malformed
  | named (name : Text) (value : Option Text)

def nameAndValue (body : List Char) : Text × Option Text :=
  let name := body.take 1 ++ (body.drop 1).takeWhile (· != '=')
  match body.drop name.length with
  | _ :: value => (String.ofList name, some (String.ofList value))
  | [] => (String.ofList name, none)

def shapeOfBody : List Char → Shape
  | [] => .malformed
  | '-' :: _ => .malformed
  | '=' :: _ => .malformed
  | body => .named (nameAndValue body).1 (nameAndValue body).2

def shape (arg : Text) : Shape :=
  match arg.toList with
  | ['-', '-'] => .stop
  | '-' :: '-' :: body => shapeOfBody body
  | ['-'] => .word
  | '-' :: body => shapeOfBody body
  | _ => .word

def bool? (t : Text) : Option Bool :=
  if ["1", "t", "T", "TRUE", "true", "True"].contains t then some true
  else if ["0", "f", "F", "FALSE", "false", "False"].contains t then some false
  else none

def kindOf (flags : List Flag) (name : Text) : Except FlagError FlagKind :=
  match flags.find? (·.name == name) with
  | some flag => .ok flag.kind
  | none => .error (if name = "help" ∨ name = "h" then .help else .unknown name)

def setSwitch (v : FlagValues) (name : Text) (value : Option Text) : Except FlagError FlagValues :=
  match value with
  | none => .ok { v with switches := v.switches.insert name true }
  | some t =>
    match bool? t with
    | some b => .ok { v with switches := v.switches.insert name b }
    | none => .error (.notBool name t)

def setText (v : FlagValues) (name value : Text) : FlagValues :=
  { v with texts := v.texts.insert name value }

def parse (flags : List Flag) (v : FlagValues) : List Text → Except FlagError (FlagValues × List Text)
  | [] => .ok (v, [])
  | arg :: rest =>
    match shape arg with
    | .word => .ok (v, arg :: rest)
    | .stop => .ok (v, rest)
    | .malformed => .error (.malformed arg)
    | .named name value =>
      match kindOf flags name with
      | .error e => .error e
      | .ok .switch =>
        match setSwitch v name value with
        | .ok v => parse flags v rest
        | .error e => .error e
      | .ok .text =>
        match value, rest with
        | some t, rest => parse flags (setText v name t) rest
        | none, t :: rest => parse flags (setText v name t) rest
        | none, [] => .error (.noArgument name)

def help (f : Flag) : Text :=
  "  -" ++ f.name ++ (match f.kind with | .switch => "" | .text => " string") ++ "\n    \t" ++ f.about ++ "\n"

end Flag

end Gradual
