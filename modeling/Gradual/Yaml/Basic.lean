import Gradual.Json.Number
import Gradual.Text.Bytes

/-! YAML values and the scalars that plain words denote. -/

namespace Gradual

inductive Sense where
  | null
  | truth (b : Bool)
  | int (n : Int)
  /-- A number with a fraction, by its bits. -/
  | float (bits : UInt64)
  | text
  /-- The mark for entries that are taken from elsewhere. -/
  | merge
  deriving DecidableEq, Repr

/-- A YAML value. Scalars keep the text that they are written with. The keys of a map may be any values,
and a map knows whether a key is written twice. -/
inductive Yaml where
  | scalar (text : Text) (sense : Sense)
  | seq (items : List Yaml)
  | map (entries : List (Yaml × Yaml)) (hasTwins : Bool)
  /-- What is written elsewhere. -/
  | alias (y : Yaml)
  /-- A value that nothing can be read from: its tag does not fit, or it is part of itself. -/
  | unreadable
  deriving Inhabited

namespace Yaml

def null : Yaml := .scalar "" .null

def isNull : Yaml → Bool
  | .scalar _ .null => true
  | _ => false

def text? : Yaml → Option Text
  | .scalar text _ => some text
  | _ => none

/-- The words for the truth values, which do not depend on whether they are quoted. -/
def truthWord? (text : Text) : Option Bool :=
  if ["y", "Y", "yes", "Yes", "YES", "on", "On", "ON"].contains text then some true
  else if ["n", "N", "no", "No", "NO", "off", "Off", "OFF"].contains text then some false
  else none

def bool? : Yaml → Option Bool
  | .scalar _ (.truth b) => some b
  | .scalar text .text => truthWord? text
  | _ => none

def digit? (base : Nat) (c : Char) : Option Nat :=
  let n :=
    if c.isDigit then c.toNat - '0'.toNat
    else if 'a' ≤ c ∧ c ≤ 'f' then c.toNat - 'a'.toNat + 10
    else if 'A' ≤ c ∧ c ≤ 'F' then c.toNat - 'A'.toNat + 10
    else base
  if n < base then some n else none

def natOf? (base : Nat) (cs : List Char) : Option Nat :=
  if cs.isEmpty then none
  else cs.foldlM (fun n c => (digit? base c).map (base * n + ·)) 0

def unsigned? : List Char → Option Nat
  | '0' :: 'x' :: cs | '0' :: 'X' :: cs => natOf? 16 cs
  | '0' :: 'o' :: cs | '0' :: 'O' :: cs => natOf? 8 cs
  | '0' :: 'b' :: cs | '0' :: 'B' :: cs => natOf? 2 cs
  | ['0'] => some 0
  | '0' :: cs => natOf? 8 cs
  | cs => natOf? 10 cs

def isDecimal (cs : List Char) : Bool :=
  let whole := cs.takeWhile Char.isDigit
  let rest := cs.dropWhile Char.isDigit
  let (fraction, rest) := match rest with
    | '.' :: r => (r.takeWhile Char.isDigit, r.dropWhile Char.isDigit)
    | _ => ([], rest)
  let exponent := match rest with
    | [] => true
    | e :: r =>
      let ds := (Decimal.sign r).2
      (e == 'e' || e == 'E') && !ds.isEmpty && ds.all Char.isDigit
  !(whole.isEmpty && fraction.isEmpty) && exponent

def specialNumber? (text : Text) : Option UInt64 :=
  if [".inf", ".Inf", ".INF", "+.inf", "+.Inf", "+.INF"].contains text then some 0x7FF0000000000000
  else if ["-.inf", "-.Inf", "-.INF"].contains text then some 0xFFF0000000000000
  else if [".nan", ".NaN", ".NAN"].contains text then some 0x7FF8000000000000
  else none

def finite? (text : Text) : Option UInt64 :=
  let bits := Decimal.floatBits text
  if bits.toNat / Nat.pow 2 52 % Nat.pow 2 11 = 2047 then none else some bits

/-- Whether every underscore stands between two digits; `afterDigit` tells whether a digit comes before the
text. -/
def underscoresFit (afterDigit : Bool) : List Char → Bool
  | [] => true
  | '_' :: rest => afterDigit && (rest.head?.map Char.isDigit).getD false && underscoresFit false rest
  | c :: rest => underscoresFit c.isDigit rest

/-- The number of an integer, with a sign or without, in the base that its beginning tells. Integers have 64
bits; one without a sign may use them all for its size. -/
def integer? (cs : List Char) : Option Int :=
  let (negative, ds) := Decimal.sign cs
  let most := if ds.length = cs.length then Int.pow 2 64 - 1 else Decimal.maxInt
  ((unsigned? ds).map (Decimal.signed negative)).filter fun n => Decimal.minInt ≤ n ∧ n ≤ most

/-- The number of an octal or binary integer whose sign stands after the mark of the base. -/
def innerSigned? : List Char → Option Int
  | '0' :: mark :: rest =>
    let (negative, ds) := Decimal.sign rest
    let base? := if mark = 'o' then some 8 else if mark = 'b' then some 2 else none
    ((base?.bind (natOf? · ds)).map (Decimal.signed negative)).filter fun n =>
      Decimal.minInt ≤ n ∧ n ≤ Decimal.maxInt
  | _ => none

/-- The number that a word denotes if it begins with a digit or a sign. Underscores do not count. An integer
that is too large counts as a decimal number. -/
def signedNumber? (word : List Char) : Option Sense :=
  let cs := word.filter (· != '_')
  let decimal? := if isDecimal (Decimal.sign cs).2 then finite? (String.ofList cs) else none
  match integer? cs, decimal? with
  | some n, _ => some (.int n)
  | none, some bits => some (.float bits)
  | none, none => (innerSigned? cs).map .int

/-- The number that a word denotes if it begins with a point. Underscores stand between digits only. -/
def fraction? (word : List Char) : Option Sense :=
  let cs := word.filter (· != '_')
  if underscoresFit false word && isDecimal cs then (finite? (String.ofList cs)).map .float else none

def number? (text : Text) : Option Sense :=
  match specialNumber? text, text.toList with
  | some bits, _ => some (.float bits)
  | none, [] => none
  | none, c :: rest =>
    if c.isDigit || c == '+' || c == '-' then signedNumber? (c :: rest)
    else if c == '.' then fraction? (c :: rest)
    else none

def senseOf (text : Text) : Sense :=
  if ["", "~", "null", "Null", "NULL"].contains text then .null
  else if ["true", "True", "TRUE"].contains text then .truth true
  else if ["false", "False", "FALSE"].contains text then .truth false
  else (number? text).getD .text

/-- The integer of 64 bits that a number with a fraction is cut to, toward zero. One that is too small
gives the least integer, and so does the first that is too large; those beyond give none. -/
def cutFloat (bits : UInt64) : Option Int :=
  let exponent := bits.toNat / Nat.pow 2 52 % Nat.pow 2 11
  let fraction := bits.toNat % Nat.pow 2 52
  let isNegative := Nat.pow 2 63 ≤ bits.toNat
  if exponent = 2047 then (if isNegative && fraction = 0 then some Decimal.minInt else none)
  else
    let mantissa := if exponent = 0 then fraction else fraction + Nat.pow 2 52
    let size := mantissa * Nat.pow 2 (exponent - 1075) / Nat.pow 2 (1075 - max exponent 1)
    if size < Nat.pow 2 63 then some (Decimal.signed isNegative size)
    else if isNegative || size = Nat.pow 2 63 then some Decimal.minInt
    else none

/-- The integer of a value where one of 64 bits is wanted; a decimal fraction is cut off. -/
def int? : Yaml → Option Int
  | .scalar _ (.int n) => if n ≤ Decimal.maxInt then some n else none
  | .scalar _ (.float bits) => cutFloat bits
  | _ => none

end Yaml

end Gradual
