import Gradual.Text.Bytes

/-! Timestamps: a date, and perhaps a time of day after it. Between them stands the letter T, and then the
time has a zone, or spaces, and then it has none. -/

namespace Gradual.Yaml.Timestamp

def number? : List Char → Option (Nat × List Char)
  | [] => none
  | a :: rest =>
    if !a.isDigit then none
    else
      let high := a.toNat - '0'.toNat
      match rest with
      | b :: rest => if b.isDigit then some (10 * high + (b.toNat - '0'.toNat), rest) else some (high, b :: rest)
      | [] => some (high, [])

def upTo? (most : Nat) (s : List Char) : Option (Nat × List Char) :=
  (number? s).filter (·.1 ≤ most)

def after? (c : Char) : List Char → Option (List Char)
  | d :: rest => if d = c then some rest else none
  | [] => none

def isLeap (year : Nat) : Bool :=
  year % 4 = 0 && (year % 100 ≠ 0 || year % 400 = 0)

def daysIn (year month : Nat) : Nat :=
  if month = 2 then (if isLeap year then 29 else 28)
  else if [4, 6, 9, 11].contains month then 30
  else 31

def year? (s : List Char) : Option (Nat × List Char) :=
  let digits := s.takeWhile Char.isDigit
  if digits.length = 4 then some (digits.foldl (fun n d => 10 * n + (d.toNat - '0'.toNat)) 0, s.drop 4)
  else none

def afterDate? (s : List Char) : Option (List Char) := do
  let (year, s) ← year? s
  let (month, s) ← upTo? 12 (← after? '-' s)
  let (day, s) ← number? (← after? '-' s)
  if month = 0 ∨ day = 0 ∨ daysIn year month < day then none else return s

def afterFraction : List Char → List Char
  | c :: d :: rest =>
    if (c == '.' || c == ',') && d.isDigit then rest.dropWhile Char.isDigit else c :: d :: rest
  | s => s

def afterTime? (s : List Char) : Option (List Char) := do
  let (_, s) ← upTo? 23 s
  let (_, s) ← upTo? 59 (← after? ':' s)
  let (_, s) ← upTo? 59 (← after? ':' s)
  return afterFraction s

/-- Whether a text is the name of a time zone: a letter, or the distance from it in hours and minutes. -/
def isZone : List Char → Bool
  | ['Z'] => true
  | [sign, a, b, ':', c, d] =>
    (sign == '+' || sign == '-') && [a, b, c, d].all Char.isDigit
      && ((upTo? 24 [a, b]).isSome && (upTo? 60 [c, d]).isSome)
  | _ => false

def endsTimestamp : List Char → Bool
  | [] => true
  | c :: rest =>
    if c == 'T' || c == 't' then ((afterTime? rest).map isZone).getD false
    else c == ' ' && (afterTime? (rest.dropWhile (· == ' '))) == some []

end Timestamp

def isTimestamp (t : Text) : Bool :=
  ((Timestamp.afterDate? t.toList).map Timestamp.endsTimestamp).getD false

end Gradual.Yaml
