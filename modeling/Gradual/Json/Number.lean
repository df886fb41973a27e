import Gradual.Text.Bytes

/-! The numbers that decimal texts denote: integers of 64 bits, and floating-point numbers by their
bits. -/

namespace Gradual.Decimal

def minInt : Int := -9223372036854775808

def maxInt : Int := 9223372036854775807

/-- What a text denotes as an integer of 64 bits. -/
inductive Reading where
  | value (n : Int)
  /-- An integer beyond the range, with the nearest one inside it. -/
  | range (nearest : Int)
  | malformed
  deriving DecidableEq, Repr

def digits (cs : List Char) : Nat :=
  cs.foldl (fun n c => 10 * n + (c.toNat - '0'.toNat)) 0

def sign : List Char → Bool × List Char
  | '-' :: rest => (true, rest)
  | '+' :: rest => (false, rest)
  | cs => (false, cs)

def signed (negative : Bool) (n : Nat) : Int :=
  if negative then -(n : Int) else n

def clamp (n : Int) : Reading :=
  if n < minInt then .range minInt
  else if maxInt < n then .range maxInt
  else .value n

def readInt (t : Text) : Reading :=
  match sign t.toList with
  | (_, []) => .malformed
  | (negative, cs) => if cs.all Char.isDigit then clamp (signed negative (digits cs)) else .malformed

def intOrZero (t : Text) : Int :=
  match readInt t with
  | .value n | .range n => n
  | .malformed => 0

def int? (t : Text) : Option Int :=
  match readInt t with
  | .value n => some n
  | _ => none

/-- The number of the digits of an exponent. Once it has five digits, further ones do not count. -/
def exponentDigits (cs : List Char) : Nat :=
  cs.foldl (fun n c => if n < 10000 then 10 * n + (c.toNat - '0'.toNat) else n) 0

/-- The parts of a decimal number: its sign, its digits before and after the point, and its exponent. -/
structure Parts where
  negative : Bool
  whole : List Char
  fraction : List Char
  exponent : Int

def parts (t : Text) : Parts :=
  let (negative, cs) := sign t.toList
  let whole := cs.takeWhile Char.isDigit
  let cs := cs.dropWhile Char.isDigit
  let (fraction, cs) := match cs with
    | '.' :: rest => (rest.takeWhile Char.isDigit, rest.dropWhile Char.isDigit)
    | _ => ([], cs)
  let exponent := match cs with
    | 'e' :: rest | 'E' :: rest =>
      let (down, rest) := sign rest
      signed down (exponentDigits rest)
    | _ => 0
  ⟨negative, whole, fraction, exponent⟩

def signBit : UInt64 := 0x8000000000000000

def infinityBits : UInt64 := 0x7FF0000000000000

/-- The quotient of two numbers rounded to the nearest integer, a half to the even one. -/
def roundDiv (num den : Nat) : Nat :=
  let quotient := num / den
  let twice := 2 * (num % den)
  if twice < den ∨ (twice = den ∧ quotient % 2 = 0) then quotient else quotient + 1

/-- The scale of a positive quotient: the least `k` such that the quotient is less than `2 ^ (k + 53)`, but
no less than that of the smallest double-precision numbers. -/
def scaleOf (num den : Nat) : Int :=
  -- The quotient lies between the powers of two next to this one.
  let k : Int := (Nat.log2 num : Int) - Nat.log2 den - 53
  let isBelow := if 0 ≤ k + 53 then num < den * Nat.pow 2 (k + 53).toNat else num * Nat.pow 2 (-(k + 53)).toNat < den
  max (if isBelow then k else k + 1) (-1074)

/-- The bits of the double-precision number nearest to a positive quotient; one too large is infinite. The
significand is the quotient in units of `2 ^ k`, and it runs over into the exponent as it should. -/
def nearestBits (num den : Nat) : UInt64 :=
  let k := scaleOf num den
  let significand :=
    if 0 ≤ k then roundDiv num (den * Nat.pow 2 k.toNat) else roundDiv (num * Nat.pow 2 (-k).toNat) den
  UInt64.ofNat (min ((k + 1074).toNat * Nat.pow 2 52 + significand) infinityBits.toNat)

def floatBits (t : Text) : UInt64 :=
  let p := parts t
  let significant := (p.whole ++ p.fraction).dropWhile (· == '0')
  let mantissa := digits significant
  let exponent := p.exponent - p.fraction.length
  let size := exponent + significant.length
  let magnitude : UInt64 :=
    if mantissa = 0 then 0
    else if 310 < size then infinityBits
    else if size < -330 then 0
    else if 0 ≤ exponent then nearestBits (mantissa * Nat.pow 10 exponent.toNat) 1
    else nearestBits mantissa (Nat.pow 10 (-exponent).toNat)
  if p.negative then magnitude ||| signBit else magnitude

end Gradual.Decimal
