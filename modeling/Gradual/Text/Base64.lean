import Gradual.Text.Bytes

/-! Bytes written in base 64: four digits stand for three bytes, and a last group that stands for fewer is
filled up with equals signs. -/

namespace Gradual.Text.Base64

def digit? (c : Char) : Option Nat :=
  if 'A' ≤ c ∧ c ≤ 'Z' then some (c.toNat - 'A'.toNat)
  else if 'a' ≤ c ∧ c ≤ 'z' then some (c.toNat - 'a'.toNat + 26)
  else if '0' ≤ c ∧ c ≤ '9' then some (c.toNat - '0'.toNat + 52)
  else if c = '+' then some 62
  else if c = '/' then some 63
  else none

def bytes : Nat → Nat → List Char
  | 0, _ => []
  | count + 1, n => bytes count (n / 256) ++ [Char.ofNat (n % 256)]

/-- The bytes of groups of digits. The bits that go beyond the last byte of a group do not count. -/
def groups : List Char → Option (List Char)
  | [] => some []
  | [a, b, '=', '='] => do
    return bytes 1 (((← digit? a) * 64 + (← digit? b)) / 16)
  | [a, b, c, '='] => do
    return bytes 2 ((((← digit? a) * 64 + (← digit? b)) * 64 + (← digit? c)) / 4)
  | a :: b :: c :: d :: rest => do
    let group := (((← digit? a) * 64 + (← digit? b)) * 64 + (← digit? c)) * 64 + (← digit? d)
    return bytes 3 group ++ (← groups rest)
  | _ => none

def decode? (t : Text) : Option Text :=
  (groups (t.toList.filter fun c => c != '\n' && c != '\r')).map String.ofList

end Gradual.Text.Base64
