import Gradual.Text.Quoted
import Gradual.Text.Space
import Gradual.Ty.Name

/-! Reading the text of a type. The grammar is

    union := term ('|' term)*
    term  := name | 'tuple' '[' '()' ']' | name '[' arg (',' arg)* ']'
    arg   := '...' | union

with spaces allowed before every token. Bytes are read as the Latin-1 characters of their numbers. An
argument that begins with three dots is the ellipsis, also where more name characters follow. -/

namespace Gradual

inductive TypeTextFault where
  /-- Something follows the type. -/
  | trailing
  | name
  /-- The bracket of an empty tuple is not closed. -/
  | close
  /-- An argument is followed by neither a comma nor a closing bracket. -/
  | separator
  deriving DecidableEq, Repr

/-- A text that is not a type: the fault, and how many bytes were left where it was found. -/
structure TypeTextError where
  fault : TypeTextFault
  source : Text
  left : Nat
  deriving DecidableEq, Repr

def TypeTextError.offset (e : TypeTextError) : Nat :=
  e.source.length - e.left

def TypeTextError.message (e : TypeTextError) : Text :=
  let place := " at offset " ++ toString e.offset ++ " in " ++ Text.quoted e.source
  match e.fault with
  | .trailing =>
    "types: unexpected " ++ Text.quoted (String.ofList (e.source.toList.drop e.offset)) ++ place
  | .name => "types: expected type name" ++ place
  | .close => "types: expected ']'" ++ place
  | .separator => "types: expected ',' or ']'" ++ place

namespace TypeText

/-- What stands before the end of `s` once something was read. -/
abbrev Rest (s : List Char) := { r : List Char // r.length < s.length }

/-- A fault and what was left where it was found. -/
structure Stop where
  fault : TypeTextFault
  left : List Char

/-- Letters among the characters below U+0100. -/
def isLetter (c : Char) : Bool :=
  c.isAlpha || c.toNat == 0xAA || c.toNat == 0xB5 || c.toNat == 0xBA
    || (0xC0 ≤ c.toNat && c.toNat ≤ 0xFF && c.toNat != 0xD7 && c.toNat != 0xF7)

def isNameChar (c : Char) : Bool :=
  c == '_' || c == '.' || isLetter c || c.isDigit

def skip (s : List Char) : List Char :=
  s.dropWhile Text.isLatinSpace

theorem length_skip_le (s : List Char) : (skip s).length ≤ s.length :=
  (List.dropWhile_suffix _).length_le

def consume (first : Char) (more : List Char) (s : List Char) : Option (Rest s) :=
  match _h : skip s with
  | [] => none
  | c :: rest =>
    if c = first ∧ more <+: rest then
      some ⟨rest.drop more.length, by
        have := length_skip_le s
        simp_all only [List.length_cons, List.length_drop]
        omega⟩
    else none

def takeName (s : List Char) : List Char × List Char :=
  let t := skip s
  (t.takeWhile isNameChar, t.dropWhile isNameChar)

theorem length_takeName_lt {s name rest : List Char} (h : takeName s = (name, rest))
    (hname : name ≠ []) : rest.length < s.length := by
  simp only [takeName, Prod.mk.injEq] at h
  have hs := length_skip_le s
  have happ := congrArg List.length (List.takeWhile_append_dropWhile (p := isNameChar) (l := skip s))
  rw [List.length_append, h.1, h.2] at happ
  have := List.length_pos_iff.mpr hname
  omega

mutual

def union (s : List Char) : Except Stop (Ty × Rest s) := do
  let (first, ⟨s₁, h₁⟩) ← term s
  let (others, ⟨s₂, h₂⟩) ← members s₁
  return (Ty.union (first :: others), ⟨s₂, by omega⟩)
termination_by (s.length, 1)

/-- Reads the further members of a union, each after a bar. -/
def members (s : List Char) : Except Stop (List Ty × { r : List Char // r.length ≤ s.length }) := do
  match consume '|' [] s with
  | none => return ([], ⟨s, by omega⟩)
  | some ⟨s₁, h₁⟩ =>
    let (t, ⟨s₂, h₂⟩) ← term s₁
    let (others, ⟨s₃, h₃⟩) ← members s₂
    return (t :: others, ⟨s₃, by omega⟩)
termination_by (s.length, 0)

def term (s : List Char) : Except Stop (Ty × Rest s) := do
  match hname : takeName s with
  | ([], s₁) => throw ⟨.name, s₁⟩
  | (c :: cs, s₁) =>
    have h₁ := length_takeName_lt hname (by simp)
    let name := String.ofList (c :: cs)
    match consume '[' [] s₁ with
    | none => return (Ty.ofName name [] false, ⟨s₁, h₁⟩)
    | some ⟨s₂, h₂⟩ =>
      match if name = "tuple" then consume '(' [')'] s₂ else none with
      | some ⟨s₃, h₃⟩ =>
        match consume ']' [] s₃ with
        | some ⟨s₄, h₄⟩ => return (Ty.tuple [], ⟨s₄, by omega⟩)
        | none => throw ⟨.close, skip s₃⟩
      | none =>
        let (args, variadic, ⟨s₃, h₃⟩) ← arguments s₂
        return (Ty.ofName name args variadic, ⟨s₃, by omega⟩)
termination_by (s.length, 0)

/-- Reads arguments up to the closing bracket; the flag says that one was an ellipsis. -/
def arguments (s : List Char) : Except Stop (List Ty × Bool × Rest s) := do
  let (arg, ⟨s₁, h₁⟩) ← (match consume '.' ['.', '.'] s with
    | some r => return (none, r)
    | none => do
      let (t, r) ← union s
      return (some t, r) : Except Stop (Option Ty × Rest s))
  match consume ']' [] s₁ with
  | some ⟨s₂, h₂⟩ => return (arg.toList, arg.isNone, ⟨s₂, by omega⟩)
  | none =>
    match consume ',' [] s₁ with
    | none => throw ⟨.separator, skip s₁⟩
    | some ⟨s₂, h₂⟩ =>
      let (args, variadic, ⟨s₃, h₃⟩) ← arguments s₂
      return (arg.toList ++ args, arg.isNone || variadic, ⟨s₃, by omega⟩)
termination_by (s.length, 2)

end

end TypeText

def Ty.parse (source : Text) : Except TypeTextError Ty :=
  match TypeText.union source.toList with
  | .error stop => .error ⟨stop.fault, source, stop.left.length⟩
  | .ok (t, ⟨rest, _⟩) =>
    match TypeText.skip rest with
    | [] => .ok t
    | left => .error ⟨.trailing, source, left.length⟩

end Gradual
