import Gradual.Json.Basic

/-! Reading JSON. The strict reader takes the standard grammar; the relaxed one also takes comments
wherever blanks may stand, and a comma after the last item or member. A line comment ends with its line,
so one that runs into the end of the text is refused. -/

namespace Gradual.Json

inductive Dialect where
  | strict
  | relaxed
  deriving DecidableEq, Repr

/-- What a run of blanks is in the middle of. -/
inductive BlankState where
  | blank
  | line
  | block
  deriving DecidableEq, Repr

def isBlank (c : Char) : Bool :=
  c == ' ' || c == '\t' || c == '\n' || c == '\r'

/-- What follows blanks and comments; nothing when a comment has no end. -/
def skip (dialect : Dialect) : BlankState → List Char → Option (List Char)
  | .blank, [] => some []
  | _, [] => none
  | .line, c :: rest => if c = '\n' then skip dialect .blank rest else skip dialect .line rest
  | .block, '*' :: '/' :: rest => skip dialect .blank rest
  | .block, _ :: rest => skip dialect .block rest
  | .blank, '/' :: '/' :: rest =>
    if dialect = .relaxed then skip dialect .line rest else some ('/' :: '/' :: rest)
  | .blank, '/' :: '*' :: rest =>
    if dialect = .relaxed then skip dialect .block rest else some ('/' :: '*' :: rest)
  | .blank, c :: rest => if isBlank c then skip dialect .blank rest else some (c :: rest)

theorem length_skip_le {dialect : Dialect} {state : BlankState} {s r : List Char}
    (h : skip dialect state s = some r) : r.length ≤ s.length := by
  fun_induction skip dialect state s <;> grind

theorem length_lt_of_skip {dialect : Dialect} {state : BlankState} {c : Char} {s r : List Char}
    (h : skip dialect state s = some (c :: r)) : r.length < s.length :=
  length_skip_le h

def hexDigit? (c : Char) : Option Nat :=
  if c.isDigit then some (c.toNat - '0'.toNat)
  else if 'a' ≤ c ∧ c ≤ 'f' then some (c.toNat - 'a'.toNat + 10)
  else if 'A' ≤ c ∧ c ≤ 'F' then some (c.toNat - 'A'.toNat + 10)
  else none

def hexDigits? (a b c d : Char) : Option Nat := do
  return (((← hexDigit? a) * 16 + (← hexDigit? b)) * 16 + (← hexDigit? c)) * 16 + (← hexDigit? d)

/-- The bytes of the character of a number; a surrogate gives the replacement character. -/
def charBytes (n : Nat) : List Char :=
  if 0xD800 ≤ n ∧ n < 0xE000 then Text.encodeChar Text.replacement
  else Text.encodeChar (Char.ofNat n)

def shortEscape? : Char → Option Char
  | '"' => some '"'
  | '\\' => some '\\'
  | '/' => some '/'
  | 'b' => some '\x08'
  | 'f' => some '\x0c'
  | 'n' => some '\n'
  | 'r' => some '\r'
  | 't' => some '\t'
  | _ => none

def loneHalf : Option Nat → List Char
  | some _ => Text.encodeChar Text.replacement
  | none => []

/-- What the unit `n` of an escape adds after a first half, if one is waiting: bytes, and perhaps a
first half that waits in its turn. -/
def addUnit (half : Option Nat) (n : Nat) : List Char × Option Nat :=
  match half with
  | some high =>
    if 0xDC00 ≤ n ∧ n < 0xE000 then
      (charBytes (0x10000 + (high - 0xD800) * 1024 + (n - 0xDC00)), none)
    else if 0xD800 ≤ n ∧ n < 0xDC00 then (loneHalf half, some n)
    else (loneHalf half ++ charBytes n, none)
  | none => if 0xD800 ≤ n ∧ n < 0xDC00 then ([], some n) else (charBytes n, none)

/-- The bytes of a string up to its closing quote, and what follows. Two escapes that are the halves
of one character make that character; `half` is a first half that waits for its second. -/
def stringBody (half : Option Nat) : List Char → Option (List Char × List Char)
  | [] => none
  | '"' :: rest => some (loneHalf half, rest)
  | '\\' :: 'u' :: a :: b :: c :: d :: rest =>
    match hexDigits? a b c d with
    | none => none
    | some n =>
      match stringBody (addUnit half n).2 rest with
      | none => none
      | some (body, r) => some ((addUnit half n).1 ++ body, r)
  | '\\' :: e :: rest =>
    match shortEscape? e with
    | none => none
    | some c =>
      match stringBody none rest with
      | none => none
      | some (body, r) => some (loneHalf half ++ c :: body, r)
  | c :: rest =>
    if c.toNat < 0x20 ∨ c = '\\' then none
    else
      match stringBody none rest with
      | none => none
      | some (body, r) => some (loneHalf half ++ c :: body, r)

theorem length_stringBody_lt {half : Option Nat} {s body r : List Char}
    (h : stringBody half s = some (body, r)) : r.length < s.length := by
  fun_induction stringBody half s generalizing body r with
  | case1 => cases h
  | case2 | case3 | case4 | case5 | case6 | case7 | case8 | case9 | case10 | case11 =>
    simp only [List.length_cons]; grind

def digits1 (s : List Char) : Option (List Char × List Char) :=
  match s.takeWhile Char.isDigit with
  | [] => none
  | d :: ds => some (d :: ds, s.dropWhile Char.isDigit)

theorem length_digits1_lt {s ds r : List Char} (h : digits1 s = some (ds, r)) :
    r.length < s.length := by
  have happ := congrArg List.length (List.takeWhile_append_dropWhile (p := Char.isDigit) (l := s))
  rw [List.length_append] at happ
  simp only [digits1] at h
  split at h
  · cases h
  · next hds => rw [hds] at happ; cases h; simp only [List.length_cons] at happ; omega

def minus : List Char → List Char × List Char
  | '-' :: r => (['-'], r)
  | s => ([], s)

/-- The digits of a number before its point; only zero begins with a zero. -/
def whole : List Char → Option (List Char × List Char)
  | '0' :: r => some (['0'], r)
  | s => digits1 s

def fraction : List Char → Option (List Char × List Char)
  | '.' :: r => (digits1 r).map fun (ds, r) => ('.' :: ds, r)
  | s => some ([], s)

def exponentSign : List Char → List Char × List Char
  | '+' :: r => (['+'], r)
  | '-' :: r => (['-'], r)
  | s => ([], s)

def exponent : List Char → Option (List Char × List Char)
  | [] => some ([], [])
  | e :: r =>
    if e = 'e' ∨ e = 'E' then
      (digits1 (exponentSign r).2).map fun (ds, r') => (e :: (exponentSign r).1 ++ ds, r')
    else some ([], e :: r)

def number (s : List Char) : Option (List Char × List Char) :=
  match whole (minus s).2 with
  | none => none
  | some (w, s₁) =>
    match fraction s₁ with
    | none => none
    | some (f, s₂) =>
      match exponent s₂ with
      | none => none
      | some (e, s₃) => some ((minus s).1 ++ w ++ f ++ e, s₃)

theorem length_number_lt {s text r : List Char} (h : number s = some (text, r)) :
    r.length < s.length := by
  have hminus : (minus s).2.length ≤ s.length := by
    unfold minus; split <;> simp
  have hwhole : ∀ {t w r}, whole t = some (w, r) → r.length < t.length := by
    intro t w r h
    unfold whole at h
    split at h
    · cases h; simp
    · exact length_digits1_lt h
  have hfraction : ∀ {t f r}, fraction t = some (f, r) → r.length ≤ t.length := by
    intro t f r h
    unfold fraction at h
    split at h
    · obtain ⟨p, hp, heq⟩ := Option.map_eq_some_iff.mp h
      have := length_digits1_lt hp
      cases heq; simp only [List.length_cons]; omega
    · cases h; exact Nat.le_refl _
  have hsign : ∀ t, (exponentSign t).2.length ≤ t.length := by
    intro t; unfold exponentSign; split <;> simp
  have hexponent : ∀ {t e r}, exponent t = some (e, r) → r.length ≤ t.length := by
    intro t e r h
    unfold exponent at h
    split at h
    · cases h; exact Nat.le_refl _
    · next c t =>
      split at h
      · obtain ⟨p, hp, heq⟩ := Option.map_eq_some_iff.mp h
        have := length_digits1_lt hp
        have := hsign t
        cases heq; simp only [List.length_cons]; omega
      · cases h; exact Nat.le_refl _
  unfold number at h
  split at h
  · cases h
  · next h₁ =>
    split at h
    · cases h
    · next h₂ =>
      split at h
      · cases h
      · next h₃ =>
        cases h
        have := hwhole h₁; have := hfraction h₂; have := hexponent h₃
        omega

/-- What stands before the end of `s` once something was read. -/
abbrev Rest (s : List Char) := { r : List Char // r.length < s.length }

mutual

def value (dialect : Dialect) (s : List Char) : Option (Json × Rest s) :=
  match s with
  | [] => none
  | '"' :: s₁ =>
    match h₁ : stringBody none s₁ with
    | none => none
    | some (body, s₂) =>
      have := length_stringBody_lt h₁
      some (.str (Text.repair (String.ofList body)), ⟨s₂, by simp only [List.length_cons]; omega⟩)
  | '[' :: s₁ =>
    match h₁ : skip dialect .blank s₁ with
    | none => none
    | some (']' :: s₂) =>
      have := length_lt_of_skip h₁
      some (.arr [], ⟨s₂, by simp only [List.length_cons]; omega⟩)
    | some s₂ =>
      have := length_skip_le h₁
      match items dialect s₂ with
      | none => none
      | some (js, ⟨s₃, _⟩) => some (.arr js, ⟨s₃, by simp only [List.length_cons]; omega⟩)
  | '\x7b' :: s₁ =>
    match h₁ : skip dialect .blank s₁ with
    | none => none
    | some ('\x7d' :: s₂) =>
      have := length_lt_of_skip h₁
      some (.obj [], ⟨s₂, by simp only [List.length_cons]; omega⟩)
    | some s₂ =>
      have := length_skip_le h₁
      match members dialect s₂ with
      | none => none
      | some (ms, ⟨s₃, _⟩) => some (.obj ms, ⟨s₃, by simp only [List.length_cons]; omega⟩)
  | 'n' :: 'u' :: 'l' :: 'l' :: s₁ => some (.null, ⟨s₁, by simp only [List.length_cons]; omega⟩)
  | 't' :: 'r' :: 'u' :: 'e' :: s₁ => some (.bool true, ⟨s₁, by simp only [List.length_cons]; omega⟩)
  | 'f' :: 'a' :: 'l' :: 's' :: 'e' :: s₁ =>
    some (.bool false, ⟨s₁, by simp only [List.length_cons]; omega⟩)
  | c :: s₁ =>
    match h₁ : number (c :: s₁) with
    | none => none
    | some (text, s₂) => some (.num (String.ofList text), ⟨s₂, length_number_lt h₁⟩)
termination_by (s.length, 0)

def items (dialect : Dialect) (s : List Char) : Option (List Json × Rest s) :=
  match value dialect s with
  | none => none
  | some (j, ⟨s₁, _⟩) =>
    match h₂ : skip dialect .blank s₁ with
    | some (']' :: s₂) =>
      have := length_lt_of_skip h₂
      some ([j], ⟨s₂, by omega⟩)
    | some (',' :: s₂) =>
      have := length_lt_of_skip h₂
      match h₃ : skip dialect .blank s₂ with
      | none => none
      | some s₃ =>
        have := length_skip_le h₃
        if dialect = .relaxed ∧ s₃.head? = some ']' then
          some ([j], ⟨s₃.tail, by simp only [List.length_tail]; omega⟩)
        else
          match items dialect s₃ with
          | none => none
          | some (js, ⟨s₄, _⟩) => some (j :: js, ⟨s₄, by omega⟩)
    | _ => none
termination_by (s.length, 1)

def members (dialect : Dialect) (s : List Char) : Option (List (Text × Json) × Rest s) :=
  match s with
  | '"' :: s₁ =>
    match h₁ : stringBody none s₁ with
    | none => none
    | some (body, s₂) =>
      have := length_stringBody_lt h₁
      match h₂ : skip dialect .blank s₂ with
      | some (':' :: s₃) =>
        have := length_lt_of_skip h₂
        match h₃ : skip dialect .blank s₃ with
        | none => none
        | some s₄ =>
          have := length_skip_le h₃
          match value dialect s₄ with
          | none => none
          | some (j, ⟨s₅, _⟩) =>
            let member := (Text.repair (String.ofList body), j)
            match h₄ : skip dialect .blank s₅ with
            | some ('\x7d' :: s₆) =>
              have := length_lt_of_skip h₄
              some ([member], ⟨s₆, by simp only [List.length_cons]; omega⟩)
            | some (',' :: s₆) =>
              have := length_lt_of_skip h₄
              match h₅ : skip dialect .blank s₆ with
              | none => none
              | some s₇ =>
                have := length_skip_le h₅
                if dialect = .relaxed ∧ s₇.head? = some '\x7d' then
                  some ([member], ⟨s₇.tail, by simp only [List.length_cons, List.length_tail]; omega⟩)
                else
                  match members dialect s₇ with
                  | none => none
                  | some (ms, ⟨s₈, _⟩) => some (member :: ms, ⟨s₈, by simp only [List.length_cons]; omega⟩)
            | _ => none
      | _ => none
  | _ => none
termination_by (s.length, 1)

end

/-- The value of a text that holds exactly one. -/
def parse (dialect : Dialect) (t : Text) : Option Json :=
  match skip dialect .blank t.toList with
  | none => none
  | some s =>
    match value dialect s with
    | none => none
    | some (j, ⟨rest, _⟩) =>
      match skip dialect .blank rest with
      | some [] => some j
      | _ => none

/-- Why a text does not hold what is asked for. -/
inductive TextFault (ε : Type) where
  | malformed
  | tooDeep
  | refused (e : ε)

/-- What `read` makes of the value in a text, unless that is nested too deep. -/
def decode {ε α : Type} (dialect : Dialect) (read : Json → Except ε α) (text : Text) :
    Except (TextFault ε) α :=
  match parse dialect text with
  | none => .error .malformed
  | some j => if j.isTooDeep then .error .tooDeep else (read j).mapError .refused

end Gradual.Json
