import Gradual.Json.Reader
import Gradual.Yaml.Cursor

/-! Scalars as they stand in a YAML text: plain ones, which may go on over several lines, quoted ones, and
blocks of lines. A line break inside a scalar counts as a space, and blank lines count as line breaks. -/

namespace Gradual.Yaml

/-- What white space inside a scalar has come to so far; the last of it comes first. -/
inductive Gap where
  | blanks (cs : List Char)
  /-- The first line break, if it counts, and those after it. -/
  | broken (first : Option Char) (more : List Char)

namespace Gap

def none : Gap := .blanks []

def isNone : Gap → Bool
  | .blanks cs => cs.isEmpty
  | .broken _ _ => false

def isBroken : Gap → Bool
  | .blanks _ => false
  | .broken _ _ => true

def isJoint : Gap → Bool
  | .broken Option.none [] => true
  | _ => false

/-- One more blank. Blanks at the beginning of a line do not count. -/
def addBlank (c : Char) : Gap → Gap
  | .blanks cs => .blanks (c :: cs)
  | gap => gap

/-- One more line break. Blanks before it do not count. -/
def addBreak (c : Char) : Gap → Gap
  | .blanks _ => .broken (some (breakChar c)) []
  | .broken first more => .broken first (breakChar c :: more)

/-- What stands for the white space: a single line feed is a space, and the first of several does not
count. -/
def chars : Gap → List Char
  | .blanks cs => cs.reverse
  | .broken (some '\n') [] => [' ']
  | .broken (some '\n') more => more.reverse
  | .broken first more => first.toList ++ more.reverse

end Gap

/-- A scalar that was read: its text, the place after it, and whether a line break was read with it last. -/
structure Scanned where
  text : List Char
  cursor : Cursor
  endsBroken : Bool := false

def Scanned.prepend (cs : List Char) (s : Scanned) : Scanned :=
  { s with text := cs ++ s.text }

/-- Punctuation of flow collections, which ends a plain scalar inside one. -/
def isFlowMark (c : Char) : Bool :=
  [',', '?', '[', ']', '\x7b', '\x7d'].contains c

/-- Characters that no plain scalar begins with. -/
def isIndicator (c : Char) : Bool :=
  [',', '[', ']', '\x7b', '\x7d', '#', '&', '*', '!', '|', '>', '\'', '"', '%', '@', '\x60'].contains c

def startsPlain (inFlow : Bool) : List Char → Bool
  | [] => false
  | c :: rest =>
    if c = '-' then !endsWord rest
    else if c = '?' ∨ c = ':' then !inFlow && !endsWord rest
    else !isIndicator c && !isBlank c && !isBreak c

/-- How many characters are looked up to tell what a word after white space is. -/
def wordReach : Nat := 4

def Mark.enter (m : Mark) (gap : Gap) (rest : List Char) : Option Mark :=
  if gap.isNone then some m else m.see wordReach rest

def Mark.passSeen (m : Mark) (c : Char) (needed : Nat) (rest : List Char) : Option Mark :=
  (m.pass c).see needed rest

def Mark.turnSeen (m : Mark) (seen : List Char) (n : Nat) (rest : List Char) : Option Mark :=
  (m.turnAt seen n).bind (·.see 1 rest)

/-- Whether a plain scalar ends before a character that is not white space. After white space a comment or
the boundary of a document ends it, too. -/
def endsPlain (inFlow : Bool) (gap : Gap) (m : Mark) (c : Char) (rest : List Char) : Bool :=
  (!gap.isNone && ((m.column = 0 && isBoundary (c :: rest)) || c == '#'))
    || (c == ':' && endsWord rest) || (inFlow && isFlowMark c)

/-- Reads the rest of a plain scalar and the white space after it. Outside flow collections it goes on only
in column `indent` or beyond, and a tab may not stand before that column of a further line. -/
def plainRest (inFlow : Bool) (indent : Nat) (gap : Gap) (m : Mark) : List Char → Option Scanned
  | [] => some ⟨[], ⟨m, []⟩, gap.isBroken⟩
  | '\r' :: '\n' :: rest => do
    plainRest inFlow indent (gap.addBreak '\n') (← m.turnSeen ('\r' :: '\n' :: rest) 2 rest) rest
  | c :: rest => do
    if isBreak c then plainRest inFlow indent (gap.addBreak c) (← m.turnSeen (c :: rest) 1 rest) rest
    else if isBlank c then
      if c == '\t' && gap.isBroken && m.column < indent then none
      else plainRest inFlow indent (gap.addBlank c) (← m.passSeen c 1 rest) rest
    else if !gap.isNone && !inFlow && m.column < indent then return ⟨[], ⟨m, c :: rest⟩, gap.isBroken⟩
    else
      let m ← m.enter gap (c :: rest)
      if endsPlain inFlow gap m c rest then return ⟨[], ⟨m, c :: rest⟩, gap.isBroken⟩
      else
        let scalar ← plainRest inFlow indent .none (← m.passSeen c 2 rest) rest
        return scalar.prepend (gap.chars ++ [c])

def plainScalar (inFlow : Bool) (indent : Nat) (c : Cursor) : Option Scanned := do
  plainRest inFlow indent .none (← c.mark.see wordReach c.rest) c.rest

def singleQuotedRest (gap : Gap) (m : Mark) : List Char → Option Scanned
  | [] => none
  | '\'' :: '\'' :: rest => do
    let m ← m.enter gap ('\'' :: '\'' :: rest)
    let scalar ← singleQuotedRest .none (← (m.skip 2).see 2 rest) rest
    return scalar.prepend (gap.chars ++ ['\''])
  | '\'' :: rest => do
    let m ← m.enter gap ('\'' :: rest)
    return ⟨gap.chars, ⟨m.skip 1, rest⟩, false⟩
  | '\r' :: '\n' :: rest => do
    singleQuotedRest (gap.addBreak '\n') (← m.turnSeen ('\r' :: '\n' :: rest) 2 rest) rest
  | c :: rest => do
    if isBreak c then singleQuotedRest (gap.addBreak c) (← m.turnSeen (c :: rest) 1 rest) rest
    else if isBlank c then singleQuotedRest (gap.addBlank c) (← m.passSeen c 1 rest) rest
    else
      let m ← m.enter gap (c :: rest)
      if m.column = 0 && isBoundary (c :: rest) then none
      else
        let scalar ← singleQuotedRest .none (← m.passSeen c 2 rest) rest
        return scalar.prepend (gap.chars ++ [c])

def escape? : Char → Option Char
  | '0' => some '\x00'
  | 'a' => some '\x07'
  | 'b' => some '\x08'
  | 't' | '\t' => some '\t'
  | 'n' => some '\n'
  | 'v' => some '\x0b'
  | 'f' => some '\x0c'
  | 'r' => some '\r'
  | 'e' => some '\x1b'
  | ' ' => some ' '
  | '"' => some '"'
  | '\'' => some '\''
  | '\\' => some '\\'
  | 'N' => some '\u0085'
  | '_' => some '\u00a0'
  | 'L' => some '\u2028'
  | 'P' => some '\u2029'
  | _ => none

/-- The character of a number; there is none for halves of characters and beyond the last character. -/
def numbered? (n : Nat) : Option Char :=
  if (0xD800 ≤ n ∧ n < 0xE000) ∨ 0x10FFFF < n then none else some (Char.ofNat n)

def Mark.passDigits (m : Mark) (n : Nat) (digits rest : List Char) : Option Mark :=
  ((m.skip 2).see n digits).bind fun m => (m.skip n).see 2 rest

def escaped (gap : Gap) (c : Option Char) (rest : Option Scanned) : Option Scanned := do
  let c ← c
  return (← rest).prepend (gap.chars ++ [c])

/-- The place after a backslash and a line break, which are `n` characters together, with what is looked up
there. -/
def Mark.passEscapedBreak (m : Mark) (gap : Gap) (seen : List Char) (n : Nat) (rest : List Char) : Option Mark := do
  let m ← m.enter gap seen
  let m ← m.see 3 seen
  (m.turn n).see 1 rest

/-- Reads the rest of a text in double quotes. A backslash at the end of a line joins it to the next. -/
def doubleQuotedRest (gap : Gap) (m : Mark) : List Char → Option Scanned
  | [] => none
  | '"' :: rest => do
    let m ← if gap.isJoint && m.column = 0 then some m else m.enter gap ('"' :: rest)
    return ⟨gap.chars, ⟨m.skip 1, rest⟩, false⟩
  | '\\' :: '\r' :: '\n' :: rest => do
    let m ← m.passEscapedBreak gap ('\\' :: '\r' :: '\n' :: rest) 3 rest
    let scalar ← doubleQuotedRest (.broken none []) m rest
    return scalar.prepend gap.chars
  | '\\' :: 'x' :: a :: b :: rest => do
    let m ← m.enter gap ('\\' :: 'x' :: a :: b :: rest)
    let m ← m.passDigits 2 (a :: b :: rest) rest
    escaped gap ((Json.hexDigits? '0' '0' a b).bind numbered?) (doubleQuotedRest .none m rest)
  | '\\' :: 'u' :: a :: b :: c :: d :: rest => do
    let m ← m.enter gap ('\\' :: 'u' :: a :: b :: c :: d :: rest)
    let m ← m.passDigits 4 (a :: b :: c :: d :: rest) rest
    escaped gap ((Json.hexDigits? a b c d).bind numbered?) (doubleQuotedRest .none m rest)
  | '\\' :: 'U' :: a :: b :: c :: d :: e :: f :: g :: h :: rest => do
    let m ← m.enter gap ('\\' :: 'U' :: a :: b :: c :: d :: e :: f :: g :: h :: rest)
    let m ← m.passDigits 8 (a :: b :: c :: d :: e :: f :: g :: h :: rest) rest
    let code := do return (← Json.hexDigits? a b c d) * 65536 + (← Json.hexDigits? e f g h)
    escaped gap (code.bind numbered?) (doubleQuotedRest .none m rest)
  | '\\' :: c :: rest => do
    if isBreak c then
      let m ← m.passEscapedBreak gap ('\\' :: c :: rest) 2 rest
      let scalar ← doubleQuotedRest (.broken none []) m rest
      return scalar.prepend gap.chars
    else
      let m ← m.enter gap ('\\' :: c :: rest)
      escaped gap (escape? c) (doubleQuotedRest .none (← (m.skip 2).see 2 rest) rest)
  | '\r' :: '\n' :: rest => do
    doubleQuotedRest (gap.addBreak '\n') (← m.turnSeen ('\r' :: '\n' :: rest) 2 rest) rest
  | c :: rest => do
    if isBreak c then doubleQuotedRest (gap.addBreak c) (← m.turnSeen (c :: rest) 1 rest) rest
    else if isBlank c then doubleQuotedRest (gap.addBlank c) (← m.passSeen c 1 rest) rest
    else
      let m ← m.enter gap (c :: rest)
      if m.column = 0 && isBoundary (c :: rest) then none
      else
        let scalar ← doubleQuotedRest .none (← m.passSeen c 2 rest) rest
        return scalar.prepend (gap.chars ++ [c])

def quotedScalar (c : Cursor) : Option Scanned := do
  let m ← (c.mark.skip 1).see wordReach (c.rest.drop 1)
  match c.rest with
  | '\'' :: rest => singleQuotedRest .none m rest
  | '"' :: rest => doubleQuotedRest .none m rest
  | _ => none

/-- What is done with the line breaks at the end of a block of lines. -/
inductive Chomp where
  | strip
  | clip
  | keep
  deriving DecidableEq, Repr

structure BlockStyle where
  isLiteral : Bool
  chomp : Chomp := .clip
  increment : Option Nat := none

def chomp? (c : Cursor) : Option (Option Chomp × Cursor) := do
  let c ← c.see 1
  match c.rest with
  | '+' :: _ => return (some .keep, c.skip 1)
  | '-' :: _ => return (some .strip, c.skip 1)
  | _ => return (none, c)

def increment? (c : Cursor) : Option (Option Nat × Cursor) := do
  let c ← c.see 1
  match c.rest with
  | d :: _ =>
    if d == '0' then none
    else if d.isDigit then return (some (d.toNat - '0'.toNat), c.skip 1)
    else return (none, c)
  | [] => return (none, c)

/-- Reads the signs that follow the mark of a block of lines: one for the end and one for the indentation,
in either order. -/
def blockStyle (isLiteral : Bool) (c : Cursor) : Option (BlockStyle × Cursor) := do
  let (chomp, c) ← chomp? c
  let (increment, c) ← increment? c
  match chomp, increment with
  | none, some n =>
    let (chomp, c) ← chomp? c
    return (⟨isLiteral, chomp.getD .clip, some n⟩, c)
  | _, _ => return (⟨isLiteral, chomp.getD .clip, increment⟩, c)

def blockStart (c : Cursor) : Option Cursor := do
  let c ← c.dropWhile isBlank
  let c ← if c.rest.head? == some '#' then c.lineEnd else some c
  if endsLine c.rest then c.nextLine else none

/-- The indentation of a block of lines that does not tell it: that of the first line that is not blank, but
at least that of the blank ones before it. No tab may stand in it. -/
def shownIndent (most column : Nat) : List Char → Option Nat
  | [] => some (max most column)
  | ' ' :: rest => shownIndent most (column + 1) rest
  | '\r' :: '\n' :: rest => shownIndent (max most column) 0 rest
  | c :: rest =>
    if isBreak c then shownIndent (max most column) 0 rest
    else if c == '\t' then none
    else some (max most column)

structure BlockState where
  /-- The break at the end of the line before. -/
  lead : List Char := []
  /-- The breaks of the blank lines since, the last one first. -/
  blank : List Char := []
  /-- Whether the line before begins with a blank. -/
  wasDeeper : Bool := false
  /-- Whether the place is inside a line, and not in its indentation. -/
  inLine : Bool := false

namespace BlockState

def enter (c : Char) : BlockState :=
  ⟨[], [], isBlank c, true⟩

/-- What joins a line that begins with `c` to the one before it. Lines that begin with a blank are not
folded. -/
def joint (s : BlockState) (isLiteral : Bool) (c : Char) : List Char :=
  let folds := !isLiteral && !s.wasDeeper && !isBlank c && s.lead == ['\n']
  (if folds then (if s.blank.isEmpty then [' '] else []) else s.lead) ++ s.blank.reverse

def turn (s : BlockState) (c : Char) : BlockState :=
  if s.inLine then { s with lead := [breakChar c], blank := [], inLine := false }
  else { s with blank := breakChar c :: s.blank }

def final (s : BlockState) : Chomp → List Char
  | .strip => []
  | .clip => s.lead
  | .keep => s.lead ++ s.blank.reverse

end BlockState

/-- Reads the lines of a block with a given indentation. No tab may stand in it. -/
def blockRest (style : BlockStyle) (indent : Nat) (s : BlockState) (m : Mark) : List Char → Option Scanned
  | [] => do return ⟨s.final style.chomp, ⟨← m.see 1 [], []⟩, false⟩
  | '\r' :: '\n' :: rest => do
    blockRest style indent (s.turn '\n') (← m.turnAt ('\r' :: '\n' :: rest) 2) rest
  | c :: rest => do
    let m ← m.see 1 (c :: rest)
    if isBreak c then blockRest style indent (s.turn c) (← m.turnAt (c :: rest) 1) rest
    else if s.inLine then
      let scalar ← blockRest style indent s (m.pass c) rest
      return scalar.prepend [c]
    else if m.column < indent then
      if c == ' ' then blockRest style indent s (m.pass c) rest
      else if c == '\t' then none
      else return ⟨s.final style.chomp, ⟨m, c :: rest⟩, false⟩
    else
      let scalar ← blockRest style indent (.enter c) (m.pass c) rest
      return scalar.prepend (s.joint style.isLiteral c ++ [c])

/-- Reads a block of lines, from after its mark on. Inside a collection it is indented deeper than the
collection, of which `indent` is the column. -/
def blockScalar (isLiteral : Bool) (indent : Option Nat) (c : Cursor) : Option Scanned := do
  let (style, c) ← blockStyle isLiteral c
  let c ← blockStart c
  let least := (indent.map (· + 1)).getD 1
  let own ← match style.increment with
    | some n => some (indent.getD 0 + n)
    | none => (shownIndent 0 0 c.rest).map (max least)
  blockRest style own {} c.mark c.rest

end Gradual.Yaml
