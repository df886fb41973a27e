import Gradual.Text.Bytes

/-! Places in a YAML text. A text is read from its beginning to its end, character by character; a place
knows how many characters were read, on which line it is and in which column. A text is looked up in chunks,
each of them when it is needed: what is wrong with a chunk that is not needed does not show. -/

namespace Gradual.Yaml

def isBlank (c : Char) : Bool :=
  c == ' ' || c == '\t'

/-- Characters that end a line. A carriage return and the line feed after it end one line together. -/
def isBreak (c : Char) : Bool :=
  ['\r', '\n', '\u0085', '\u2028', '\u2029'].contains c

/-- What a line break is read as: a line feed, but for the separators of lines and paragraphs. -/
def breakChar (c : Char) : Char :=
  if c == '\u2028' || c == '\u2029' then c else '\n'

def endsWord : List Char → Bool
  | [] => true
  | c :: _ => isBlank c || isBreak c

def endsLine : List Char → Bool
  | [] => true
  | c :: _ => isBreak c

def isNameChar (c : Char) : Bool :=
  c.isAlphanum || c == '_' || c == '-'

def startsDocument : List Char → Bool
  | '-' :: '-' :: '-' :: rest => endsWord rest
  | _ => false

def endsDocument : List Char → Bool
  | '.' :: '.' :: '.' :: rest => endsWord rest
  | _ => false

def isBoundary (s : List Char) : Bool :=
  startsDocument s || endsDocument s

/-- How far ahead a comment is looked for. -/
def commentReach : Nat := 511

/-- The mark that tells the encoding of a text. -/
def encodingMark : Char := '\uFEFF'

/-- How much of the text after a place was looked up. -/
structure Window where
  /-- How many characters were looked up. -/
  ahead : Nat := 0
  /-- The sizes of the chunks that were not. -/
  chunks : List Nat := []
  /-- Whether something unreadable comes after them. -/
  isCut : Bool := false
  /-- Whether the place where more was looked up last is before an encoding mark. -/
  isMarked : Bool := false
  deriving DecidableEq, Repr

namespace Window

/-- How many characters were looked up, and the sizes of the chunks that are left, once there are at least
`needed`. After the last chunk the end of the text counts as a character. -/
def fill (needed : Nat) (isCut : Bool) (ahead : Nat) : List Nat → Option (Nat × List Nat)
  | [] => if isCut then none else some (ahead + 1, [])
  | n :: later => if needed ≤ ahead + n then some (ahead + n, later) else fill needed isCut (ahead + n) later

def see (w : Window) (needed : Nat) (rest : List Char) : Option Window :=
  if needed ≤ w.ahead then some w
  else (fill needed w.isCut w.ahead w.chunks).map fun (ahead, chunks) =>
    ⟨ahead, chunks, w.isCut, rest.head? == some encodingMark⟩

end Window

/-- A place in a text. It is fresh if only blanks were read since the last line break. -/
structure Mark where
  index : Nat := 0
  line : Nat := 0
  column : Nat := 0
  isFresh : Bool := false
  window : Window := {}
  deriving DecidableEq, Repr

namespace Mark

/-- Looks up at least `needed` characters of the text that follows; it fails before something
unreadable. -/
def see (m : Mark) (needed : Nat) (rest : List Char) : Option Mark :=
  (m.window.see needed rest).map fun w => { m with window := w }

def skip (m : Mark) (n : Nat) : Mark :=
  ⟨m.index + n, m.line, m.column + n, false, { m.window with ahead := m.window.ahead - n }⟩

def pass (m : Mark) (c : Char) : Mark :=
  { m.skip 1 with isFresh := m.isFresh && isBlank c }

def turn (m : Mark) (n : Nat) : Mark :=
  ⟨m.index + n, m.line + 1, 0, true, { m.window with ahead := m.window.ahead - n }⟩

/-- The place at the end of a text, which is always at the beginning of a line. -/
def finish (m : Mark) : Mark :=
  if m.column = 0 then m else { m with line := m.line + 1, column := 0 }

/-- The place after the line break of `n` characters that `rest` begins with. -/
def turnAt (m : Mark) (rest : List Char) (n : Nat) : Option Mark :=
  (m.see 2 rest).map (·.turn n)

end Mark

structure Cursor where
  mark : Mark := {}
  rest : List Char

namespace Cursor

def column (c : Cursor) : Nat :=
  c.mark.column

def see (c : Cursor) (needed : Nat) : Option Cursor :=
  (c.mark.see needed c.rest).map fun m => ⟨m, c.rest⟩

def skip (c : Cursor) (n : Nat) : Cursor :=
  ⟨c.mark.skip n, c.rest.drop n⟩

/-- The characters up to the first for which `p` fails, from a place on, and the place there. Each is looked
up, and so is the first that fails. -/
def takeFrom (p : Char → Bool) (m : Mark) : List Char → Option (List Char × Cursor)
  | [] => (m.see 1 []).map fun m => ([], ⟨m, []⟩)
  | ch :: rest => do
    let m ← m.see 1 (ch :: rest)
    if p ch then
      let (taken, c) ← takeFrom p (m.skip 1) rest
      return (ch :: taken, c)
    else return ([], ⟨m, ch :: rest⟩)

def takeWhile (c : Cursor) (p : Char → Bool) : Option (List Char × Cursor) :=
  takeFrom p c.mark c.rest

def dropWhile (c : Cursor) (p : Char → Bool) : Option Cursor :=
  (c.takeWhile p).map (·.2)

def lineEnd (c : Cursor) : Option Cursor :=
  c.dropWhile fun ch => !isBreak ch

def nextLine (c : Cursor) : Option Cursor :=
  match c.rest with
  | '\r' :: '\n' :: rest => (c.mark.turnAt c.rest 2).map fun m => ⟨m, rest⟩
  | ch :: rest => if isBreak ch then (c.mark.turnAt c.rest 1).map fun m => ⟨m, rest⟩ else some c
  | [] => some c

/-- The place at the end of the line, if at most a comment stands before it on a line that is not fresh. -/
def skipComment (c : Cursor) : Option Cursor :=
  if c.mark.isFresh then some c
  else do
    let blanks := (c.rest.take (commentReach + 1)).takeWhile isBlank
    let c ← c.see (min blanks.length commentReach + 1)
    if blanks.length ≤ commentReach && (c.rest.drop blanks.length).head? == some '#' then c.lineEnd else return c

end Cursor

/-- What is skipped between two tokens. -/
inductive Filler where
  /-- White space, at the beginning of the text or of a line. -/
  | margin
  | space
  | comment
  /-- White space with another comment after it. -/
  | betweenComments
  deriving DecidableEq, Repr

/-- The white space, without rare line breaks, before the next comment, as far as that is looked for after
the line break that a comment ends with. -/
def blankRun (rest : List Char) : List Char :=
  (rest.take commentReach).takeWhile fun c => isBlank c || c == '\n' || c == '\r'

/-- Looks for another comment after the one that ends before `rest`: whether there is one. -/
def seeComment (m : Mark) (rest : List Char) : Option (Mark × Bool) :=
  match rest with
  | [] => some (m, false)
  | c :: after =>
    let isCommon := c == '\n' || c == '\r'
    let run := if isCommon then blankRun after else []
    let next := (after.drop run.length).head?
    let isRare := isCommon && (next.map isBreak).getD false
    let needed := run.length + if isRare then 3 else 2
    (m.see (min needed (commentReach + 1)) rest).map fun m =>
      (m, isCommon && run.length < commentReach && next == some '#')

/-- What is skipped after the line break of `n` characters that `rest` begins with, and the place there. -/
def Filler.turn (filler : Filler) (m : Mark) (rest : List Char) (n : Nat) : Option (Filler × Mark) :=
  match filler with
  | .comment => do
    let (m, leads) ← seeComment m rest
    return (if leads then .betweenComments else .margin, ← m.turnAt rest n)
  | .betweenComments => (m.turnAt rest n).map (Filler.betweenComments, ·)
  | _ => (m.turnAt rest n).map (Filler.margin, ·)

/-- Whether the character at a place does not count: the place is at the beginning of a line, and the one
where more was looked up last is before an encoding mark. -/
def Filler.isMarked (filler : Filler) (m : Mark) : Bool :=
  filler == .margin && m.column = 0 && m.window.isMarked

/-- The next place where a token begins, and whether a key may begin there, given whether one may here. In
block collections a key may begin on each line, and where one may begin tabs are no white space. They are
between comments, though. -/
def skipFiller (inFlow : Bool) (filler : Filler) (keys : Bool) (m : Mark) : List Char → Option (Cursor × Bool)
  | [] => (m.see 1 []).map fun m => (⟨m, []⟩, keys)
  | '\r' :: '\n' :: rest => do
    let m ← m.see 1 ('\r' :: '\n' :: rest)
    let (filler, m) ←
      if filler.isMarked m then do
        let m ← (m.pass '\r').see 1 ('\n' :: rest)
        Filler.turn .space m ('\n' :: rest) 1
      else filler.turn m ('\r' :: '\n' :: rest) 2
    skipFiller inFlow filler (keys || (!inFlow && filler == .margin)) m rest
  | c :: rest => do
    let m ← m.see 1 (c :: rest)
    if filler.isMarked m then skipFiller inFlow .space keys (m.pass c) rest
    else if isBreak c then
      let (filler, m) ← filler.turn m (c :: rest) 1
      skipFiller inFlow filler (keys || (!inFlow && filler == .margin)) m rest
    else
      match filler with
      | .comment => skipFiller inFlow .comment keys (m.pass c) rest
      | .betweenComments =>
        skipFiller inFlow (if c == '#' then .comment else .betweenComments) keys (m.pass c) rest
      | _ =>
        if c == ' ' || (c == '\t' && (inFlow || !keys)) then skipFiller inFlow .space keys (m.pass c) rest
        else if c == '#' then skipFiller inFlow .comment keys (m.pass c) rest
        else return (⟨m, c :: rest⟩, keys)

end Gradual.Yaml
