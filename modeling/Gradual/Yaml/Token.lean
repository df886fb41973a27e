import Gradual.Yaml.Scalar

/-! The tokens of a YAML text. Scalars, marks and names stand in the text; where block collections begin
and end, and what is the key of an entry, follows from indentation and from the colons behind the keys. A
key is found out only at its colon, so that the token for it is put in afterwards. Tokens are read only when
they are needed: there are always some that wait in a queue to be taken. -/

namespace Gradual.Yaml

inductive Token where
  | version (isKnown : Bool)
  | tagHandle (handle start : Text)
  | documentStart
  | documentEnd
  | streamEnd
  | blockSeqStart
  | blockMapStart
  | blockEnd
  | flowSeqStart
  | flowSeqEnd
  | flowMapStart
  | flowMapEnd
  | item
  | comma
  | key
  | value
  | alias (name : Text)
  | anchor (name : Text)
  | tag (handle suffix : Text)
  | scalar (text : Text) (isPlain : Bool)
  deriving DecidableEq, Repr

/-- A token that may turn out to be the key of an entry: how many tokens come before it and where it
begins. It must be one if it stands in the column of its collection. -/
structure KeySpot where
  number : Nat := 0
  mark : Mark := {}
  isRequired : Bool := false
  isPossible : Bool := false
  /-- Whether it is not taken from the queue before that is known. -/
  isAwaited : Bool := false

namespace KeySpot

def longest : Nat := 1024

/-- Whether a key may have its colon at a place: it stands on the same line, and not too far on. -/
def reaches (k : KeySpot) (m : Mark) : Bool :=
  m.line ≤ k.mark.line && m.index ≤ k.mark.index + longest

def drop (k : KeySpot) : KeySpot :=
  { k with isPossible := false, isAwaited := false }

end KeySpot

def deepestFlow : Nat := 10000

def deepestBlock : Nat := 10000

/-- How many tokens wait in the queue when one is taken. -/
def tokenReach : Nat := 3

structure Scanner where
  cursor : Cursor
  queue : List Token := []
  taken : Nat := 0
  /-- The columns of the block collections around the place, the innermost first. -/
  indents : List Nat := []
  /-- The last possible key in the innermost flow collection around the place, in those around that one,
  and outside. -/
  keys : List KeySpot := [{}]
  isKeyAllowed : Bool := true

namespace Scanner

def inFlow (s : Scanner) : Bool :=
  1 < s.keys.length

def nextNumber (s : Scanner) : Nat :=
  s.taken + s.queue.length

def push (s : Scanner) (t : Token) : Scanner :=
  { s with queue := s.queue ++ [t] }

/-- Puts a token in after the first `number` ones, or at the end if more than those were taken. -/
def insert (s : Scanner) (number : Nat) (t : Token) : Scanner :=
  if number < s.taken then s.push t
  else
    let before := number - s.taken
    { s with queue := s.queue.take before ++ t :: s.queue.drop before }

def skip (s : Scanner) (n : Nat) : Scanner :=
  { s with cursor := s.cursor.skip n }

def allowKey (s : Scanner) (isAllowed : Bool) : Scanner :=
  { s with isKeyAllowed := isAllowed }

/-- Gives up the possible key; one that must be a key cannot be given up. -/
def dropKey (s : Scanner) : Option Scanner :=
  match s.keys with
  | k :: outer =>
    if !k.isPossible then some s
    else if k.isRequired then none
    else some { s with keys := k.drop :: outer }
  | [] => some s

def saveKey (s : Scanner) : Option Scanner :=
  if s.isKeyAllowed then do
    let s ← s.dropKey
    let isRequired := !s.inFlow && s.indents.head? == some s.cursor.column
    return { s with keys := ⟨s.nextNumber, s.cursor.mark, isRequired, true, true⟩ :: s.keys.tail }
  else some s

/-- Ends the block collections whose column is not `kept`. Flow collections are not ended by columns. -/
def closeBlocks (s : Scanner) (kept : Nat → Bool) : Scanner :=
  if s.inFlow then s
  else
    let ended := s.indents.takeWhile fun column => !kept column
    { s with
      queue := s.queue ++ List.replicate ended.length .blockEnd
      indents := s.indents.drop ended.length }

/-- Begins a block collection in a column, if that is deeper than the one around it. Its token comes after
the first `number` ones. -/
def openBlock (s : Scanner) (column number : Nat) (t : Token) : Option Scanner :=
  let isDeeper := match s.indents with
    | [] => true
    | outer :: _ => outer < column
  if s.inFlow || !isDeeper then some s
  else if deepestBlock ≤ s.indents.length then none
  else some { s.insert number t with indents := column :: s.indents }

/-- The state before a mark of the stream: all block collections end, and no key may follow. -/
def settle (s : Scanner) : Option Scanner :=
  (s.closeBlocks fun _ => false).dropKey.map (·.allowKey false)

def openFlow (s : Scanner) (t : Token) : Option Scanner := do
  let s ← s.saveKey
  if deepestFlow < s.keys.length then none
  else
    let s := { s with keys := { number := s.nextNumber } :: s.keys }
    return ((s.allowKey true).push t).skip 1

/-- Leaves a flow collection. If there was no possible key inside, then the collection, too, is not awaited
any more. -/
def leaveFlow (s : Scanner) : Scanner :=
  match s.keys with
  | inner :: k :: outer =>
    { s with keys := (if k.number = inner.number then { k with isAwaited := false } else k) :: outer }
  | _ => s

def closeFlow (s : Scanner) (t : Token) : Option Scanner := do
  let s ← s.dropKey
  return ((s.leaveFlow.allowKey false).push t).skip 1

def addComma (s : Scanner) : Option Scanner := do
  let s ← s.dropKey
  return ((s.allowKey true).push .comma).skip 1

/-- Adds the dash of an item. Outside flow collections it may stand only where a key may. -/
def addItem (s : Scanner) : Option Scanner := do
  if !s.inFlow && !s.isKeyAllowed then none
  else
    let s ← s.openBlock s.cursor.column s.nextNumber .blockSeqStart
    let s ← s.dropKey
    return ((s.allowKey true).push .item).skip 1

def addKey (s : Scanner) : Option Scanner := do
  if !s.inFlow && !s.isKeyAllowed then none
  else
    let s ← s.openBlock s.cursor.column s.nextNumber .blockMapStart
    let s ← s.dropKey
    return ((s.allowKey !s.inFlow).push .key).skip 1

def addLoneValue (s : Scanner) : Option Scanner := do
  if !s.inFlow && !s.isKeyAllowed then none
  else
    let s ← s.openBlock s.cursor.column s.nextNumber .blockMapStart
    return ((s.allowKey !s.inFlow).push .value).skip 1

def addKeyValue (s : Scanner) (k : KeySpot) : Option Scanner := do
  let s ← (s.insert k.number .key).openBlock k.mark.column k.number .blockMapStart
  let s := { s with keys := k.drop :: s.keys.tail }
  return ((s.allowKey false).push .value).skip 1

/-- Adds the colon of a value. If there is a possible key, then that is the key. -/
def addValue (s : Scanner) : Option Scanner :=
  match s.keys with
  | k :: outer =>
    if !k.isPossible then s.addLoneValue
    else if k.reaches s.cursor.mark then s.addKeyValue k
    else if k.isRequired then none
    else { s with keys := k.drop :: outer }.addLoneValue
  | [] => s.addLoneValue

def addBoundary (s : Scanner) (t : Token) : Option Scanner := do
  let s ← s.settle
  return (s.push t).skip 3

def addScalar (s : Scanner) (isPlain : Bool) (r : Scanned) : Scanner :=
  let s := if r.endsBroken then s.allowKey true else s
  { s.push (.scalar (Text.encode r.text) isPlain) with cursor := r.cursor }

def addPlain (s : Scanner) : Option Scanner := do
  let s ← s.saveKey
  let indent := (s.indents.head?.map (· + 1)).getD 0
  return (s.allowKey false).addScalar true (← plainScalar s.inFlow indent s.cursor)

def addQuoted (s : Scanner) : Option Scanner := do
  let s ← s.saveKey
  return (s.allowKey false).addScalar false (← quotedScalar s.cursor)

def addBlock (s : Scanner) (isLiteral : Bool) : Option Scanner := do
  let s ← s.dropKey
  return (s.allowKey true).addScalar false (← blockScalar isLiteral s.indents.head? (s.cursor.skip 1))

def endsName (rest : List Char) : Bool :=
  endsWord rest || (rest.head?.map fun c => ['?', ':', ',', ']', '\x7d', '%', '@', '\x60'].contains c).getD false

def addName (s : Scanner) (t : Text → Token) : Option Scanner := do
  let s ← s.saveKey
  let (name, c) ← (s.cursor.skip 1).takeWhile isNameChar
  if name.isEmpty || !endsName c.rest then none
  else return { (s.allowKey false).push (t (Text.encode name)) with cursor := c }

def isTagChar (c : Char) : Bool :=
  isNameChar c || [';', '/', '?', ':', '@', '&', '=', '+', '$', ',', '.', '!', '~', '*', '\'', '(', ')', '[',
    ']'].contains c

/-- How many bytes of a character come after its first byte `n`, if it is one. -/
def laterBytes? (n : Nat) : Option Nat :=
  if n < 0x80 then some 0
  else if n < 0xC0 then none
  else if n < 0xE0 then some 1
  else if n < 0xF0 then some 2
  else if n < 0xF8 then some 3
  else none

/-- How many bytes of a character come after the byte `n`, where `left` were to come before it. -/
def bytesLeft? (left n : Nat) : Option Nat :=
  if left = 0 then laterBytes? n else if n / 64 = 2 then some (left - 1) else none

/-- Reads the text of a tag, in which bytes may be written by their numbers. All bytes of a character are
then written so, and `left` of them are to come. -/
def tagText (left : Nat) (m : Mark) : List Char → Option (List Char × Cursor)
  | '%' :: a :: b :: rest => do
    let m ← m.see 3 ('%' :: a :: b :: rest)
    let n ← Json.hexDigits? '0' '0' a b
    let (text, c) ← tagText (← bytesLeft? left n) (m.skip 3) rest
    return (Char.ofNat n :: text, c)
  | c :: rest => do
    let m ← m.see 1 (c :: rest)
    if c == '%' || left ≠ 0 then none
    else if isTagChar c then
      let (text, c') ← tagText 0 (m.skip 1) rest
      return (c :: text, c')
    else return ([], ⟨m, c :: rest⟩)
  | [] => if left = 0 then (m.see 1 []).map fun m => ([], ⟨m, []⟩) else none

def tagTextAt (c : Cursor) : Option (List Char × Cursor) :=
  tagText 0 c.mark c.rest

/-- Reads the name after an exclamation mark, and whether there is another one after it. If so, then the name
is that of a handle. -/
def tagHandle (c : Cursor) : Option (List Char × Bool × Cursor) := do
  let c ← c.see 1
  if c.rest.head? != some '!' then none
  else
    let (name, c) ← (c.skip 1).takeWhile isNameChar
    if c.rest.head? == some '!' then return (name, true, c.skip 1) else return (name, false, c)

/-- Reads a tag: one written out in full, one that begins with a handle, or one of the text's own. -/
def tagAt (c : Cursor) : Option (Token × Cursor) := do
  let c ← c.see 2
  match c.rest with
  | '!' :: '<' :: _ =>
    let (text, c) ← tagTextAt (c.skip 2)
    if text.isEmpty || c.rest.head? != some '>' then none
    else return (.tag "" (String.ofList text), c.skip 1)
  | _ =>
    let (name, isHandle, c) ← tagHandle c
    let (text, c) ← tagTextAt c
    if isHandle then
      if text.isEmpty then none
      else return (.tag (String.ofList ('!' :: name ++ ['!'])) (String.ofList text), c)
    else if (name ++ text).isEmpty then return (.tag "" "!", c)
    else return (.tag "!" (String.ofList (name ++ text)), c)

def addTag (s : Scanner) : Option Scanner := do
  let s ← s.saveKey
  let (t, c) ← tagAt s.cursor
  let c ← c.see 1
  if endsWord c.rest then return { (s.allowKey false).push t with cursor := c } else none

def versionPart (c : Cursor) : Option (Nat × Cursor) := do
  let (digits, c) ← c.takeWhile Char.isDigit
  if digits.isEmpty || 2 < digits.length then none
  else return (digits.foldl (fun n d => 10 * n + (d.toNat - '0'.toNat)) 0, c)

def versionAt (c : Cursor) : Option (Token × Cursor) := do
  let (major, c) ← versionPart (← c.dropWhile isBlank)
  if c.rest.head? != some '.' then none
  else
    let (minor, c) ← versionPart (c.skip 1)
    return (.version (major == 1 && minor == 1), c)

def handleAt (c : Cursor) : Option (Token × Cursor) := do
  let (name, isHandle, c) ← tagHandle (← c.dropWhile isBlank)
  let handle := if isHandle then '!' :: name ++ ['!'] else '!' :: name
  let c ← c.see 1
  if (!isHandle && !name.isEmpty) || !(c.rest.head?.map isBlank).getD false then none
  else
    let (text, c) ← tagTextAt (← c.dropWhile isBlank)
    if text.isEmpty || !endsWord c.rest then none
    else return (.tagHandle (String.ofList handle) (String.ofList text), c)

def addDirective (s : Scanner) : Option Scanner := do
  let s ← s.settle
  let (name, c) ← (s.cursor.skip 1).takeWhile isNameChar
  let (t, c) ← match endsWord c.rest, Text.encode name with
    | true, "YAML" => versionAt c
    | true, "TAG" => handleAt c
    | _, _ => none
  return { s.push t with cursor := ← blockStart c }

def addEnd (s : Scanner) : Option Scanner := do
  let s ← settle { s with cursor := ⟨s.cursor.mark.finish, []⟩ }
  return s.push .streamEnd

def addToken (s : Scanner) (c : Char) (rest : List Char) : Option Scanner :=
  match c with
  | '[' => s.openFlow .flowSeqStart
  | '\x7b' => s.openFlow .flowMapStart
  | ']' => s.closeFlow .flowSeqEnd
  | '\x7d' => s.closeFlow .flowMapEnd
  | ',' => s.addComma
  | '*' => s.addName .alias
  | '&' => s.addName .anchor
  | '!' => s.addTag
  | '\'' => s.addQuoted
  | '"' => s.addQuoted
  | _ =>
    if c == '-' && endsWord rest then s.addItem
    else if c == '?' && (s.inFlow || endsWord rest) then s.addKey
    else if c == ':' && (s.inFlow || endsWord rest) then s.addValue
    else if c == '|' && !s.inFlow then s.addBlock true
    else if c == '>' && !s.inFlow then s.addBlock false
    else if startsPlain s.inFlow (c :: rest) then s.addPlain
    else none

/-- Skips a comment on the line of the last token, unless that is a dash. -/
def skipComment (s : Scanner) : Option Scanner :=
  if s.queue.getLast? == some .item then some s
  else s.cursor.skipComment.map fun c => { s with cursor := c }

/-- How many characters are looked up to tell what token comes next. -/
def lookahead : Nat := 4

def nextHere (s : Scanner) : Option Scanner :=
  match s.cursor.rest with
  | [] => s.addEnd
  | c :: rest =>
    if s.cursor.column = 0 && c == '%' then s.addDirective
    else if s.cursor.column = 0 && startsDocument (c :: rest) then s.addBoundary .documentStart
    else if s.cursor.column = 0 && endsDocument (c :: rest) then s.addBoundary .documentEnd
    else (s.addToken c rest).bind skipComment

def next (s : Scanner) : Option Scanner := do
  let (c, keys) ← skipFiller s.inFlow .margin s.isKeyAllowed s.cursor.mark s.cursor.rest
  let s := { s with cursor := c, isKeyAllowed := keys }.closeBlocks (· ≤ c.column)
  nextHere { s with cursor := ← s.cursor.see lookahead }

/-- The possible key that the next token to be taken is. -/
def awaited? (s : Scanner) : Option KeySpot :=
  s.keys.find? fun k => k.isAwaited && k.number == s.taken

/-- Adds tokens until one can be taken: enough of them wait, and it is known whether the first is a key.
The number of tokens is bounded by `fuel`. -/
def supply : Nat → Scanner → Option Scanner
  | 0, _ => none
  | fuel + 1, s =>
    if s.queue.length < tokenReach then s.next.bind (supply fuel)
    else
      match s.awaited? with
      | none => some s
      | some k =>
        if k.reaches s.cursor.mark then s.next.bind (supply fuel)
        else if k.isRequired then none
        else some s

def take (s : Scanner) : Scanner :=
  { s with queue := s.queue.tail, taken := s.taken + 1 }

end Scanner

end Gradual.Yaml
