import Gradual.NameMap
import Gradual.Text.Base64
import Gradual.Yaml.Basic
import Gradual.Yaml.Timestamp
import Gradual.Yaml.Token

/-! The documents of YAML texts. Tokens are put together to values: a collection holds what stands between
its beginning and its end, an empty place holds null, and an alias stands for what its anchor was put on. Of
a text only the first document counts. -/

namespace Gradual.Yaml

/-- How a value is written where it is the key of an entry. Two keys are the same if they are written the
same. -/
inductive KeyForm where
  | scalar (text : Text)
  | alias (name : Text)
  | seq
  | map
  deriving DecidableEq, Repr

structure Written where
  form : KeyForm
  value : Yaml

def Written.empty : Written := ⟨.scalar "", null⟩

def standardTag : Text := "tag:yaml.org,2002:"

def shortTag (tag : Text) : Text :=
  if Text.startsWith tag standardTag then "!!" ++ Text.dropStart tag standardTag else tag

def tagOf : Sense → Text
  | .null => "!!null"
  | .truth _ => "!!bool"
  | .int _ => "!!int"
  | .float _ => "!!float"
  | .text => "!!str"
  | .merge => "!!merge"

/-- The tags of scalars that stand for themselves, which a scalar must fit. -/
def strictTags : List Text :=
  ["!!null", "!!bool", "!!int", "!!float"]

/-- A scalar with a tag that it must fit: the one that the word has anyway, but an integer may stand for a
number with a fraction. -/
def strictScalar (tag text : Text) : Yaml :=
  let sense := senseOf text
  if tag = tagOf sense then .scalar text sense
  else
    match tag, sense with
    | "!!float", .int n =>
      if n ≤ Decimal.maxInt then .scalar text (.float (Decimal.floatBits (toString n))) else .unreadable
    | _, _ => .unreadable

/-- A scalar with a tag. Under a tag that says nothing else it is a text. -/
def taggedScalar (tag text : Text) : Yaml :=
  if strictTags.contains tag then strictScalar tag text
  else if tag = "!!merge" && text = "<<" then .scalar text .merge
  else if tag = "!!binary" then ((Text.Base64.decode? text).map (.scalar · .text)).getD .unreadable
  else if tag = "!!timestamp" && !isTimestamp text then .unreadable
  else .scalar text .text

/-- A scalar. Only a plain one without a tag stands for something else than its text. -/
def scalarOf (tag : Option Text) (text : Text) (isPlain : Bool) : Yaml :=
  match tag with
  | some tag => taggedScalar tag text
  | none =>
    if !isPlain then .scalar text .text
    else if text = "<<" then .scalar text .merge
    else .scalar text (senseOf text)

def mapOf (entries : List (Written × Written)) : Yaml :=
  .map (entries.map fun (k, v) => (k.value, v.value)) (!decide ((entries.map fun (k, _) => k.form).Nodup))

/-- What the reading of a document has to go on. -/
structure Source where
  scanner : Scanner
  /-- A bound for the number of tokens. -/
  limit : Nat
  /-- The values that anchors were put on so far; a collection has none until it is read. -/
  anchors : NameMap (Option Yaml) := .empty
  /-- What the handles of tags stand for. -/
  handles : List (Text × Text) := []

/-- Reading parts of a document. It fails on tokens that do not fit. -/
abbrev Reader := StateT Source Option

namespace Reader

def peek : Reader Token := do
  let s ← get
  let scanner ← s.scanner.supply s.limit
  set { s with scanner := scanner }
  match scanner.queue with
  | t :: _ => return t
  | [] => failure

def skip : Reader Unit :=
  modify fun s => { s with scanner := s.scanner.take }

def skipIf (t : Token) : Reader Bool := do
  if (← peek) == t then
    skip
    return true
  else return false

def hold (anchor : Option Text) : Reader Unit :=
  match anchor with
  | none => return ()
  | some name => modify fun s => { s with anchors := s.anchors.insert name none }

/-- Puts an anchor on a collection that was read, unless its name was used again inside. -/
def settle (anchor : Option Text) (y : Yaml) : Reader Unit :=
  match anchor with
  | none => return ()
  | some name => modify fun s =>
    match s.anchors.get? name with
    | some none => { s with anchors := s.anchors.insert name (some y) }
    | _ => s

def mark (anchor : Option Text) (y : Yaml) : Reader Unit :=
  match anchor with
  | none => return ()
  | some name => modify fun s => { s with anchors := s.anchors.insert name (some y) }

/-- An alias. Inside the collection that its anchor is on it stands for nothing. -/
def deref (name : Text) : Reader Written := do
  match (← get).anchors.get? name with
  | some y => return ⟨.alias name, .alias (y.getD .unreadable)⟩
  | none => failure

def fullTag (handle suffix : Text) : Reader Text := do
  if handle = "" then return suffix
  match (← get).handles.find? (·.1 == handle) with
  | some (_, start) => if start ++ suffix = "" then failure else return start ++ suffix
  | none => failure

/-- Reads a tag, if there is one. A single exclamation mark is none. -/
def readTag : Reader (Option (Option Text)) := do
  match ← peek with
  | .tag handle suffix =>
    skip
    let tag := shortTag (← fullTag handle suffix)
    return some (if tag = "!" then none else some tag)
  | _ => return none

def readAnchor : Reader (Option Text) := do
  match ← peek with
  | .anchor name =>
    skip
    return some name
  | _ => return none

/-- What stands before a value: an anchor, a tag, and whether there is one of them. -/
structure Properties where
  anchor : Option Text
  tag : Option Text
  isGiven : Bool

def readProperties : Reader Properties := do
  match ← readAnchor with
  | some name =>
    let tag ← readTag
    return ⟨some name, tag.join, true⟩
  | none =>
    match ← readTag with
    | none => return ⟨none, none, false⟩
    | some tag => return ⟨← readAnchor, tag, true⟩

mutual

/-- Reads a value. Block collections may stand only where `inBlock` says so, and a sequence whose dashes
are not indented only where `atKey` does. -/
def node : Nat → Bool → Bool → Reader Written
  | 0, _, _ => failure
  | fuel + 1, inBlock, atKey => do
    match ← peek with
    | .alias name =>
      skip
      deref name
    | _ =>
      let p ← readProperties
      match ← peek with
      | .scalar text isPlain =>
        skip
        let y := scalarOf p.tag text isPlain
        mark p.anchor y
        return ⟨.scalar text, y⟩
      | .flowSeqStart =>
        skip
        hold p.anchor
        let y := Yaml.seq (← flowItems fuel true)
        settle p.anchor y
        return ⟨.seq, y⟩
      | .flowMapStart =>
        skip
        hold p.anchor
        let y := mapOf (← flowEntries fuel true)
        settle p.anchor y
        return ⟨.map, y⟩
      | t =>
        if t == .item && atKey then
          hold p.anchor
          let y := Yaml.seq (← flatItems fuel)
          settle p.anchor y
          return ⟨.seq, y⟩
        else if t == .blockSeqStart && inBlock then
          skip
          hold p.anchor
          let y := Yaml.seq (← blockItems fuel)
          settle p.anchor y
          return ⟨.seq, y⟩
        else if t == .blockMapStart && inBlock then
          skip
          hold p.anchor
          let y := mapOf (← blockEntries fuel)
          settle p.anchor y
          return ⟨.map, y⟩
        else if p.isGiven then
          let y := scalarOf p.tag "" true
          mark p.anchor y
          return ⟨.scalar "", y⟩
        else failure

def blockNode : Nat → Bool → List Token → Reader Written
  | 0, _, _ => failure
  | fuel + 1, atKey, ends => do
    if ends.contains (← peek) then return .empty else node fuel true atKey

def blockItems : Nat → Reader (List Yaml)
  | 0 => failure
  | fuel + 1 => do
    if ← skipIf .item then
      let item ← blockNode fuel false [.item, .blockEnd]
      return item.value :: (← blockItems fuel)
    else if ← skipIf .blockEnd then return []
    else failure

/-- Reads the items of a sequence whose dashes are not indented. It has no token for its end. -/
def flatItems : Nat → Reader (List Yaml)
  | 0 => failure
  | fuel + 1 => do
    if ← skipIf .item then
      let item ← blockNode fuel false [.item, .key, .value, .blockEnd]
      return item.value :: (← flatItems fuel)
    else return []

def blockEntries : Nat → Reader (List (Written × Written))
  | 0 => failure
  | fuel + 1 => do
    if ← skipIf .key then
      let key ← blockNode fuel true [.key, .value, .blockEnd]
      let value ← if ← skipIf .value then blockNode fuel true [.key, .value, .blockEnd] else pure .empty
      return (key, value) :: (← blockEntries fuel)
    else if ← skipIf .blockEnd then return []
    else failure

def flowNode : Nat → List Token → Reader Written
  | 0, _ => failure
  | fuel + 1, ends => do
    if ends.contains (← peek) then return .empty else node fuel false false

/-- Reads the items of a flow sequence up to its end. An item may be a single entry of a map. -/
def flowItems : Nat → Bool → Reader (List Yaml)
  | 0, _ => failure
  | fuel + 1, isFirst => do
    if ← skipIf .flowSeqEnd then return []
    if !isFirst then
      if !(← skipIf .comma) then failure
    if ← skipIf .flowSeqEnd then return []
    let item ← if ← skipIf .key then flowPair fuel else (·.value) <$> node fuel false false
    return item :: (← flowItems fuel false)

/-- Reads the single entry of a map, from after its key's mark on. A colon that follows the mark directly
does not count. -/
def flowPair : Nat → Reader Yaml
  | 0 => failure
  | fuel + 1 => do
    let key ← if [.value, .comma, .flowSeqEnd].contains (← peek) then
        skip
        pure .empty
      else node fuel false false
    let value ← if ← skipIf .value then flowNode fuel [.comma, .flowSeqEnd] else pure .empty
    return mapOf [(key, value)]

/-- Reads the entries of a flow map up to its end. A key alone has no value. -/
def flowEntries : Nat → Bool → Reader (List (Written × Written))
  | 0, _ => failure
  | fuel + 1, isFirst => do
    if ← skipIf .flowMapEnd then return []
    if !isFirst then
      if !(← skipIf .comma) then failure
    if ← skipIf .flowMapEnd then return []
    let isMarked ← skipIf .key
    let key ← if isMarked then flowNode fuel [.value, .comma, .flowMapEnd] else node fuel false false
    let value ← if isMarked then
        if ← skipIf .value then flowNode fuel [.comma, .flowMapEnd] else pure .empty
      else pure .empty
    return (key, value) :: (← flowEntries fuel false)

end

/-- Reads the directives before a document: a version at most, and handles of tags. -/
def directives : Nat → Bool → Reader Unit
  | 0, _ => failure
  | fuel + 1, hasVersion => do
    match ← peek with
    | .version isKnown =>
      if hasVersion || !isKnown then failure
      skip
      directives fuel true
    | .tagHandle handle start =>
      if (← get).handles.any (·.1 == handle) then failure
      skip
      modify fun s => { s with handles := s.handles ++ [(handle, start)] }
      directives fuel hasVersion
    | _ => return ()

def standardHandles : List (Text × Text) :=
  [("!", "!"), ("!!", standardTag)]

def isOutside : Token → Bool
  | .version _ | .tagHandle _ _ | .documentStart | .documentEnd | .streamEnd => true
  | _ => false

/-- Reads the value of a document. What comes after it is looked at, but not taken. -/
def content (fuel : Nat) : Reader Yaml := do
  let y ← node fuel true false
  let _ ← peek
  return y.value

def document (fuel : Nat) : Reader (Option Yaml) := do
  match ← peek with
  | .streamEnd => return none
  | .version _ | .tagHandle _ _ | .documentStart =>
    directives fuel false
    if !(← skipIf .documentStart) then failure
    modify fun s => { s with handles := s.handles ++ standardHandles }
    if isOutside (← peek) then return some null else some <$> content fuel
  | _ =>
    modify fun s => { s with handles := standardHandles }
    some <$> content fuel

end Reader

def isReadable (c : Char) : Bool :=
  let n := c.toNat
  n == 9 || n == 10 || n == 13 || (0x20 ≤ n && n ≤ 0x7E) || n == 0x85 || (0xA0 ≤ n && n ≤ 0xFFFD) || 0x10000 ≤ n

/-- How many bytes of a text are looked at together. -/
def chunkSize : Nat := 512

/-- The chunks of a text, up to the one that holds something unreadable. -/
structure Chunks where
  chunks : List (List Char) := []
  isCut : Bool := false

def Chunks.cons (chunk : List Char) (cs : Chunks) : Chunks :=
  { cs with chunks := chunk :: cs.chunks }

/-- The chunks of a text; `size` bytes of the first one were looked at before, and found to hold `chunk`, of
which the last character comes first. -/
def chunksOf (size : Nat) (chunk : List Char) : List Glyph → Chunks
  | [] => ⟨[chunk.reverse], false⟩
  | .stray _ :: _ => ⟨[], true⟩
  | .char c :: rest =>
    let width := (Text.encodeChar c).length
    if chunkSize < size + width then
      if isReadable c then (chunksOf width [c] rest).cons chunk.reverse else ⟨[chunk.reverse], true⟩
    else if isReadable c then chunksOf (size + width) (c :: chunk) rest
    else ⟨[], true⟩

def Chunks.start (cs : Chunks) : Cursor where
  mark := { window := { chunks := cs.chunks.map List.length, isCut := cs.isCut } }
  rest := cs.chunks.flatten

def encodingMarkText : Text := Text.encode [encodingMark]

def startOf (t : Text) : Cursor :=
  let size := if Text.startsWith t encodingMarkText then encodingMarkText.length else 0
  (chunksOf size [] (Text.toGlyphs (Text.dropStart t encodingMarkText))).start

inductive Document where
  | malformed
  | empty
  | value (y : Yaml)

def parse (t : Text) : Document :=
  let start := startOf t
  let bound := 16 * (start.rest.length + 2)
  match (Reader.document bound).run' { scanner := { cursor := start }, limit := bound } with
  | none => .malformed
  | some none => .empty
  | some (some y) => .value y

end Gradual.Yaml
