/-! Byte strings. Every name and message of the checker is a sequence of bytes, which need not be
valid UTF-8. A byte is held as the character of the same number, so that lengths count bytes and the
order of texts is the order of their bytes. -/

namespace Gradual

/-- A byte string; each character stands for the byte of its number. -/
abbrev Text := String

/-- What a text holds when it is read as UTF-8: a character, or a byte that belongs to none. -/
inductive Glyph where
  | char (c : Char)
  | stray (byte : Char)
  deriving DecidableEq, Repr

namespace Text

def encodeChar (c : Char) : List Char :=
  let n := c.toNat
  if n < 0x80 then [c]
  else if n < 0x800 then [Char.ofNat (0xC0 + n / 64), Char.ofNat (0x80 + n % 64)]
  else if n < 0x10000 then
    [Char.ofNat (0xE0 + n / 4096), Char.ofNat (0x80 + n / 64 % 64), Char.ofNat (0x80 + n % 64)]
  else
    [Char.ofNat (0xF0 + n / 262144), Char.ofNat (0x80 + n / 4096 % 64),
      Char.ofNat (0x80 + n / 64 % 64), Char.ofNat (0x80 + n % 64)]

def encode (cs : List Char) : Text :=
  String.ofList (cs.flatMap encodeChar)

def utf8 (s : String) : Text :=
  encode s.toList

def isTail (c : Char) : Bool :=
  0x80 ≤ c.toNat && c.toNat ≤ 0xBF

def tailBits (c : Char) : Nat :=
  c.toNat % 64

/-- Whether `b` may follow the first byte `a` of a character of three bytes: overlong forms and
surrogates are refused. -/
def secondOfThree (a b : Char) : Bool :=
  if a.toNat = 0xE0 then 0xA0 ≤ b.toNat && b.toNat ≤ 0xBF
  else if a.toNat = 0xED then 0x80 ≤ b.toNat && b.toNat ≤ 0x9F
  else isTail b

/-- Whether `b` may follow the first byte `a` of a character of four bytes: overlong forms and
numbers beyond the last character are refused. -/
def secondOfFour (a b : Char) : Bool :=
  if a.toNat = 0xF0 then 0x90 ≤ b.toNat && b.toNat ≤ 0xBF
  else if a.toNat = 0xF4 then 0x80 ≤ b.toNat && b.toNat ≤ 0x8F
  else isTail b

/-- The glyph that begins with byte `a` before the bytes `rest`, and how many of those belong to it. -/
def firstGlyph (a : Char) (rest : List Char) : Glyph × Nat :=
  if a.toNat < 0x80 then (.char a, 0)
  else if 0xC2 ≤ a.toNat && a.toNat ≤ 0xDF then
    match rest with
    | b :: _ =>
      if isTail b then (.char (Char.ofNat ((a.toNat - 0xC0) * 64 + tailBits b)), 1)
      else (.stray a, 0)
    | _ => (.stray a, 0)
  else if 0xE0 ≤ a.toNat && a.toNat ≤ 0xEF then
    match rest with
    | b :: c :: _ =>
      if secondOfThree a b && isTail c then
        (.char (Char.ofNat ((a.toNat - 0xE0) * 4096 + tailBits b * 64 + tailBits c)), 2)
      else (.stray a, 0)
    | _ => (.stray a, 0)
  else if 0xF0 ≤ a.toNat && a.toNat ≤ 0xF4 then
    match rest with
    | b :: c :: d :: _ =>
      if secondOfFour a b && isTail c && isTail d then
        (.char (Char.ofNat ((a.toNat - 0xF0) * 262144 + tailBits b * 4096 + tailBits c * 64
          + tailBits d)), 3)
      else (.stray a, 0)
    | _ => (.stray a, 0)
  else (.stray a, 0)

/-- The glyphs of a byte sequence after its first `skip` bytes. -/
def glyphsAfter : Nat → List Char → List Glyph
  | _, [] => []
  | skip + 1, _ :: rest => glyphsAfter skip rest
  | 0, a :: rest => (firstGlyph a rest).1 :: glyphsAfter (firstGlyph a rest).2 rest

def toGlyphs (t : Text) : List Glyph :=
  glyphsAfter 0 t.toList

def replacement : Char := '\uFFFD'

def shown : Glyph → Char
  | .char c => c
  | .stray _ => replacement

/-- The text as a string of characters, with the replacement character for each stray byte. -/
def display (t : Text) : String :=
  String.ofList ((toGlyphs t).map shown)

/-- The text with every stray byte replaced by the bytes of the replacement character. -/
def repair (t : Text) : Text :=
  encode ((toGlyphs t).map shown)

/-- Whether a text is a sequence of characters in UTF-8. -/
def isUtf8 (t : Text) : Bool :=
  (toGlyphs t).all fun
    | .char _ => true
    | .stray _ => false

/-- Hexadecimal digits, lower case, of exactly `width` places. -/
def hex : Nat → Nat → List Char
  | 0, _ => []
  | width + 1, n => hex width (n / 16) ++ [Nat.digitChar (n % 16)]

def join (separator : Text) : List Text → Text
  | [] => ""
  | [t] => t
  | t :: rest => t ++ separator ++ join separator rest

def startsWith (t start : Text) : Bool :=
  start.toList.isPrefixOf t.toList

def endsWith (t final : Text) : Bool :=
  final.toList.isSuffixOf t.toList

def dropStart (t start : Text) : Text :=
  if startsWith t start then String.ofList (t.toList.drop start.length) else t

def dropEnd (t final : Text) : Text :=
  if endsWith t final then String.ofList (t.toList.take (t.length - final.length)) else t

end Text

end Gradual
