import Gradual.Text.Bytes

/-! White space, byte by byte and character by character. -/

namespace Gradual.Text

/-- White space among the characters below U+0100. -/
def isLatinSpace (c : Char) : Bool :=
  c == ' ' || (9 ≤ c.toNat && c.toNat ≤ 13) || c.toNat == 0x85 || c.toNat == 0xA0

def isSpace (c : Char) : Bool :=
  isLatinSpace c || c.toNat == 0x1680 || (0x2000 ≤ c.toNat && c.toNat ≤ 0x200A)
    || c.toNat == 0x2028 || c.toNat == 0x2029 || c.toNat == 0x202F || c.toNat == 0x205F
    || c.toNat == 0x3000

def isBlank : Glyph → Bool
  | .char c => isSpace c
  | .stray _ => false

def glyphBytes : Glyph → List Char
  | .char c => encodeChar c
  | .stray b => [b]

def trim (t : Text) : Text :=
  let body := ((toGlyphs t).dropWhile isBlank).reverse.dropWhile isBlank
  String.ofList (body.reverse.flatMap glyphBytes)

def isBlankText (t : Text) : Bool :=
  (toGlyphs t).all isBlank

end Gradual.Text
