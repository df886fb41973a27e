import Gradual.Text.Bytes
import Gradual.Text.Printable

/-! Quoted texts in messages: double quotes around the text, printable characters as themselves, all
else escaped. A stray byte is written by its number. -/

namespace Gradual.Text

def shortEscape : Char → Option Char
  | '\x07' => some 'a'
  | '\x08' => some 'b'
  | '\x0c' => some 'f'
  | '\n' => some 'n'
  | '\r' => some 'r'
  | '\t' => some 't'
  | '\x0b' => some 'v'
  | _ => none

def quotedChar (c : Char) : List Char :=
  if c == '"' || c == '\\' then ['\\', c]
  else if isPrintable c then encodeChar c
  else match shortEscape c with
    | some letter => ['\\', letter]
    | none =>
      if c.toNat < 0x20 || c.toNat == 0x7F then '\\' :: 'x' :: hex 2 c.toNat
      else if c.toNat < 0x10000 then '\\' :: 'u' :: hex 4 c.toNat
      else '\\' :: 'U' :: hex 8 c.toNat

def quotedGlyph : Glyph → List Char
  | .char c => quotedChar c
  | .stray b => '\\' :: 'x' :: hex 2 b.toNat

def quoted (t : Text) : Text :=
  String.ofList ('"' :: (toGlyphs t).flatMap quotedGlyph ++ ['"'])

end Gradual.Text
