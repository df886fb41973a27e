import Gradual.Json.Basic

/-! Writing JSON, compactly or with one item to a line. Object members are written in the order they
stand. -/

namespace Gradual.Json

/-- Whether the characters that matter to HTML are written as escapes. -/
inductive Escaping where
  | plain
  | html
  deriving DecidableEq, Repr

def shortEscape : Char → Option Char
  | '\x08' => some 'b'
  | '\x0c' => some 'f'
  | '\n' => some 'n'
  | '\r' => some 'r'
  | '\t' => some 't'
  | _ => none

def numberEscape (n : Nat) : List Char :=
  '\\' :: 'u' :: Text.hex 4 n

/-- A character inside a string. The two separators of lines and paragraphs are escaped as well. -/
def writtenChar (escaping : Escaping) (c : Char) : List Char :=
  if c == '"' || c == '\\' then ['\\', c]
  else match shortEscape c with
    | some letter => ['\\', letter]
    | none =>
      if c.toNat < 0x20 || c.toNat == 0x2028 || c.toNat == 0x2029 then numberEscape c.toNat
      else if escaping == .html && (c == '<' || c == '>' || c == '&') then numberEscape c.toNat
      else Text.encodeChar c

/-- A glyph inside a string; a stray byte is written as the replacement character. -/
def writtenGlyph (escaping : Escaping) : Glyph → List Char
  | .char c => writtenChar escaping c
  | .stray _ => numberEscape Text.replacement.toNat

def writtenString (escaping : Escaping) (t : Text) : Text :=
  String.ofList ('"' :: (Text.toGlyphs t).flatMap (writtenGlyph escaping) ++ ['"'])

mutual

def render (escaping : Escaping) : Json → Text
  | .null => "null"
  | .bool true => "true"
  | .bool false => "false"
  | .num t => t
  | .str t => writtenString escaping t
  | .arr items => "[" ++ Text.join "," (renderItems escaping items) ++ "]"
  | .obj members => "\x7b" ++ Text.join "," (renderMembers escaping members) ++ "\x7d"

def renderItems (escaping : Escaping) : List Json → List Text
  | [] => []
  | j :: rest => render escaping j :: renderItems escaping rest

def renderMembers (escaping : Escaping) : List (Text × Json) → List Text
  | [] => []
  | (name, j) :: rest =>
    (writtenString escaping name ++ ":" ++ render escaping j) :: renderMembers escaping rest

end

def newline (level : Nat) : Text :=
  String.ofList ('\n' :: List.replicate (2 * level) ' ')

/-- Parts between brackets, each on a line of its own; brackets around nothing stay together. -/
def bracketed (opening closing : Text) (level : Nat) (parts : List Text) : Text :=
  if parts.isEmpty then opening ++ closing
  else opening ++ newline (level + 1) ++ Text.join ("," ++ newline (level + 1)) parts
    ++ newline level ++ closing

mutual

/-- The text of a value with one item to a line, indented by two spaces for each level. -/
def renderIndented (escaping : Escaping) (level : Nat) : Json → Text
  | .arr items => bracketed "[" "]" level (indentedItems escaping (level + 1) items)
  | .obj members => bracketed "\x7b" "\x7d" level (indentedMembers escaping (level + 1) members)
  | .null => "null"
  | .bool true => "true"
  | .bool false => "false"
  | .num t => t
  | .str t => writtenString escaping t

def indentedItems (escaping : Escaping) (level : Nat) : List Json → List Text
  | [] => []
  | j :: rest => renderIndented escaping level j :: indentedItems escaping level rest

def indentedMembers (escaping : Escaping) (level : Nat) : List (Text × Json) → List Text
  | [] => []
  | (name, j) :: rest =>
    (writtenString escaping name ++ ": " ++ renderIndented escaping level j)
      :: indentedMembers escaping level rest

end

end Gradual.Json
