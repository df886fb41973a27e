import Gradual.Json.Reader

/-! Comments in relaxed JSON, made blank. The lines and columns of what remains are as before. -/

namespace Gradual.Json

/-- Where a character stands. Between tokens and in comments it matters whether the last token was a
comma, and in comments whether the comment is kept. -/
inductive CommentState where
  | between (afterComma : Bool)
  | string
  | line (afterComma kept : Bool)
  | block (afterComma kept : Bool)

def closesAfter (state : BlankState) (s : List Char) : Bool :=
  match skip .relaxed state s with
  | some (']' :: _) => true
  | some ('\x7d' :: _) => true
  | _ => false

def commentChar (kept : Bool) (c : Char) : Char :=
  if kept || isBlank c then c else ' '

def blankFrom : CommentState → List Char → List Char
  | _, [] => []
  | .string, '\\' :: c :: rest => '\\' :: c :: blankFrom .string rest
  | .string, c :: rest => c :: blankFrom (if c = '"' then .between false else .string) rest
  | .line comma kept, c :: rest =>
    commentChar kept c :: blankFrom (if c = '\n' then .between comma else .line comma kept) rest
  | .block comma kept, '*' :: '/' :: rest =>
    commentChar kept '*' :: commentChar kept '/' :: blankFrom (.between comma) rest
  | .block comma kept, c :: rest => commentChar kept c :: blankFrom (.block comma kept) rest
  | .between comma, '/' :: '/' :: rest =>
    let kept := comma && closesAfter .line rest
    commentChar kept '/' :: commentChar kept '/' :: blankFrom (.line comma kept) rest
  | .between comma, '/' :: '*' :: rest =>
    let kept := comma && closesAfter .block rest
    commentChar kept '/' :: commentChar kept '*' :: blankFrom (.block comma kept) rest
  | .between comma, c :: rest =>
    c :: blankFrom (if c = '"' then .string else .between (if isBlank c then comma else c == ',')) rest

/-- A text with its comments made blank, except for those between a comma and the bracket that it is the
last comma before. -/
def blankComments (t : Text) : Text :=
  String.ofList (blankFrom (.between false) t.toList)

end Gradual.Json
