import Gradual.Text.Bytes

/-! Paths. A path is a text whose parts are divided by slashes; it is absolute if it begins with one. -/

namespace Gradual.Path

/-- The parts of a path between its slashes; some may be empty. -/
def splitOn (separator : Char) : List Char → List (List Char)
  | [] => [[]]
  | c :: rest =>
    match splitOn separator rest with
    | [] => [[c]]
    | part :: parts => if c = separator then [] :: part :: parts else (c :: part) :: parts

def parts (path : Text) : List Text :=
  (splitOn '/' path.toList).map String.ofList

def isAbsolute (path : Text) : Bool :=
  Text.startsWith path "/"

/-- The parts of the shortest equal path, the last one first. Going up from the root stays there. -/
def reduce (rooted : Bool) (done : List Text) : List Text → List Text
  | [] => done
  | part :: rest =>
    if part = "" ∨ part = "." then reduce rooted done rest
    else if part = ".." then
      match done with
      | last :: before =>
        if last = ".." then reduce rooted (".." :: done) rest else reduce rooted before rest
      | [] => if rooted then reduce rooted [] rest else reduce rooted [".."] rest
    else reduce rooted (part :: done) rest

/-- The shortest path equal to a path by the text alone. -/
def clean (path : Text) : Text :=
  let body := Text.join "/" (reduce (isAbsolute path) [] (parts path)).reverse
  if isAbsolute path then "/" ++ body
  else if body = "" then "." else body

def join (base path : Text) : Text :=
  if base = "" && path = "" then ""
  else if base = "" then clean path
  else if path = "" then clean base
  else clean (base ++ "/" ++ path)

def trimSlashes (path : Text) : Text :=
  let start := if isAbsolute path then ['/'] else []
  String.ofList (start ++ (((path.toList.dropWhile (· == '/')).reverse.dropWhile (· == '/')).reverse))

/-- The directory that a path names an entry of, and the name of the entry. A name alone is one in the
working directory. -/
def split (path : Text) : Text × Text :=
  let backward := (trimSlashes path).toList.reverse
  let name := String.ofList (backward.takeWhile (· != '/')).reverse
  match backward.dropWhile (· != '/') with
  | [] => (".", name)
  | [_] => ("/", name)
  | _ :: parent => (String.ofList parent.reverse, name)

def absolute (directory path : Text) : Text :=
  if isAbsolute path then clean path else join directory path

def parent (path : Text) : Text :=
  clean (String.ofList (path.toList.reverse.dropWhile (· != '/')).reverse)

end Gradual.Path
