import Gradual.Yaml.Basic

/-! Reading YAML values into records. Every member must be one of the record's; a null leaves what is
there, and a null item of a list is left out. An entry whose key is null does not count, and entries may be
taken from another map. What an alias stands for is read anew each time. Since a short text can stand for a
huge value so, all visits of values are counted, and not too many of them may be due to aliases. -/

namespace Gradual.Yaml

/-- How many values were visited. -/
structure Tally where
  visits : Nat := 0
  aliased : Nat := 0
  depth : Nat := 0
  deriving DecidableEq, Repr

namespace Tally

def fewVisits : Nat := 400000

def manyVisits : Nat := 4000000

/-- Whether too many visits are due to aliases. The share of them that may be so is 99 in 100 for few visits
and 10 in 100 for many, and falls evenly in between. -/
def isExcessive (t : Tally) : Bool :=
  let span := manyVisits - fewVisits
  let share := 99 * span - 89 * (min t.visits manyVisits - fewVisits)
  100 < t.aliased && 1000 < t.visits && t.visits * share < 100 * span * t.aliased

def count (t : Tally) : Tally :=
  { t with visits := t.visits + 1, aliased := if 0 < t.depth then t.aliased + 1 else t.aliased }

end Tally

/-- Reading values. It fails on values that do not fit, and on too many aliases. -/
abbrev Reading := StateT Tally Option

namespace Reading

def visit : Reading Unit := do
  let t := (← get).count
  if t.isExcessive then failure else set t

def through {α : Type} (read : Reading α) : Reading α := do
  modify fun t => { t with depth := t.depth + 1 }
  visit
  let a ← read
  modify fun t => { t with depth := t.depth - 1 }
  return a

def unlessNull {α : Type} (read : Yaml → Reading α) (y : Yaml) : Reading (Option α) :=
  if y.isNull then return none else some <$> read y

def value {α : Type} (read : Yaml → Reading α) (y : Yaml) : Reading (Option α) := do
  visit
  match y with
  | .alias y => through (unlessNull read y)
  | y => unlessNull read y

end Reading

def readText : Yaml → Reading (Option Text) :=
  Reading.value fun y => y.text?

def readBool : Yaml → Reading (Option Bool) :=
  Reading.value fun y => y.bool?

def readInt : Yaml → Reading (Option Int) :=
  Reading.value fun y => y.int?

def readList {α : Type} (item : Yaml → Reading (Option α)) : Yaml → Reading (Option (List α)) :=
  Reading.value fun
    | .seq items => do return (← items.mapM item).reduceOption
    | _ => failure

def isMerge : Yaml → Bool
  | .scalar _ .merge => true
  | _ => false

/-- The names that a map gives to its members. -/
structure Names where
  own : List Text := []
  /-- The names whose members are there already, where a map is read whose entries another one takes. -/
  taken : Option (List Text) := none

namespace Names

def isTaken (n : Names) (name : Text) : Bool :=
  (n.taken.getD []).contains name

def add (n : Names) (name : Text) : Names :=
  ⟨name :: n.own, n.taken.map (name :: ·)⟩

end Names

/-- Reads the members that entries give themselves. No name may be there twice. -/
def readOwn {α : Type} (member : Text → Yaml → α → Reading α) :
    List (Yaml × Yaml) → Names → α → Reading (α × Names)
  | [], names, a => return (a, names)
  | (k, v) :: rest, names, a => do
    if k.isMerge then readOwn member rest names a
    else
      match ← readText k with
      | none => readOwn member rest names a
      | some name =>
        if names.isTaken name then readOwn member rest names a
        else if names.own.contains name then failure
        else readOwn member rest (names.add name) (← member name v a)

def keyName? : Yaml → Option Text
  | .scalar text .text => some text
  | .scalar text .merge => some text
  | _ => none

def keyNames (entries : List (Yaml × Yaml)) : Reading (List Text) := do
  let names ← entries.mapM fun (k, _) => Reading.value (fun y => return y.keyName?) k
  return names.filterMap Option.join

mutual

/-- Reads the members of a map: its own, and those taken from elsewhere that are not there already. No key
may be written twice. -/
def readMap {α : Type} (member : Text → Yaml → α → Reading α) :
    Yaml → Option (List Text) → α → Reading (α × Option (List Text))
  | .map entries hasTwins, taken, a => do
    if hasTwins then failure
    let (a, names) ← readOwn member entries ⟨[], taken⟩ a
    if entries.any (·.1.isMerge) then
      let taken ← match names.taken with
        | some taken => pure taken
        | none => keyNames entries
      let (a, taken) ← readMerge member entries taken a
      return (a, some taken)
    else return (a, names.taken)
  | _, _, _ => failure

def readMerge {α : Type} (member : Text → Yaml → α → Reading α) :
    List (Yaml × Yaml) → List Text → α → Reading (α × List Text)
  | [], taken, a => return (a, taken)
  | (k, v) :: rest, taken, a =>
    if !k.isMerge then readMerge member rest taken a
    else
      match v with
      | .seq items => readSources member items taken a
      | v => readSource member v taken a

def readSource {α : Type} (member : Text → Yaml → α → Reading α) :
    Yaml → List Text → α → Reading (α × List Text)
  | .alias y, taken, a => do
    Reading.visit
    let (a, names) ← Reading.through (readMap member y (some taken) a)
    return (a, names.getD taken)
  | y, taken, a => do
    Reading.visit
    let (a, names) ← readMap member y (some taken) a
    return (a, names.getD taken)

def readSources {α : Type} (member : Text → Yaml → α → Reading α) :
    List Yaml → List Text → α → Reading (α × List Text)
  | [], taken, a => return (a, taken)
  | y :: rest, taken, a => do
    let (a, taken) ← readSource member y taken a
    readSources member rest taken a

end

def readMembers {α : Type} (member : Text → Yaml → α → Reading α) (blank : α) : Yaml → Reading (Option α) :=
  Reading.value fun y => do return (← readMap member y none blank).1

def readDocument {α : Type} (read : Yaml → Reading (Option α)) (y : Yaml) : Option (Option α) :=
  (Reading.visit *> read y).run' {}

end Gradual.Yaml
