import Gradual.Text.Bytes

/-! Maps from names, kept as lists of entries in strictly increasing order of name, so that a map is
determined by what it maps. -/

namespace Gradual

/-- A map from names to values: its entries by increasing name, one for each name. -/
structure NameMap (α : Type) where
  entries : List (Text × α)
  deriving Repr

namespace NameMap

variable {α β : Type}

def empty : NameMap α := ⟨[]⟩

instance : EmptyCollection (NameMap α) := ⟨empty⟩

instance : Inhabited (NameMap α) := ⟨empty⟩

/-- The entries with `name` mapped to `value`; an entry of the same name gives way. -/
def insertEntry (name : Text) (value : α) : List (Text × α) → List (Text × α)
  | [] => [(name, value)]
  | (n, v) :: rest =>
    if name < n then (name, value) :: (n, v) :: rest
    else if name = n then (name, value) :: rest
    else (n, v) :: insertEntry name value rest

def insert (m : NameMap α) (name : Text) (value : α) : NameMap α :=
  ⟨insertEntry name value m.entries⟩

def erase (m : NameMap α) (name : Text) : NameMap α :=
  ⟨m.entries.filter fun e => e.1 != name⟩

def get? (m : NameMap α) (name : Text) : Option α :=
  m.entries.lookup name

def contains (m : NameMap α) (name : Text) : Bool :=
  (m.get? name).isSome

def names (m : NameMap α) : List Text :=
  m.entries.map (·.1)

def size (m : NameMap α) : Nat :=
  m.entries.length

/-- The map of a list of entries; of several entries of one name the last one counts. -/
def ofList (entries : List (Text × α)) : NameMap α :=
  entries.foldl (fun m e => m.insert e.1 e.2) ∅

def map (f : α → β) (m : NameMap α) : NameMap β :=
  ⟨m.entries.map fun e => (e.1, f e.2)⟩

def filter (p : Text → α → Bool) (m : NameMap α) : NameMap α :=
  ⟨m.entries.filter fun e => p e.1 e.2⟩

def overlay (m other : NameMap α) : NameMap α :=
  other.entries.foldl (fun m e => m.insert e.1 e.2) m

/-- What stands under a name among entries by increasing name, found by halving them. -/
def bisect (name : Text) (entries : List (Text × α)) : Option α :=
  match h : entries.drop (entries.length / 2) with
  | [] => none
  | (n, value) :: after =>
    if n < name then bisect name after
    else if n = name then some value
    else bisect name (entries.take (entries.length / 2))
termination_by entries.length
decreasing_by
  all_goals
    have := congrArg List.length h
    simp only [List.length_drop, List.length_cons, List.length_take] at this ⊢
    omega

end NameMap

theorem mem_of_lookup_eq_some {α : Type} {name : Text} {value : α} {entries : List (Text × α)}
    (h : entries.lookup name = some value) : (name, value) ∈ entries := by
  obtain ⟨before, after, rfl, -⟩ := List.lookup_eq_some_iff.mp h
  exact List.mem_append_right before List.mem_cons_self

theorem mem_second {α : Type} {x y : α} {rest : List α} : y ∈ x :: y :: rest :=
  List.mem_cons_of_mem x List.mem_cons_self

abbrev NameSet := NameMap Unit

namespace NameSet

def ofList (names : List Text) : NameSet :=
  NameMap.ofList (names.map fun n => (n, ()))

end NameSet

def insertAfter {α : Type} (entry : Text × α) : List (Text × α) → List (Text × α)
  | [] => [entry]
  | e :: rest => if entry.1 < e.1 then entry :: e :: rest else e :: insertAfter entry rest

/-- Entries by increasing name; entries of one name keep their order. -/
def sortByName {α : Type} (entries : List (Text × α)) : List (Text × α) :=
  entries.foldl (fun sorted e => insertAfter e sorted) []

def sortedDistinct (ts : List Text) : List Text :=
  (NameSet.ofList ts).names

end Gradual
