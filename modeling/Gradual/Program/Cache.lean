import Gradual.Digest.Sha256
import Gradual.Interface
import Gradual.Json.Encode
import Gradual.Json.Reader
import Gradual.Json.Writer
import Gradual.Oracle.Rules

/-! What is kept of a checked module from one run to the next. An entry is good as long as its key is
right: the key covers the module's text, the mode, the sources of the oracle and the interfaces that the
module loads. -/

namespace Gradual

/-- What was learned about a module. A missing list of errors is kept apart from an empty one. -/
structure CacheEntry where
  key : Text := ""
  interface : Option Interface := none
  errors : Option (List TypingError) := none
  approximations : List Approximation := []

namespace CacheEntry

def toJson (e : CacheEntry) : Json :=
  .obj ([("key", .str e.key), ("interface", (e.interface.map Interface.toJson).getD .null),
      ("errors", (e.errors.map fun es => Json.arr (es.map TypingError.toJson)).getD .null)]
    ++ if e.approximations.isEmpty then [] else
      [("approximations", .arr (e.approximations.map Approximation.toJson))])

def readInterface : Json → Report.Draft (Option Interface)
  | .null => return none
  | j => return some (← .take ((Interface.ofJson j).mapError .exports))

def blankApproximation : Approximation := ⟨"", "", {}⟩

structure Raw where
  key : Text := ""
  interface : Option Interface := none
  errors : Option (Json.Items TypingError) := none
  approximations : Option (Json.Items Approximation) := none

def Raw.toEntry (r : Raw) : CacheEntry :=
  ⟨r.key, r.interface, r.errors.map (·.shown), (r.approximations.getD {}).shown⟩

def read : Json → Report.Draft Raw :=
  Json.readMembers (fun name j r => do
    match name with
    | "KEY" => return { r with key := ← Json.readText r.key j }
    | "INTERFACE" => return { r with interface := ← readInterface j }
    | "ERRORS" => return { r with errors := ← Json.readItems Report.blankError Report.readError r.errors j }
    | "APPROXIMATIONS" =>
      return { r with approximations :=
        ← Json.readItems blankApproximation Report.readApproximation r.approximations j }
    | _ => return r) {}

def ofJson (j : Json) : Except ReportError CacheEntry :=
  ((read j).finish .shape).map Raw.toEntry

def fileText (e : CacheEntry) : Text :=
  Json.renderIndented .html 0 e.toJson ++ "\n"

def ofFileText (text : Text) : Option CacheEntry :=
  (Json.decode .relaxed ofJson text).toOption

def answers (e : CacheEntry) (key : Text) : Bool :=
  e.key == key && e.interface.isSome

end CacheEntry

/-- What the key of an entry is the digest of. -/
def cacheKeyText (hash : Text) (mode : Mode) (oracleKey : Text) (loads : NameMap Interface) : Text :=
  "source=" ++ hash ++ "\nmode=" ++ mode.name ++ "\noracle=" ++ oracleKey ++ "\n"
    ++ String.join (loads.entries.map fun (name, i) =>
      "load=" ++ name ++ "\n" ++ Json.render .html i.toJson ++ "\n")

def cacheKey (hash : Text) (mode : Mode) (oracleKey : Text) (loads : NameMap Interface) : Text :=
  Sha256.hex (cacheKeyText hash mode oracleKey loads)

def Interface.holding : Json.Holding := .self "*typechecker.Interface"

/-- The key of an entry, if the interfaces that it covers can be written. -/
def writtenKey (hash : Text) (mode : Mode) (oracleKey : Text) (loads : NameMap Interface) : Except Text Text :=
  match loads.entries.findSome? fun (name, i) =>
      (i.toJson.fault? Interface.holding).map fun e =>
        "typechecker: hash interface of " ++ name ++ ": " ++ e with
  | some message => .error message
  | none => .ok (cacheKey hash mode oracleKey loads)

/-- A store of entries by module, in states of type `σ`. Storing may fail, and may leave something behind
even then. -/
structure Cache (σ : Type) where
  get : σ → Text → Text → Option CacheEntry
  put : σ → Text → CacheEntry → Except Text Unit × σ

namespace Cache

def memory : Cache (NameMap CacheEntry) where
  get entries module key := (entries.get? module).filter fun e => e.key == key
  put entries module entry := (.ok (), entries.insert module entry)

end Cache

end Gradual
