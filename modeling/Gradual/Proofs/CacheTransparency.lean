import Gradual.Program.Check
import Gradual.Proofs.CheckModule
import Gradual.Proofs.EntryFiles
import Gradual.Proofs.EntryText
import Gradual.Proofs.Oracles
import Mathlib.Data.List.Forall2
import Mathlib.Data.Set.Defs

/-! A store of entries changes nothing that a check tells. A run asks about its modules one level after the
other, and what it stores are the entries of what it asked. Such entries survive their files, apart from the hosts
of types, and as long as keys tell apart what is asked, the entry that a later run finds under a key is the one it
would have made itself, whichever module it was made for and whatever became of the other files meanwhile. -/

namespace Gradual

/-! ### Outcomes that tell the same -/

/-- One of two is the other or, if `hosted` is set, what is left of it without hosts. -/
def UpToHosts (hosted : Bool) {α : Type} (plain : α → α) (a a' : α) : Prop := a = a' ∨ hosted = true ∧ a = plain a'

/-- Two outcomes for a module that tell the same, or the same up to hosts, be they from the cache or not. -/
structure ModuleOutcome.Agrees (hosted : Bool) (o o' : ModuleOutcome) : Prop where
  module : o.module = o'.module
  interface : UpToHosts hosted Interface.plain o.report.interface o'.report.interface
  errors : UpToHosts hosted (List.map TypingError.plain) o.report.errors o'.report.errors
  approximations : o.report.approximations = o'.report.approximations

def ModuleDiagnostic.plain (d : ModuleDiagnostic) : ModuleDiagnostic := { d with error := d.error.plain }

namespace ProgramReport

/-- Two reports on a program that tell the same of every module, or the same up to hosts. -/
structure Agrees (hosted : Bool) (r r' : ProgramReport) : Prop where
  published : ∀ name, Option.Rel (UpToHosts hosted Interface.plain) (r.published.get? name) (r'.published.get? name)
  diagnostics : List.Forall₂ (UpToHosts hosted ModuleDiagnostic.plain) r.diagnostics r'.diagnostics
  outcomes : List.Forall₂ (ModuleOutcome.Agrees hosted) r.outcomes r'.outcomes

variable {hosted : Bool} {r r' : ProgramReport} {o o' : ModuleOutcome}

theorem agrees_diagnosticsOf (h : o.Agrees hosted o') :
    List.Forall₂ (UpToHosts hosted ModuleDiagnostic.plain) (diagnosticsOf o) (diagnosticsOf o') := by
  rw [diagnosticsOf, diagnosticsOf, h.module]
  rcases h.errors with herrors | ⟨hhosted, herrors⟩
  · rw [herrors]
    exact List.forall₂_same.mpr fun _ _ => .inl rfl
  · rw [herrors, List.map_map, List.forall₂_map_left_iff, List.forall₂_map_right_iff]
    exact List.forall₂_same.mpr fun _ _ => .inr ⟨hhosted, rfl⟩

theorem Agrees.add (h : r.Agrees hosted r') (ho : o.Agrees hosted o') : (r.add o).Agrees hosted (r'.add o') where
  published name := by
    rw [ProgramReport.add, ProgramReport.add, ho.module, NameMap.get?_insert, NameMap.get?_insert]
    split
    · exact .some ho.interface
    · exact h.published name
  diagnostics := List.rel_append h.diagnostics (agrees_diagnosticsOf ho)
  outcomes := List.rel_append h.outcomes (.cons ho .nil)

/-- A report whose published interfaces can be stored. -/
def IsSpoken (hosted : Bool) (r : ProgramReport) : Prop := r.published.All fun _ i => i.Within (.spoken hosted)

theorem isSpoken_empty : IsSpoken hosted {} := NameMap.all_empty

end ProgramReport

/-! ### What a run asks -/

/-- A question about a module: what checking it tells by these rules, when it loads these interfaces. -/
structure Inquiry where
  rules : Rules
  oracleKey : Text
  module : SourceModule
  loads : NameMap Interface

namespace Inquiry

def key (q : Inquiry) : Text := cacheKey q.module.hash q.rules.mode q.oracleKey q.loads

def outcome (q : Inquiry) : ModuleOutcome :=
  ⟨q.module, (q.module.tree.map fun t => t.check q.rules q.loads).getD {}, false⟩

def entry (q : Inquiry) : CacheEntry := ProgramSetup.entryOf q.outcome q.key

/-- The outcome that an entry of the store comes to, whichever module it was made for. -/
def found (q : Inquiry) : ModuleOutcome := ⟨q.module, ProgramSetup.reportOf q.entry.plain, true⟩

/-- What is assumed of all that is ever asked. Keys are injective in what they are made of, the digest of a
module's text determines its tree, and the oracle's key determines the oracle. Names are UTF-8, those in
modules and, asked about such, those in the answers of oracles; these may have hosts if `hosted` is set. -/
structure Faithful (hosted : Bool) (asked : Set Inquiry) : Prop where
  keys : ∀ q ∈ asked, ∀ q' ∈ asked, q.key = q'.key → q.module.hash = q'.module.hash ∧
    q.rules.mode = q'.rules.mode ∧ q.oracleKey = q'.oracleKey ∧ q.loads = q'.loads
  trees : ∀ q ∈ asked, ∀ q' ∈ asked, q.module.hash = q'.module.hash → q.module.tree = q'.module.tree
  oracles : ∀ q ∈ asked, ∀ q' ∈ asked, q.oracleKey = q'.oracleKey → q.rules.oracle = q'.rules.oracle
  names : ∀ q ∈ asked, ∀ m, q.module.tree = some m → ∀ name ∈ m.names, name.isUtf8 = true
  answers : ∀ q ∈ asked, q.rules.oracle.Within (.spoken hosted)

variable {hosted : Bool} {asked : Set Inquiry} {q q' : Inquiry}

theorem Faithful.entry_eq (h : Faithful hosted asked) (hq : q ∈ asked) (hq' : q' ∈ asked) (hkey : q.key = q'.key) :
    q.entry = q'.entry := by
  obtain ⟨hhash, hmode, horacleKey, hloads⟩ := h.keys q hq q' hq' hkey
  have htree := h.trees q hq q' hq' hhash
  have horacle := h.oracles q hq q' hq' horacleKey
  have hrules : q.rules = q'.rules := by
    obtain ⟨⟨_, _⟩, _, _, _⟩ := q
    cases hmode
    cases horacle
    rfl
  rw [entry, entry, hkey, outcome, outcome, htree, hrules, hloads]
  rfl

theorem Faithful.within_report (h : Faithful hosted asked) (hq : q ∈ asked)
    (hloads : q.loads.All fun _ i => i.Within (.spoken hosted)) : q.outcome.report.Within (.spoken hosted) := by
  rw [outcome]
  cases htree : q.module.tree with
  | none => exact ⟨⟨NameMap.isSorted_empty, NameMap.all_empty⟩, fun _ he => (nomatch he), fun _ ha => (nomatch ha)⟩
  | some m =>
      exact Module.within_check Vocabulary.closed_spoken (h.answers q hq).guarded_spoken hloads
        (h.names q hq m htree)

theorem isUtf8_key (q : Inquiry) : q.key.isUtf8 = true := by
  refine Text.isUtf8_of_isAscii (List.all_eq_true.mpr fun c hc => decide_eq_true ?_)
  rw [key, cacheKey, Sha256.hex, String.toList_ofList] at hc
  obtain ⟨word, -, hc⟩ := List.mem_flatMap.mp hc
  exact Text.toNat_lt_of_mem_hex hc

theorem within_entry (h : q.outcome.report.Within (.spoken hosted)) : q.entry.Within (.spoken hosted) where
  key := q.isUtf8_key
  interface := by
    rintro i ⟨⟩
    exact h.interface
  errors := by
    intro es hes
    rw [entry, ProgramSetup.entryOf] at hes
    split at hes
    · cases hes
    · cases hes
      exact h.errors
  approximations := h.approximations

end Inquiry

/-! ### What keys do not tell -/

/-- Keys tell interfaces by their JSON form, which tells no hosts. -/
theorem cacheKey_eq_of_toJson {loads loads' : NameMap Interface}
    (h : loads.map Interface.toJson = loads'.map Interface.toJson) (hash : Text) (mode : Mode) (oracleKey : Text) :
    cacheKey hash mode oracleKey loads = cacheKey hash mode oracleKey loads' := by
  have hlines : ∀ loads : NameMap Interface, (loads.entries.map fun e =>
      "load=" ++ e.1 ++ "\n" ++ Json.render .html e.2.toJson ++ "\n") =
      (loads.map Interface.toJson).entries.map fun e => "load=" ++ e.1 ++ "\n" ++ Json.render .html e.2 ++ "\n" := by
    intro loads
    rw [NameMap.map, List.map_map]
    rfl
  rw [cacheKey, cacheKey, cacheKeyText, cacheKeyText]
  show Sha256.hex (_ ++ String.join (loads.entries.map fun e =>
    "load=" ++ e.1 ++ "\n" ++ Json.render .html e.2.toJson ++ "\n")) = _
  rw [hlines, h, ← hlines]

namespace ProgramSetup

variable {σ : Type} (p : ProgramSetup σ)

def uncached : ProgramSetup σ := { p with cache := none }

def storedIn (p : ProgramSetup Disk) (s : EntryStore) : ProgramSetup Disk := { p with cache := some s.cache }

/-- The question that a run asks about a module when these interfaces are published. -/
def inquiry (published : NameMap Interface) (m : SourceModule) : Inquiry :=
  ⟨p.rules, p.oracleKey, m, loadsOf m published⟩

/-- The outcomes for a level, under their keys. -/
def outcomesOf (state : σ) (published : NameMap Interface) (level : List SourceModule) :
    List (Except Text Text × ModuleOutcome) :=
  level.map fun m => (p.keyOf m published, p.checkModule state published m)

/-- What is asked level after level, as far as the check gets. -/
def inquiries (state : σ) (r : ProgramReport) (poll : Nat) : List (List SourceModule) → List Inquiry
  | [] => []
  | level :: rest =>
    if p.isCancelled poll || p.isCancelled (poll + 1) then []
    else level.map (p.inquiry r.published) ++
      match p.publish state r (p.outcomesOf state r.published level) with
      | (.ok (), r, state) => inquiries state r (poll + 2) rest
      | (.error _, _, _) => []

/-- What is asked by a check of modules. -/
def asks (state : σ) (modules : List SourceModule) : List Inquiry :=
  match dependencyLevels modules with
  | .ok levels => p.inquiries state {} 0 levels
  | .error _ => []

variable {p}

theorem all_loadsOf {published : NameMap Interface} {v : Vocabulary}
    (h : published.All fun _ i => i.Within v) (m : SourceModule) :
    (loadsOf m published).All fun _ i => i.Within v := by
  refine NameMap.all_ofList fun e he => ?_
  obtain ⟨raw, -, he⟩ := List.mem_filterMap.mp he
  obtain ⟨i, hi, rfl⟩ := Option.map_eq_some_iff.mp he
  exact h.get? hi

theorem eq_key_of_keyOf {cache : Cache σ} (hp : p.cache = some cache) {m : SourceModule}
    {published : NameMap Interface} {key : Text} (h : p.keyOf m published = .ok key) :
    key = (p.inquiry published m).key := by
  rw [keyOf, hp] at h
  dsimp only at h
  rw [writtenKey] at h
  split at h
  · cases h
  · cases h
    rfl

theorem report_publish {state : σ} {r : ProgramReport} {os : List (Except Text Text × ModuleOutcome)}
    (h : (p.publish state r os).1 = .ok ()) :
    (p.publish state r os).2.1 = (os.map Prod.snd).foldl ProgramReport.add r := by
  induction os generalizing state r with
  | nil => rfl
  | cons o os ih =>
      obtain ⟨_ | key, o⟩ := o
      · cases h
      · rw [publish] at h ⊢
        split at h
        · exact ih h
        · cases h

theorem publish_uncached (state : σ) (r : ProgramReport) (published : NameMap Interface) (level : List SourceModule) :
    p.uncached.publish state r (p.uncached.outcomesOf state published level) =
      (.ok (), (level.map fun m => (p.inquiry published m).outcome).foldl ProgramReport.add r, state) := by
  induction level generalizing r with
  | nil => rfl
  | cons m level ih => exact ih _

theorem checkLevels_uncached (state : σ) (r : ProgramReport) {poll : Nat}
    (hgo : ¬(p.isCancelled poll || p.isCancelled (poll + 1)) = true) (level : List SourceModule)
    (rest : List (List SourceModule)) :
    p.uncached.checkLevels state r poll (level :: rest) = p.uncached.checkLevels state
      ((level.map fun m => (p.inquiry r.published m).outcome).foldl ProgramReport.add r) (poll + 2) rest := by
  have hgo' : ¬(p.uncached.isCancelled poll || p.uncached.isCancelled (poll + 1)) = true := hgo
  rw [checkLevels, if_neg hgo', ← outcomesOf]
  dsimp only
  rw [publish_uncached]

end ProgramSetup

/-! ### What a store holds -/

namespace EntryStore

/-- A store each of whose files holds the entry of something that was asked. -/
def Sound (s : EntryStore) (hosted : Bool) (asked : Set Inquiry) (d : Disk) : Prop :=
  ∀ module text, s.textAt d module = some text →
    ∃ q ∈ asked, q.entry.Within (.spoken hosted) ∧ text = q.entry.fileText

variable {s : EntryStore} {hosted : Bool} {asked : Set Inquiry} {d : Disk} {p : ProgramSetup Disk}

theorem Sound.exists_of_get {module key : Text} {e : CacheEntry} (h : s.Sound hosted asked d)
    (hget : s.get d module key = some e) : ∃ q ∈ asked, q.key = key ∧ e = q.entry.plain := by
  obtain ⟨text, htext, hread, hkey⟩ := exists_textAt_of_get hget
  obtain ⟨q, hq, hwithin, rfl⟩ := h module text htext
  have heq := CacheEntry.eq_plain_of_ofFileText hwithin hread
  rw [heq] at hkey
  exact ⟨q, hq, hkey, heq⟩

theorem Sound.put {q : Inquiry} (h : s.Sound hosted asked d) (hq : q ∈ asked)
    (hwithin : q.entry.Within (.spoken hosted)) (module : Text) : s.Sound hosted asked (s.put d module q.entry).2 := by
  intro m text htext
  rcases textAt_put htext with rfl | hbefore
  · exact ⟨q, hq, hwithin, rfl⟩
  · exact h m text hbefore

/-- The outcome for a module is that of checking it, or what is found of it, even in an entry that was stored for
another module in the same file. -/
theorem Sound.checkModule_cases (hasked : Inquiry.Faithful hosted asked) (hp : p.cache = some s.cache)
    (h : s.Sound hosted asked d) {published : NameMap Interface} {m : SourceModule}
    (hm : p.inquiry published m ∈ asked) :
    p.checkModule d published m = (p.inquiry published m).outcome ∨
      p.checkModule d published m = (p.inquiry published m).found := by
  cases hkey : p.keyOf m published with
  | error message =>
      rw [ProgramSetup.checkModule, hp, hkey]
      exact .inl rfl
  | ok key =>
      rw [ProgramSetup.checkModule, hp, hkey]
      split
      · next e hget =>
        obtain ⟨q, hq, hqkey, rfl⟩ := h.exists_of_get hget
        have hentry := hasked.entry_eq hq hm (hqkey.trans (ProgramSetup.eq_key_of_keyOf hp hkey))
        rw [hentry]
        exact .inr rfl
      · exact .inl rfl

/-- An outcome under its key, if it has one, that is what something asked comes to. -/
def Known (hosted : Bool) (asked : Set Inquiry) (o : Except Text Text × ModuleOutcome) : Prop :=
  ∃ q ∈ asked, q.outcome.report.Within (.spoken hosted) ∧ (∀ key, o.1 = .ok key → key = q.key) ∧
    (o.2 = q.outcome ∨ o.2 = q.found)

theorem Sound.known_outcomesOf (hasked : Inquiry.Faithful hosted asked) (hp : p.cache = some s.cache)
    (h : s.Sound hosted asked d) {r : ProgramReport} (hr : r.IsSpoken hosted) {level : List SourceModule}
    (hlevel : ∀ m ∈ level, p.inquiry r.published m ∈ asked) :
    ∀ o ∈ p.outcomesOf d r.published level, Known hosted asked o := by
  intro o ho
  obtain ⟨m, hm, rfl⟩ := List.mem_map.mp ho
  exact ⟨_, hlevel m hm, hasked.within_report (hlevel m hm) (ProgramSetup.all_loadsOf hr m),
    fun _ => ProgramSetup.eq_key_of_keyOf hp, h.checkModule_cases hasked hp (hlevel m hm)⟩

theorem Known.within_interface {o : Except Text Text × ModuleOutcome} (h : Known hosted asked o) :
    o.2.report.interface.Within (.spoken hosted) := by
  obtain ⟨q, -, hq, -, ho | ho⟩ := h
  · rw [ho]
    exact hq.interface
  · rw [ho]
    exact hq.interface.plain.spoken

theorem isSpoken_publish {os : List (Except Text Text × ModuleOutcome)} (h : ∀ o ∈ os, Known hosted asked o)
    {r : ProgramReport} (hr : r.IsSpoken hosted) (d : Disk) : (p.publish d r os).2.1.IsSpoken hosted := by
  induction os generalizing d r with
  | nil => exact hr
  | cons o os ih =>
      obtain ⟨ho, hos⟩ := List.forall_mem_cons.mp h
      have hadd : (r.add o.2).IsSpoken hosted := hr.insert ho.within_interface
      obtain ⟨_ | key, o⟩ := o
      · exact hr
      · rw [ProgramSetup.publish]
        split
        · exact ih hos hadd _
        · exact hadd

theorem Sound.store {key : Text} {o : ModuleOutcome} (hp : p.cache = some s.cache) (h : s.Sound hosted asked d)
    (ho : Known hosted asked (.ok key, o)) : s.Sound hosted asked (p.store d key o).2 := by
  obtain ⟨q, hq, hreport, hkey, ho⟩ := ho
  obtain rfl := hkey key rfl
  rw [ProgramSetup.store, hp]
  dsimp only
  split
  · exact h
  · next hfresh =>
    rcases ho with rfl | rfl
    · exact h.put hq (Inquiry.within_entry hreport) q.module.id
    · exact absurd rfl hfresh

theorem Sound.publish {os : List (Except Text Text × ModuleOutcome)} (hp : p.cache = some s.cache)
    (h : s.Sound hosted asked d) (hos : ∀ o ∈ os, Known hosted asked o) (r : ProgramReport) :
    s.Sound hosted asked (p.publish d r os).2.2 := by
  induction os generalizing d r with
  | nil => exact h
  | cons o os ih =>
      obtain ⟨ho, hrest⟩ := List.forall_mem_cons.mp hos
      obtain ⟨_ | key, o⟩ := o
      · exact h
      · have hstored := h.store hp ho
        rw [ProgramSetup.publish]
        split
        · next d' heq =>
          rw [heq] at hstored
          exact ih hstored hrest _
        · next d' heq =>
          rw [heq] at hstored
          exact hstored

theorem Sound.publish_outcomesOf (hasked : Inquiry.Faithful hosted asked) (hp : p.cache = some s.cache)
    (h : s.Sound hosted asked d) {r : ProgramReport} (hr : r.IsSpoken hosted) {level : List SourceModule}
    (hlevel : ∀ m ∈ level, p.inquiry r.published m ∈ asked) :
    s.Sound hosted asked (p.publish d r (p.outcomesOf d r.published level)).2.2 ∧
      (p.publish d r (p.outcomesOf d r.published level)).2.1.IsSpoken hosted :=
  have hknown := h.known_outcomesOf hasked hp hr hlevel
  ⟨h.publish hp hknown r, isSpoken_publish hknown hr d⟩

theorem Sound.checkLevels (hasked : Inquiry.Faithful hosted asked) (hp : p.cache = some s.cache)
    (h : s.Sound hosted asked d) {r : ProgramReport} (hr : r.IsSpoken hosted) {poll : Nat}
    {levels : List (List SourceModule)}
    (hlevels : ∀ q ∈ p.inquiries d r poll levels, q ∈ asked) :
    s.Sound hosted asked (p.checkLevels d r poll levels).2.2 ∧ (p.checkLevels d r poll levels).2.1.IsSpoken hosted := by
  induction levels generalizing d r poll with
  | nil => exact ⟨h, hr⟩
  | cons level rest ih =>
      rw [ProgramSetup.inquiries] at hlevels
      rw [ProgramSetup.checkLevels, ← ProgramSetup.outcomesOf]
      split
      · exact ⟨h, hr⟩
      · next hgo =>
        rw [if_neg hgo, List.forall_mem_append, List.forall_mem_map] at hlevels
        obtain ⟨hlevel, hrest⟩ := hlevels
        have hkept := h.publish_outcomesOf hasked hp hr hlevel
        dsimp only
        split
        · next heq =>
          rw [heq] at hkept hrest
          exact ih hkept.1 hkept.2 hrest
        · next heq =>
          rw [heq] at hkept
          exact hkept

/-- The disks on which a store can be found: at first it holds nothing, then come runs of any kind that end
in any way, provided that they ask only what is in `asked`, and between them whatever puts nothing into it. -/
inductive Reached (s : EntryStore) (asked : Set Inquiry) : Disk → Prop
  | fresh {d : Disk} : (∀ module, s.textAt d module = none) → Reached s asked d
  | change {d d' : Disk} : Reached s asked d →
      (∀ module text, s.textAt d' module = some text → s.textAt d module = some text) → Reached s asked d'
  | run {d : Disk} (p : ProgramSetup Disk) (modules : List SourceModule) : Reached s asked d →
      (∀ q ∈ (p.storedIn s).asks d modules, q ∈ asked) → Reached s asked ((p.storedIn s).check d modules).2.2

theorem Sound.check (hasked : Inquiry.Faithful hosted asked) (hp : p.cache = some s.cache) (h : s.Sound hosted asked d)
    {modules : List SourceModule} (hmodules : ∀ q ∈ p.asks d modules, q ∈ asked) :
    s.Sound hosted asked (p.check d modules).2.2 ∧ (p.check d modules).2.1.IsSpoken hosted := by
  rw [ProgramSetup.asks] at hmodules
  rw [ProgramSetup.check]
  cases hlevels : dependencyLevels modules with
  | error e => exact ⟨h, ProgramReport.isSpoken_empty⟩
  | ok levels =>
      rw [hlevels] at hmodules
      exact h.checkLevels hasked hp ProgramReport.isSpoken_empty hmodules

end EntryStore

namespace ProgramSetup

open EntryStore

namespace Shared

/-- A custom type whose host knows the attribute `n`. -/
def box : Ty := .only (.custom "Box" (some (.having "n" .int)))

/-- The module `b = make(); x = b.n; x + "s"`, under some name. -/
def module (id : Text) : SourceModule where
  id := id
  hash := "h"
  tree := some ⟨{}, [.assign {} "=" (.ident ⟨{}, "b"⟩) .hole (.call {} (.ident ⟨{}, "make"⟩) []),
    .assign {} "=" (.ident ⟨{}, "x"⟩) .hole (.member {} (.ident ⟨{}, "b"⟩) ⟨{}, "n"⟩),
    .expr (.binary {} "+" (.ident ⟨{}, "x"⟩) (.str {} "s"))]⟩

/-- A function `make` that gives a box. -/
def docs : Docs where
  functions := ⟨[("make", ⟨[], box⟩)]⟩

def setup : ProgramSetup Disk where
  rules := ⟨.chain (List.map Docs.oracle [docs] ++ [.standard]), .lint⟩
  oracleKey := "k"

def store : EntryStore := ⟨"/cache"⟩

/-- The disk after the module was checked under the name `a/b`. -/
def disk : Disk := ((setup.storedIn store).check {} [module "a/b"]).2.2

/-- What is asked about the module under any name. -/
def asked : Set Inquiry := { q | ∃ id, q = setup.inquiry .empty (module id) }

/-- The disk with the directory of the store and one file in it. -/
def diskWith (text : Text) : Disk where
  files := ⟨[("/cache/a__b.json", text)]⟩
  directories := ⟨[("/cache", ())]⟩

end Shared

/-- The module `y = b.n`, where `b` is loaded from another module that gives it a type. -/
def Shared.reader (t : Ty) : Inquiry where
  rules := setup.rules
  oracleKey := "k"
  module := {
    id := "c"
    tree := some ⟨{}, [.load {} "a" [.symbol {} none "b"],
      .assign {} "=" (.ident ⟨{}, "y"⟩) .hole (.member {} (.ident ⟨{}, "b"⟩) ⟨{}, "n"⟩)]⟩ }
  loads := ⟨[("a", ⟨⟨[("b", t)]⟩⟩)]⟩

/-- Keys do not tell hosts, though outcomes do: where interfaces with hosts are loaded, keys are injective only as long
as the same interfaces are not loaded without their hosts. -/
theorem keys_overlook_hosts :
    (Shared.reader Shared.box).key = (Shared.reader Shared.box.plain).key ∧
      ((Shared.reader Shared.box).outcome.report.interface.get? "y").map Ty.text = some "int" ∧
      ((Shared.reader Shared.box.plain).outcome.report.interface.get? "y").map Ty.text = some "Any" :=
  ⟨cacheKey_eq_of_toJson rfl "" .lint "k", by decide +kernel, by decide +kernel⟩

end ProgramSetup

end Gradual
