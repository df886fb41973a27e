import Gradual.Proofs.EntryFiles
import Gradual.Proofs.JsonLayouts
import Gradual.Proofs.Loading
import Gradual.Proofs.SearchPaths
import Gradual.Proofs.TreeForms

/-! Loading is an exact search. It succeeds if every module that is needed has a file that holds a tree or is not
found, and no module that is needed leads back to itself through loads. Then the modules of the program are those that
are needed and have a file, each once and after what it loads, and the unresolved names are those without a file. A
name whose path goes through a file, or leads to a directory, is not one without a file: loading fails there. -/

namespace Gradual

open Relation

theorem Text.endsWith_iff {t final : Text} : Text.endsWith t final = true ↔ ∃ start : Text, t = start ++ final := by
  rw [endsWith, List.isSuffixOf_iff_suffix]
  constructor
  · rintro ⟨start, hstart⟩
    exact ⟨String.ofList start, String.toList_inj.mp (by rw [String.toList_append, String.toList_ofList, hstart])⟩
  · rintro ⟨start, rfl⟩
    rw [String.toList_append]
    exact List.suffix_append _ _

theorem Text.dropEnd_append (start final : Text) : Text.dropEnd (start ++ final) final = start := by
  rw [dropEnd, if_pos (endsWith_iff.mpr ⟨start, rfl⟩), String.length_append, Nat.add_sub_cancel, String.toList_append,
    ← String.length_toList, List.take_left, String.ofList_toList]

namespace ModuleRoot

/-- The module has a file. -/
def HasFile (r : ModuleRoot) (d : Disk) (id : Text) : Prop := ∃ text, d.read (r.fileOf id) = .ok text

/-- The file of the module holds a tree. -/
def HoldsTree (r : ModuleRoot) (d : Disk) (id : Text) (t : Module) : Prop :=
  ∃ text, d.read (r.fileOf id) = .ok text ∧ Module.parse text = .ok t

/-- The file of the module is not found. -/
def IsAbsent (r : ModuleRoot) (d : Disk) (id : Text) : Prop :=
  ∃ e, d.read (r.fileOf id) = .error e ∧ e.cause = .notFound

/-- Nothing stands in the way of the module: its file holds a tree, or there is none. -/
def IsUsable (r : ModuleRoot) (d : Disk) (id : Text) : Prop := (∃ t, r.HoldsTree d id t) ∨ r.IsAbsent d id

/-- One module loads another one, by whatever name its tree has for it. -/
def Loads (r : ModuleRoot) (d : Disk) (id dep : Text) : Prop :=
  ∃ t, r.HoldsTree d id t ∧ ∃ written ∈ t.loads, moduleName written = dep

/-- A module is reached from one to start with. -/
def Needs (r : ModuleRoot) (d : Disk) (starts : Text → Prop) (id : Text) : Prop :=
  ∃ start, starts start ∧ ReflTransGen (r.Loads d) start id

/-- The modules that are needed can be loaded. -/
structure IsLoadable (r : ModuleRoot) (d : Disk) (starts : Text → Prop) : Prop where
  usable : ∀ id, r.Needs d starts id → r.IsUsable d id
  acyclic : ∀ id, r.Needs d starts id → ¬TransGen (r.Loads d) id id

/-- A program as it follows from the files: the modules that are needed and have one, each as it is read and after
those that it loads, and the names without a file in increasing order. -/
structure IsDependencyFirst (r : ModuleRoot) (d : Disk) (starts : Text → Prop) (p : Program) : Prop where
  distinct : (p.modules.map SourceModule.id).Nodup
  mem_iff : ∀ id, id ∈ p.modules.map SourceModule.id ↔ r.Needs d starts id ∧ r.HasFile d id
  read : ∀ m ∈ p.modules, r.readModule d m.id = .ok (some m)
  first : ∀ before m after, p.modules = before ++ m :: after →
    ∀ dep, r.Loads d m.id dep → r.HasFile d dep → dep ∈ before.map SourceModule.id
  sorted : p.unresolved.Pairwise (· < ·)
  unresolved_iff : ∀ id, id ∈ p.unresolved ↔ r.Needs d starts id ∧ ¬r.HasFile d id

variable {r : ModuleRoot} {d : Disk} {starts : Text → Prop} {id dep : Text}

theorem Needs.start (h : starts id) : r.Needs d starts id := ⟨id, h, .refl⟩

theorem Needs.loads (h : r.Needs d starts id) (hdep : r.Loads d id dep) : r.Needs d starts dep := by
  obtain ⟨start, hstart, hway⟩ := h
  exact ⟨start, hstart, hway.tail hdep⟩

theorem Needs.of_closed {S : Text → Prop} (h : r.Needs d starts id) (hstarts : ∀ id, starts id → S id)
    (hloads : ∀ id dep, S id → r.Loads d id dep → S dep) : S id := by
  obtain ⟨start, hstart, hway⟩ := h
  induction hway with
  | refl => exact hstarts start hstart
  | tail _ hdep ih => exact hloads _ _ ih hdep

/-! ### Reading -/

theorem not_hasFile_of_read {e : DiskError} (h : d.read (r.fileOf id) = .error e) : ¬r.HasFile d id := by
  rintro ⟨text, htext⟩
  cases h.symm.trans htext

theorem IsAbsent.not_hasFile (h : r.IsAbsent d id) : ¬r.HasFile d id := by
  obtain ⟨e, he, -⟩ := h
  exact not_hasFile_of_read he

theorem HoldsTree.hasFile {t : Module} (h : r.HoldsTree d id t) : r.HasFile d id := by
  obtain ⟨text, hread, -⟩ := h
  exact ⟨text, hread⟩

theorem HoldsTree.unique {t t' : Module} (h : r.HoldsTree d id t) (h' : r.HoldsTree d id t') : t = t' := by
  obtain ⟨text, hread, hparse⟩ := h
  obtain ⟨text', hread', hparse'⟩ := h'
  cases hread.symm.trans hread'
  cases hparse.symm.trans hparse'
  rfl

theorem HoldsTree.loads_iff {t : Module} (h : r.HoldsTree d id t) :
    r.Loads d id dep ↔ dep ∈ t.loads.map moduleName := by
  rw [List.mem_map]
  constructor
  · rintro ⟨t', ht', hwritten⟩
    cases h.unique ht'
    exact hwritten
  · exact fun hwritten => ⟨t, h, hwritten⟩

theorem not_loads_of_not_hasFile (h : ¬r.HasFile d id) : ¬r.Loads d id dep := by
  rintro ⟨t, ht, -⟩
  exact h ht.hasFile

theorem readModule_spec (r : ModuleRoot) (d : Disk) (id : Text) :
    (r.readModule d id = .ok none ∧ r.IsAbsent d id) ∨
    (∃ m t, r.readModule d id = .ok (some m) ∧ r.HoldsTree d id t ∧ m.id = id ∧ m.loads = loadsOf t) ∨
    (∃ e, r.readModule d id = .error e ∧ ¬r.IsUsable d id) := by
  simp only [readModule]
  cases hread : d.read (r.fileOf id) with
  | error e =>
      by_cases hcause : e.cause = .notFound
      · exact Or.inl ⟨if_pos hcause, e, hread, hcause⟩
      · refine Or.inr (Or.inr ⟨_, if_neg hcause, ?_⟩)
        rintro (⟨t, text, htext, -⟩ | ⟨e', he', hcause'⟩)
        · cases hread.symm.trans htext
        · cases hread.symm.trans he'
          exact hcause hcause'
  | ok text =>
      dsimp only
      cases hparse : Module.parse text with
      | ok t => exact Or.inr (Or.inl ⟨_, t, rfl, ⟨text, hread, hparse⟩, rfl, rfl⟩)
      | error e =>
          refine Or.inr (Or.inr ⟨_, rfl, ?_⟩)
          rintro (⟨t, text', htext, hparse'⟩ | habsent)
          · cases hread.symm.trans htext
            cases hparse.symm.trans hparse'
          · exact habsent.not_hasFile ⟨text, hread⟩

theorem isAbsent_of_readModule (h : r.readModule d id = .ok none) : r.IsAbsent d id := by
  rcases readModule_spec r d id with ⟨-, habsent⟩ | ⟨m, t, hread, -⟩ | ⟨e, hread, -⟩
  · exact habsent
  · cases h.symm.trans hread
  · cases h.symm.trans hread

theorem not_isUsable_of_readModule {e : LoadError} (h : r.readModule d id = .error e) : ¬r.IsUsable d id := by
  rcases readModule_spec r d id with ⟨hread, -⟩ | ⟨m, t, hread, -⟩ | ⟨e, -, hnot⟩
  · cases h.symm.trans hread
  · cases h.symm.trans hread
  · exact hnot

theorem holdsTree_of_readModule {m : SourceModule} (h : r.readModule d id = .ok (some m)) :
    ∃ t, r.HoldsTree d id t ∧ m.id = id ∧ m.loads = loadsOf t := by
  rcases readModule_spec r d id with ⟨hread, -⟩ | ⟨m, t, hread, htree⟩ | ⟨e, hread, -⟩
  · cases h.symm.trans hread
  · cases h.symm.trans hread
    exact ⟨t, htree⟩
  · cases h.symm.trans hread

theorem mem_loads_iff {m : SourceModule} (h : r.readModule d id = .ok (some m)) : dep ∈ m.loads ↔ r.Loads d id dep := by
  obtain ⟨t, ht, -, hloads⟩ := holdsTree_of_readModule h
  rw [hloads, loadsOf, List.mem_eraseDups, ht.loads_iff]

/-! ### What is loaded -/

namespace Loaded

/-- What is known of modules that were loaded from names that are asked for: each is read from its file, none leads
back to itself, and no other names are done. -/
structure IsExact (r : ModuleRoot) (d : Disk) (asked : Text → Prop) (l : Loaded) : Prop extends IsSound l where
  modules : ∀ m ∈ l.modules, r.readModule d m.id = .ok (some m)
  missing : ∀ id, l.missing.contains id = true → r.IsAbsent d id
  asked : ∀ id, l.isDone id = true → asked id
  grounded : ∀ id, l.isDone id = true → Acc (fun dep id => r.Loads d id dep) id
  sorted : l.missing.IsSorted

variable {asked : Text → Prop} {l : Loaded}

theorem isExact_empty : IsExact r d asked {} where
  toIsSound := isSound_empty
  modules _ h := absurd h List.not_mem_nil
  missing _ h := absurd h Bool.false_ne_true
  asked _ h := absurd h Bool.false_ne_true
  grounded _ h := absurd h Bool.false_ne_true
  sorted := NameMap.isSorted_empty

theorem IsExact.addMissing (h : l.IsExact r d asked) (hasked : asked id) (hid : ¬l.isDone id = true)
    (habsent : r.IsAbsent d id) : IsExact r d asked { l with missing := l.missing.insert id () } where
  toIsSound := h.toIsSound.addMissing hid
  modules := h.modules
  missing other hother := by
    rcases (NameMap.contains_insert l.missing id () other).mp hother with rfl | hother
    · exact habsent
    · exact h.missing other hother
  asked other hother := by
    rcases (isDone_addMissing l id other).mp hother with rfl | hother
    · exact hasked
    · exact h.asked other hother
  grounded other hother := by
    rcases (isDone_addMissing l id other).mp hother with rfl | hother
    · exact .intro other fun dep hdep => absurd hdep (not_loads_of_not_hasFile habsent.not_hasFile)
    · exact h.grounded other hother
  sorted := h.sorted.insert id ()

theorem IsExact.addModule {m : SourceModule} (h : l.IsExact r d asked) (hasked : asked m.id)
    (hm : ¬l.isDone m.id = true) (hread : r.readModule d m.id = .ok (some m))
    (hloads : ∀ dep ∈ m.loads, l.isDone dep = true) :
    IsExact r d asked { l with modules := l.modules ++ [m] } where
  toIsSound := h.toIsSound.addModule hm (isRead_of_readModule hread).2 hloads
  modules := List.forall_mem_append.mpr ⟨h.modules, List.forall_mem_singleton.mpr hread⟩
  missing := h.missing
  asked other hother := by
    rcases (isDone_addModule l m other).mp hother with rfl | hother
    · exact hasked
    · exact h.asked other hother
  grounded other hother := by
    rcases (isDone_addModule l m other).mp hother with rfl | hother
    · exact .intro _ fun dep hdep => h.grounded dep (hloads dep ((mem_loads_iff hread).mpr hdep))
    · exact h.grounded other hother
  sorted := h.sorted

theorem kept_isExact (r : ModuleRoot) (d : Disk) (starts : Text → Prop) :
    Kept r d (r.Needs d starts) (IsExact r d (r.Needs d starts)) where
  asks _ hneeds hread _ hdep := hneeds.loads ((mem_loads_iff hread).mp hdep)
  missing _ _ h hasked hid hread := h.addMissing hasked hid (isAbsent_of_readModule hread)
  module _ _ h hasked hm hread hloads := h.addModule hasked hm hread hloads

theorem IsExact.readModule_of_mem (h : l.IsExact r d asked) (hid : id ∈ l.modules.map SourceModule.id) :
    ∃ m ∈ l.modules, m.id = id ∧ r.readModule d id = .ok (some m) := by
  obtain ⟨m, hm, rfl⟩ := List.mem_map.mp hid
  exact ⟨m, hm, rfl, h.modules m hm⟩

theorem IsExact.hasFile_of_mem (h : l.IsExact r d asked) (hid : id ∈ l.modules.map SourceModule.id) :
    r.HasFile d id := by
  obtain ⟨m, -, -, hread⟩ := h.readModule_of_mem hid
  obtain ⟨t, ht, -⟩ := holdsTree_of_readModule hread
  exact ht.hasFile

theorem IsExact.isDone_of_loads (h : l.IsExact r d asked) (hid : l.isDone id = true) (hdep : r.Loads d id dep) :
    l.isDone dep = true := by
  rcases isDone_iff.mp hid with hmem | hmissing
  · obtain ⟨m, hm, rfl, hread⟩ := h.readModule_of_mem hmem
    obtain ⟨before, after, hsplit⟩ := List.append_of_mem hm
    refine isDone_iff.mpr ((h.first before m after hsplit dep ((mem_loads_iff hread).mpr hdep)).imp_left fun hin => ?_)
    rw [hsplit, List.map_append]
    exact List.mem_append_left _ hin
  · exact absurd hdep (not_loads_of_not_hasFile (h.missing id hmissing).not_hasFile)

theorem IsExact.isDone_iff_needs (h : l.IsExact r d (r.Needs d starts))
    (hstarts : ∀ id, starts id → l.isDone id = true) : l.isDone id = true ↔ r.Needs d starts id := by
  exact ⟨h.asked id, fun hneeds => hneeds.of_closed hstarts fun _ _ => h.isDone_of_loads⟩

theorem IsExact.isLoadable (h : l.IsExact r d (r.Needs d starts)) (hstarts : ∀ id, starts id → l.isDone id = true) :
    r.IsLoadable d starts where
  usable id hid := by
    rcases isDone_iff.mp ((h.isDone_iff_needs hstarts).mpr hid) with hmem | hmissing
    · obtain ⟨m, -, -, hread⟩ := h.readModule_of_mem hmem
      obtain ⟨t, ht, -⟩ := holdsTree_of_readModule hread
      exact Or.inl ⟨t, ht⟩
    · exact Or.inr (h.missing id hmissing)
  acyclic id hid := not_transGen_self_of_acc (h.grounded id ((h.isDone_iff_needs hstarts).mpr hid))

theorem IsExact.isDependencyFirst (h : l.IsExact r d (r.Needs d starts))
    (hstarts : ∀ id, starts id → l.isDone id = true) (entry : Option SourceModule) :
    r.IsDependencyFirst d starts (programOf entry l) where
  distinct := h.ids
  mem_iff id := by
    rw [← h.isDone_iff_needs hstarts, isDone_iff]
    refine ⟨fun hid => ⟨Or.inl hid, h.hasFile_of_mem hid⟩, ?_⟩
    rintro ⟨hid, hfile⟩
    exact hid.resolve_right fun hmissing => (h.missing id hmissing).not_hasFile hfile
  read := h.modules
  first before m after hsplit dep hdep hfile := by
    have hm : m ∈ l.modules := by
      rw [show l.modules = before ++ m :: after from hsplit]
      exact List.mem_append_right before List.mem_cons_self
    have hload := (mem_loads_iff (h.modules m hm)).mpr hdep
    exact (h.first before m after hsplit dep hload).resolve_right fun hmissing =>
      (h.missing dep hmissing).not_hasFile hfile
  sorted := List.pairwise_map.mpr h.sorted
  unresolved_iff id := by
    rw [← h.isDone_iff_needs hstarts, isDone_iff]
    show id ∈ l.missing.names ↔ _
    rw [NameMap.mem_names]
    refine ⟨fun hid => ⟨Or.inr hid, (h.missing id hid).not_hasFile⟩, ?_⟩
    rintro ⟨hid, hnone⟩
    exact hid.resolve_left fun hmem => hnone (h.hasFile_of_mem hmem)

end Loaded

/-! ### Failures -/

/-- The names that the files of a disk load. -/
def loadedNames (d : Disk) : List Text :=
  d.files.entries.flatMap fun e =>
    match Module.parse e.2 with
    | .ok m => m.loads.map moduleName
    | .error _ => []

theorem length_loadedNames (d : Disk) : (loadedNames d).length = loadCount d := by
  rw [loadedNames, loadCount, List.length_flatMap, List.sum_eq_foldl]
  refine congrArg (List.foldl (· + ·) 0) (List.map_congr_left fun e _ => ?_)
  obtain ⟨name, text⟩ := e
  dsimp only
  cases Module.parse text with
  | ok m => exact List.length_map moduleName
  | error _ => rfl

theorem mem_loadedNames (h : r.Loads d id dep) : dep ∈ loadedNames d := by
  obtain ⟨t, ⟨text, hread, hparse⟩, written, hwritten, rfl⟩ := h
  have hall : d.files.All fun name contents => (name, contents) ∈ d.files.entries := fun _ he => he
  refine List.mem_flatMap.mpr ⟨(_, text), hall.get? (Disk.get?_of_read hread), ?_⟩
  dsimp only
  rw [hparse]
  exact List.mem_map_of_mem hwritten

/-- Loading fails only at a module that is needed and is on a cycle or not usable. -/
theorem failsWith_load (names : List Text) {pending : List Text} {fuel : Nat}
    (hnames : ∀ id dep, r.Loads d id dep → dep ∈ names) (h : SearchPath (r.Loads d) names fuel pending id)
    (hname : id ∈ names) (hneeds : r.Needs d starts id) (l : Loaded) :
    FailsWith (r.load d fuel pending l id) fun _ => ¬r.IsLoadable d starts := by
  induction fuel generalizing pending l id with
  | zero => exact absurd rfl h.fuel_ne_zero
  | succ fuel ih =>
      rw [load]
      split
      · exact .ok _
      · split
        · next hpending =>
          exact .error fun hloadable => hloadable.acyclic id hneeds (h.leads id (List.contains_iff_mem.mp hpending))
        · next hpending =>
          have hpending : id ∉ pending := fun hmem => hpending (List.contains_iff_mem.mpr hmem)
          split
          · next hread =>
            exact .error fun hloadable => not_isUsable_of_readModule hread (hloadable.usable id hneeds)
          · exact .ok _
          · next m hread =>
            refine (FailsWith.foldlM (fun dep hdep l => ?_) l).bind fun _ => .ok _
            have hload : r.Loads d id dep := (mem_loads_iff hread).mp hdep
            split
            · next hself => exact .error fun hloadable => hloadable.acyclic id hneeds (.single (hself ▸ hload))
            · exact ih (h.down hpending hname hload) (hnames id dep hload) (hneeds.loads hload) l

theorem failsWith_loadEach {ids : List Text} (hids : ∀ id ∈ ids, starts id) :
    FailsWith (r.loadEach d ids) fun _ => ¬r.IsLoadable d starts := by
  refine FailsWith.foldlM (fun id hid l => ?_) _
  -- Every name on the way is the one to start with or is loaded by a file.
  refine failsWith_load (id :: loadedNames d) (fun _ _ h => List.mem_cons_of_mem id (mem_loadedNames h)) ?_
    List.mem_cons_self (.start (hids id hid)) l
  refine .start _ ?_ id
  rw [List.length_cons, length_loadedNames]
  omega

theorem isExact_of_loadEach {ids : List Text} (hids : ∀ id, id ∈ ids ↔ starts id) {l : Loaded}
    (h : r.loadEach d ids = .ok l) :
    l.IsExact r d (r.Needs d starts) ∧ ∀ id, starts id → l.isDone id = true := by
  obtain ⟨hexact, hdone⟩ := ensures_loadEach (Loaded.kept_isExact r d starts) Loaded.isExact_empty
    (fun id hid => .start ((hids id).mp hid)) l h
  exact ⟨hexact, fun id hid => hdone id ((hids id).mpr hid)⟩

theorem exists_loadEach_iff {ids : List Text} (hids : ∀ id, id ∈ ids ↔ starts id) :
    (∃ l, r.loadEach d ids = .ok l) ↔ r.IsLoadable d starts := by
  constructor
  · rintro ⟨l, hl⟩
    obtain ⟨hexact, hstarts⟩ := isExact_of_loadEach hids hl
    exact hexact.isLoadable hstarts
  · intro hloadable
    cases hl : r.loadEach d ids with
    | ok l => exact ⟨l, rfl⟩
    | error e => exact absurd hloadable (failsWith_loadEach (fun id hid => (hids id).mp hid) e hl)

/-! ### Programs -/

/-- A module that was not done is the last one when its loading is. -/
theorem ensures_load_last {l : Loaded} (hid : ¬l.isDone id = true) {m : SourceModule}
    (hread : r.readModule d id = .ok (some m)) (fuel : Nat) (pending : List Text) :
    Ensures (r.load d fuel pending l id) fun l' => l'.modules.getLast? = some m := by
  cases fuel with
  | zero => exact .error _
  | succ fuel =>
      rw [load, if_neg hid, hread]
      split
      · exact .error _
      · exact Ensures.bind (P := fun _ => True) (fun _ _ => trivial) fun l' _ => .pure List.getLast?_concat

theorem program_eq_ok_iff {entry : Text} {p : Program} : r.program d entry = .ok p ↔ entry ≠ "" ∧
    ∃ l m, r.loadEach d [moduleName entry] = .ok l ∧ l.modules.find? (·.id == moduleName entry) = some m ∧
      p = programOf (some m) l := by
  rw [program]
  split
  · next hempty =>
    constructor
    · rintro ⟨⟩
    · exact fun h => absurd hempty h.1
  · next hne =>
    dsimp only
    constructor
    · intro h
      cases hl : r.loadEach d [moduleName entry] with
      | error e =>
          rw [hl] at h
          cases h
      | ok l =>
          rw [hl] at h
          dsimp only [bind, Except.bind] at h
          split at h
          · next m hm =>
            cases h
            exact ⟨hne, l, m, rfl, hm, rfl⟩
          · cases h
    · rintro ⟨-, l, m, hl, hm, rfl⟩
      rw [hl]
      dsimp only [bind, Except.bind]
      rw [hm]
      rfl

theorem mem_moduleNames : id ∈ r.moduleNames d ↔ id ++ ending ∈ d.filesBelow r.path := by
  rw [moduleNames, mem_sortedDistinct, List.mem_map]
  constructor
  · rintro ⟨p, hp, rfl⟩
    obtain ⟨hp, hends⟩ := List.mem_filter.mp hp
    obtain ⟨start, rfl⟩ := Text.endsWith_iff.mp hends
    rwa [Text.dropEnd_append]
  · intro hp
    exact ⟨id ++ ending, List.mem_filter.mpr ⟨hp, Text.endsWith_iff.mpr ⟨id, rfl⟩⟩, Text.dropEnd_append id ending⟩

theorem exists_program_iff (r : ModuleRoot) (d : Disk) (entry : Text) : (∃ p, r.program d entry = .ok p) ↔
    entry ≠ "" ∧ r.HasFile d (moduleName entry) ∧ r.IsLoadable d (· = moduleName entry) := by
  have hids : ∀ id, id ∈ [moduleName entry] ↔ id = moduleName entry := fun id => List.mem_singleton
  constructor
  · rintro ⟨p, hp⟩
    obtain ⟨hne, l, m, hl, hm, -⟩ := program_eq_ok_iff.mp hp
    obtain ⟨hexact, -⟩ := isExact_of_loadEach hids hl
    have hmem : moduleName entry ∈ l.modules.map SourceModule.id := List.mem_map.mpr ⟨m, mem_of_find? hm⟩
    exact ⟨hne, hexact.hasFile_of_mem hmem, (exists_loadEach_iff hids).mp ⟨l, hl⟩⟩
  · rintro ⟨hne, hfile, hloadable⟩
    obtain ⟨l, hl⟩ := (exists_loadEach_iff hids).mpr hloadable
    obtain ⟨hexact, hstarts⟩ := isExact_of_loadEach hids hl
    have hmem : moduleName entry ∈ l.modules.map SourceModule.id :=
      ((hexact.isDependencyFirst hstarts none).mem_iff _).mpr ⟨.start rfl, hfile⟩
    obtain ⟨n, hn, hid⟩ := List.mem_map.mp hmem
    have hfind : (l.modules.find? fun m : SourceModule => m.id == moduleName entry).isSome = true :=
      List.find?_isSome.mpr ⟨n, hn, beq_iff_eq.mpr hid⟩
    obtain ⟨m, hm⟩ := Option.isSome_iff_exists.mp hfind
    exact ⟨_, program_eq_ok_iff.mpr ⟨hne, l, m, hl, hm, rfl⟩⟩

theorem isDependencyFirst_of_program {entry : Text} {p : Program} (h : r.program d entry = .ok p) :
    r.IsDependencyFirst d (· = moduleName entry) p ∧
      ∃ m, p.entry = some m ∧ m.id = moduleName entry ∧ p.modules.getLast? = some m := by
  obtain ⟨-, l, m, hl, hm, rfl⟩ := program_eq_ok_iff.mp h
  have hids : ∀ id, id ∈ [moduleName entry] ↔ id = moduleName entry := fun id => List.mem_singleton
  obtain ⟨hexact, hstarts⟩ := isExact_of_loadEach hids hl
  obtain ⟨hmem, hid⟩ := mem_of_find? hm
  have hread : r.readModule d (moduleName entry) = .ok (some m) := hid ▸ hexact.modules m hmem
  refine ⟨hexact.isDependencyFirst hstarts _, m, rfl, hid, ?_⟩
  have hload : r.load d (loadCount d + 2) [] {} (moduleName entry) = .ok l := by
    simpa only [loadEach, List.foldlM_cons, List.foldlM_nil, bind_pure] using hl
  have hfresh : ¬Loaded.isDone {} (moduleName entry) = true := Bool.false_ne_true
  exact ensures_load_last hfresh hread _ [] l hload

/-- Loading is an exact search that puts what a module loads before the module. -/
theorem loads_dependencies_first (r : ModuleRoot) (d : Disk) :
    (∀ entry, ((∃ p, r.program d entry = .ok p) ↔
        entry ≠ "" ∧ r.HasFile d (moduleName entry) ∧ r.IsLoadable d (· = moduleName entry)) ∧
      ∀ p, r.program d entry = .ok p → r.IsDependencyFirst d (· = moduleName entry) p ∧
        ∃ m, p.entry = some m ∧ m.id = moduleName entry ∧ p.modules.getLast? = some m) ∧
    ((∃ p, r.wholeProgram d = .ok p) ↔ r.IsLoadable d fun id => id ++ ending ∈ d.filesBelow r.path) ∧
    ∀ p, r.wholeProgram d = .ok p →
      r.IsDependencyFirst d (fun id => id ++ ending ∈ d.filesBelow r.path) p ∧ p.entry = none := by
  refine ⟨fun entry => ⟨exists_program_iff r d entry, fun p => isDependencyFirst_of_program⟩, ?_⟩
  have hids : ∀ id, id ∈ r.moduleNames d ↔ id ++ ending ∈ d.filesBelow r.path := fun id => mem_moduleNames
  rw [← exists_loadEach_iff hids, wholeProgram]
  cases hl : r.loadEach d (r.moduleNames d) with
  | error e =>
      refine ⟨⟨?_, ?_⟩, ?_⟩
      · rintro ⟨p, ⟨⟩⟩
      · rintro ⟨l, ⟨⟩⟩
      · rintro p ⟨⟩
  | ok l =>
      obtain ⟨hexact, hstarts⟩ := isExact_of_loadEach hids hl
      refine ⟨⟨fun _ => ⟨l, rfl⟩, fun _ => ⟨programOf none l, rfl⟩⟩, ?_⟩
      rintro p ⟨⟩
      exact ⟨hexact.isDependencyFirst hstarts none, rfl⟩

/-! ### A module that loads one without a file -/

section OnlyLoad

variable {start name : Text} (hloads : ∀ dep, r.Loads d start dep ↔ dep = name) (hnone : ¬r.HasFile d name)

include hloads hnone

theorem needs_only_load_iff : r.Needs d (· = start) id ↔ id = start ∨ id = name := by
  constructor
  · intro h
    refine h.of_closed (S := fun id => id = start ∨ id = name) (fun _ hid => Or.inl hid) fun id dep hid hdep => ?_
    rcases hid with rfl | rfl
    · exact Or.inr ((hloads dep).mp hdep)
    · exact absurd hdep (not_loads_of_not_hasFile hnone)
  · have hstart : r.Needs d (· = start) start := .start rfl
    rintro (rfl | rfl)
    · exact hstart
    · exact hstart.loads ((hloads _).mpr rfl)

theorem not_transGen_only_load (h : r.Needs d (· = start) id) : ¬TransGen (r.Loads d) id id := by
  have hname : Acc (fun dep id => r.Loads d id dep) name :=
    .intro name fun dep hdep => absurd hdep (not_loads_of_not_hasFile hnone)
  apply not_transGen_self_of_acc
  rcases (needs_only_load_iff hloads hnone).mp h with rfl | rfl
  · exact .intro _ fun dep hdep => (hloads dep).mp hdep ▸ hname
  · exact hname

end OnlyLoad

namespace OneLoader

def root : ModuleRoot := ⟨"/"⟩

/-- A disk with a module `a` that loads one other. -/
def disk (raw : Text) : Disk := { files := ⟨[("/a.json", loaderText [raw])]⟩ }

theorem holdsTree_a {raw : Text} (hraw : raw.isUtf8 = true) : root.HoldsTree (disk raw) "a" (loader [raw]) :=
  ⟨_, rfl, parse_loaderText (List.forall_mem_singleton.mpr hraw) rfl⟩

theorem loads_a_iff {raw name : Text} (hraw : raw.isUtf8 = true) (hname : (loader [raw]).loads.map moduleName = [name])
    (dep : Text) : root.Loads (disk raw) "a" dep ↔ dep = name := by
  rw [(holdsTree_a hraw).loads_iff, hname, List.mem_singleton]

theorem isAbsent_gone : root.IsAbsent (disk "gone") "gone" := ⟨⟨"open", "/gone.json", .notFound⟩, rfl, rfl⟩

/-- The path goes through the file of `a`. -/
theorem read_below : (disk "a.json/b").read (root.fileOf "a.json/b") =
    .error ⟨"open", "/a.json/b.json", .notDirectory⟩ := rfl

theorem loads_gone_iff (dep : Text) : root.Loads (disk "gone") "a" dep ↔ dep = "gone" :=
  loads_a_iff (by decide) rfl dep

theorem loads_below_iff (dep : Text) : root.Loads (disk "a.json/b") "a" dep ↔ dep = "a.json/b" :=
  loads_a_iff (by decide) rfl dep

theorem isLoadable_gone : root.IsLoadable (disk "gone") (· = "a") where
  usable id hid := by
    rcases (needs_only_load_iff loads_gone_iff isAbsent_gone.not_hasFile).mp hid with rfl | rfl
    · exact Or.inl ⟨_, holdsTree_a (by decide)⟩
    · exact Or.inr isAbsent_gone
  acyclic _ hid := not_transGen_only_load loads_gone_iff isAbsent_gone.not_hasFile hid

end OneLoader

open OneLoader in
/-- The module is loaded, and the name that it loads is unresolved. -/
theorem loads_dependencies_first_gone : ∃ p, root.program (disk "gone") "a" = .ok p ∧
    (∃ m, p.entry = some m ∧ m.id = "a" ∧ p.modules.getLast? = some m) ∧
    (∀ id, id ∈ p.modules.map SourceModule.id ↔ id = "a") ∧ ∀ id, id ∈ p.unresolved ↔ id = "gone" := by
  have hfile : root.HasFile (disk "gone") "a" := (holdsTree_a (by decide)).hasFile
  have hnone : ¬root.HasFile (disk "gone") "gone" := isAbsent_gone.not_hasFile
  have hneeds (id : Text) : root.Needs (disk "gone") (· = "a") id ↔ id = "a" ∨ id = "gone" :=
    needs_only_load_iff loads_gone_iff hnone
  obtain ⟨hprogram, hfirst⟩ := (loads_dependencies_first root (disk "gone")).1 "a"
  obtain ⟨p, hp⟩ := hprogram.mpr ⟨by decide, hfile, isLoadable_gone⟩
  obtain ⟨hp', hentry⟩ := hfirst p hp
  refine ⟨p, hp, hentry, fun id => ?_, fun id => ?_⟩
  · refine (hp'.mem_iff id).trans ((and_congr_left' (hneeds id)).trans ⟨?_, ?_⟩)
    · rintro ⟨rfl | rfl, hid⟩
      · rfl
      · exact absurd hid hnone
    · rintro rfl
      exact ⟨Or.inl rfl, hfile⟩
  · refine (hp'.unresolved_iff id).trans ((and_congr_left' (hneeds id)).trans ⟨?_, ?_⟩)
    · rintro ⟨rfl | rfl, hid⟩
      · exact absurd hfile hid
      · rfl
    · rintro rfl
      exact ⟨Or.inr rfl, hnone⟩

open OneLoader in
/-- The file of the only other module is not there, and none leads back to itself, but loading fails: the path to the
file goes through another one, which is not the same as a file that is not found. -/
theorem exists_program_fails_without_cycle : ∃ (r : ModuleRoot) (d : Disk) (entry : Text), entry ≠ "" ∧
    r.HasFile d (moduleName entry) ∧
    (∀ id, r.Needs d (· = moduleName entry) id → r.HasFile d id → ∃ t, r.HoldsTree d id t) ∧
    (∀ id, r.Needs d (· = moduleName entry) id → ¬TransGen (r.Loads d) id id) ∧ ∀ p, r.program d entry ≠ .ok p := by
  have hnone := not_hasFile_of_read read_below
  have htree : root.HoldsTree (disk "a.json/b") "a" (loader ["a.json/b"]) := holdsTree_a (by decide)
  refine ⟨root, disk "a.json/b", "a", by decide, htree.hasFile, fun id hid hfile => ?_, fun id hid =>
    not_transGen_only_load loads_below_iff hnone hid, fun p hp => ?_⟩
  · rcases (needs_only_load_iff loads_below_iff hnone).mp hid with rfl | rfl
    · exact ⟨_, htree⟩
    · exact absurd hfile hnone
  · obtain ⟨-, -, hloadable⟩ := (exists_program_iff root _ "a").mp ⟨p, hp⟩
    have hneeds := (needs_only_load_iff loads_below_iff hnone).mpr (Or.inr rfl)
    rcases hloadable.usable _ hneeds with ⟨t, ht⟩ | ⟨e, he, hcause⟩
    · exact hnone ht.hasFile
    · cases read_below.symm.trans he
      cases hcause

end ModuleRoot

end Gradual
