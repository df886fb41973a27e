import Gradual.Proofs.ConcurrentCheck
import Gradual.Proofs.Loading
import Gradual.Proofs.TreeForms

/-! Modules are checked against complete interfaces. Loading puts into a module's list what its tree names, the
levels are made from the lists, and a worker looks up what the tree names. So whatever a load statement of a
loaded program names is published before a module that has the statement is checked, and it stays as it is. -/

namespace Gradual

/-- Whether the module's own block has a load statement with a name as written. -/
def Module.HasLoad (t : Module) (raw : Text) : Prop := ∃ span symbols, Stmt.load span raw symbols ∈ t.body

theorem Stmt.loaded?_eq_some_iff {s : Stmt} {raw : Text} :
    s.loaded? = some raw ↔ raw ≠ "" ∧ ∃ span symbols, s = .load span raw symbols := by
  cases s with
  | load span module symbols =>
      rw [Stmt.loaded?]
      split
      · next hempty =>
        refine ⟨fun h => (nomatch h), ?_⟩
        rintro ⟨hne, _, _, ⟨⟩⟩
        exact absurd hempty hne
      · next hne =>
        constructor
        · rintro ⟨⟩
          exact ⟨hne, span, symbols, rfl⟩
        · rintro ⟨-, _, _, ⟨⟩⟩
          rfl
  | _ =>
      refine ⟨fun h => (nomatch h), ?_⟩
      rintro ⟨-, _, _, ⟨⟩⟩

theorem Module.mem_loads_iff {t : Module} {raw : Text} : raw ∈ t.loads ↔ raw ≠ "" ∧ t.HasLoad raw := by
  rw [loads, List.mem_eraseDups, List.mem_filterMap]
  constructor
  · rintro ⟨s, hs, hloaded⟩
    obtain ⟨hne, span, symbols, rfl⟩ := Stmt.loaded?_eq_some_iff.mp hloaded
    exact ⟨hne, span, symbols, hs⟩
  · rintro ⟨hne, span, symbols, hs⟩
    exact ⟨_, hs, Stmt.loaded?_eq_some_iff.mpr ⟨hne, span, symbols, rfl⟩⟩

theorem ModuleRoot.IsRead.listsLoads {m : SourceModule} (h : ModuleRoot.IsRead m) : m.ListsLoads := by
  obtain ⟨t, ht, hlist⟩ := h
  refine ⟨t, ht, fun id => ?_⟩
  rw [hlist, ModuleRoot.loadsOf, List.mem_eraseDups, List.mem_map]

namespace CheckRun

variable {σ : Type}

/-- Whether a module is checked right now, against these loads. -/
def Checks (s : CheckRun σ) (m : SourceModule) (loads : NameMap Interface) : Prop :=
  ∃ workers rest, s.phase = .within workers rest ∧ (m, Worker.checking loads) ∈ workers

/-- Whether an interface is the final one of a module: it is published, now and whatever happens from now on,
and also where one module is checked after the other. -/
def IsFinal (p : ProgramSetup σ) (jobs : Nat) (start : σ) (modules : List SourceModule) (s : CheckRun σ) (id : Text)
    (i : Interface) : Prop :=
  (∀ s', Steps p jobs s s' → s'.report.published.get? id = some i) ∧
    (p.uncancelled.check start modules).2.1.published.get? id = some i

/-- Whether loads have the final interface of the module that a written name means, if there is one. -/
def Finds (p : ProgramSetup σ) (jobs : Nat) (start : σ) (modules : List SourceModule) (s : CheckRun σ)
    (loads : NameMap Interface) (raw : Text) : Prop :=
  (∀ n ∈ modules, n.id = moduleName raw → ∃ i, loads.get? raw = some i ∧ s.IsFinal p jobs start modules n.id i) ∧
    ((∀ n ∈ modules, n.id ≠ moduleName raw) → loads.get? raw = none)

variable {p : ProgramSetup σ} {jobs : Nat} {start : σ} {modules : List SourceModule}
  {levels : List (List SourceModule)} {s : CheckRun σ} {m : SourceModule} {loads : NameMap Interface}

theorem isFinal_of_contains (hlevels : dependencyLevels modules = .ok levels)
    (h : Steps p jobs (.start start levels) s) {id : Text} (hid : s.report.published.contains id = true) :
    ∃ i, s.report.published.get? id = some i ∧ s.IsFinal p jobs start modules id i := by
  have hdistinct := (levelled_of_dependencyLevels hlevels).distinct
  obtain ⟨i, hi⟩ := Option.isSome_iff_exists.mp hid
  have hresult : (resultOf p start levels).2.1.published.get? id = some i :=
    (get?_published h hdistinct hid).symm.trans hi
  refine ⟨i, hi, fun s' hs' => ?_, ?_⟩
  · rw [get?_published (h.trans hs') hdistinct (hs'.contains hid), hresult]
  · rw [ProgramSetup.check, hlevels]
    exact hresult

theorem Checks.reached (h : Steps p jobs (.start start levels) s) (hm : s.Checks m loads) :
    loads = ProgramSetup.loadsOf m s.report.published ∧ ∃ before level after, levels = before ++ level :: after ∧
      m ∈ level ∧ ∀ id, s.report.published.contains id = true ↔ id ∈ before.flatten.map SourceModule.id := by
  obtain ⟨workers, rest, hphase, hm⟩ := hm
  have hfollows := follows_of_steps h
  rw [Follows, hphase] at hfollows
  obtain ⟨hreached, hsound⟩ := hfollows
  obtain ⟨before, hlevels, hpublished⟩ := hreached.published
  exact ⟨hsound _ hm, before, _, rest, hlevels, List.mem_map.mpr ⟨_, hm, rfl⟩, hpublished⟩

theorem Checks.finds (hlevels : dependencyLevels modules = .ok levels) (h : Steps p jobs (.start start levels) s)
    (hm : s.Checks m loads) (hlists : m.ListsLoads) {t : Module} (ht : m.tree = some t) {raw : Text}
    (hraw : raw ∈ t.loads) : s.Finds p jobs start modules loads raw := by
  have hlevelled := levelled_of_dependencyLevels hlevels
  have hlist : moduleName raw ∈ m.loads := by
    obtain ⟨t', ht', hlists⟩ := hlists
    cases ht.symm.trans ht'
    exact (hlists _).mpr ⟨raw, hraw, rfl⟩
  obtain ⟨rfl, before, level, after, hsplit, hlevel, hpublished⟩ := hm.reached h
  rw [Finds, ProgramSetup.get?_loadsOf ht, if_pos hraw]
  refine ⟨fun n hn hid => ?_, fun hnone => NameMap.not_contains_iff.mp fun hcontains => ?_⟩
  · have hbefore : n ∈ before.flatten := hlevelled.earlier before level after hsplit m hlevel n hn (hid ▸ hlist)
    rw [← hid]
    exact isFinal_of_contains hlevels h ((hpublished n.id).mpr (List.mem_map.mpr ⟨n, hbefore, rfl⟩))
  · obtain ⟨n, hn, hid⟩ := List.mem_map.mp ((hpublished _).mp hcontains)
    refine hnone n ((hlevelled.mem_iff n).mp ?_) hid
    rw [hsplit, List.flatten_append]
    exact List.mem_append_left _ hn

end CheckRun

/-- The modules of a loaded program can be put into levels, and whatever the order in which workers take turns,
a module is checked against the final interfaces of the modules that its load statements name, and against
nothing else. A statement without a name has no part in this. -/
theorem Program.IsLoaded.checks_final_interfaces {r : ModuleRoot} {d : Disk} {program : Program}
    (h : program.IsLoaded r d) : ∃ levels, dependencyLevels program.modules = .ok levels ∧
      ∀ {σ : Type} (p : ProgramSetup σ) (jobs : Nat) (start : σ) (s : CheckRun σ),
        CheckRun.Steps p jobs (.start start levels) s → ∀ m loads, s.Checks m loads →
          m ∈ program.modules ∧ ∃ t, m.tree = some t ∧
            (∀ raw, raw ≠ "" → t.HasLoad raw → s.Finds p jobs start program.modules loads raw) ∧
            ∀ raw, raw = "" ∨ ¬t.HasLoad raw → loads.get? raw = none := by
  obtain ⟨⟨levels, hlevels⟩, hread⟩ := h.levels
  refine ⟨levels, hlevels, fun p jobs start s hs m loads hm => ?_⟩
  obtain ⟨hloads, before, level, after, hsplit, hlevel, -⟩ := hm.reached hs
  have hmem : m ∈ program.modules := by
    rw [← (levelled_of_dependencyLevels hlevels).mem_iff, hsplit, List.flatten_append, List.flatten_cons]
    exact List.mem_append_right _ (List.mem_append_left _ hlevel)
  obtain ⟨t, ht, -⟩ := hread m hmem
  refine ⟨hmem, t, ht, fun raw hne hraw => ?_, fun raw hnot => ?_⟩
  · exact hm.finds hlevels hs (hread m hmem).listsLoads ht (Module.mem_loads_iff.mpr ⟨hne, hraw⟩)
  · rw [hloads, ProgramSetup.get?_loadsOf ht, if_neg fun hmemLoads => ?_]
    obtain ⟨hne, hraw⟩ := Module.mem_loads_iff.mp hmemLoads
    exact hnot.elim hne fun hno => hno hraw

/-! ### A load statement without a name -/

namespace Nameless

open ModuleRoot CheckRun

/-- A disk with the files of a module `.` and a module `a`. -/
def diskWith (here a : Text) : Disk := { files := ⟨[("/..json", here), ("/a.json", a)]⟩ }

def root : ModuleRoot := ⟨"/"⟩

theorem moduleNames_diskWith (here a : Text) : root.moduleNames (diskWith here a) = [".", "a"] := by
  have hnames : root.moduleNames (diskWith here a) = root.moduleNames (diskWith "" "") := rfl
  rw [hnames]
  decide +kernel

theorem fileOf_here : root.fileOf "." = "/..json" := rfl

theorem fileOf_a : root.fileOf "a" = "/a.json" := rfl

/-- The module `a` has a load statement without a name, which means `.`, and one with that name. -/
def disk : Disk := diskWith (loaderText []) (loaderText ["", "."])

def here (hash : Text) : SourceModule := { id := ".", path := "/..json", hash := hash, tree := some (loader []) }

def a (hash : Text) : SourceModule where
  id := "a"
  path := "/a.json"
  loads := ["."]
  hash := hash
  tree := some (loader ["", "."])

theorem loadsOf_loader : loadsOf (loader ["", "."]) = ["."] := by rfl

theorem readModule_here : root.readModule disk "." = .ok (some (here (digest (loaderText [])))) := by
  have hread : disk.read "/..json" = .ok (loaderText []) := rfl
  rw [readModule, fileOf_here, hread]
  dsimp only
  rw [parse_loaderText (List.forall_mem_nil _) rfl]
  rfl

theorem readModule_a : root.readModule disk "a" = .ok (some (a (digest (loaderText ["", "."])))) := by
  have hread : disk.read "/a.json" = .ok (loaderText ["", "."]) := rfl
  rw [readModule, fileOf_a, hread]
  dsimp only
  rw [parse_loaderText (by decide) rfl]
  dsimp only
  rw [loadsOf_loader]
  rfl

def modules : List SourceModule := [here (digest (loaderText [])), a (digest (loaderText ["", "."]))]

theorem load_here (fuel : Nat) :
    root.load disk (fuel + 1) [] {} "." = .ok ⟨[here (digest (loaderText []))], .empty⟩ := by
  rw [load, if_neg (by decide), if_neg (by decide), readModule_here]
  rfl

theorem load_a (fuel : Nat) :
    root.load disk (fuel + 2) [] ⟨[here (digest (loaderText []))], .empty⟩ "a" = .ok ⟨modules, .empty⟩ := by
  rw [load, if_neg (by exact Bool.false_ne_true), if_neg (by decide), readModule_a]
  rfl

theorem wholeProgram_disk : root.wholeProgram disk = .ok ⟨none, modules, []⟩ := by
  rw [wholeProgram, disk, moduleNames_diskWith, ← disk, loadEach, List.foldlM_cons, load_here]
  dsimp only [bind, Except.bind]
  rw [List.foldlM_cons, load_a]
  rfl

theorem dependencyLevels_modules (hash hash' : Text) :
    dependencyLevels [here hash, a hash'] = .ok [[here hash], [a hash']] := by
  have hdepths : Levels.depths [here hash, a hash'] = .ok ((NameMap.empty.insert "." 0).insert "a" 1) := rfl
  rw [dependencyLevels, hdepths]
  rfl

def setup : ProgramSetup Unit where
  rules := ⟨.standard, .lint⟩

theorem exists_checks (hash hash' : Text) : ∃ s, Steps setup 1 (.start () [[here hash], [a hash']]) s ∧
    s.Checks (a hash') (ProgramSetup.loadsOf (a hash') s.report.published) := by
  have hplace (m : SourceModule) : busy [(m, .waiting)] < 1 := Nat.zero_lt_one
  have hfirst : Steps setup 1 (.start () [[here hash], [a hash']])
      ⟨(), {}, false, .within [(here hash, .checking (ProgramSetup.loadsOf (here hash) .empty))] [[a hash']]⟩ :=
    .head .enter (steps_checking [] [] (hplace _))
  have hpublished := (hfirst.tail (.work [] [] .finish)).tail (.publish [_] rfl rfl)
  exact ⟨_, hpublished.trans (.head .enter (steps_checking [] [] (hplace _))), _, _, rfl,
    List.mem_singleton_self _⟩

theorem isLoaded_disk : Program.IsLoaded root disk ⟨none, modules, []⟩ := .whole wholeProgram_disk

theorem hasLoad {raw : Text} (h : raw ∈ ["", "."]) : (loader ["", "."]).HasLoad raw :=
  ⟨{}, [], List.mem_map.mpr ⟨raw, h, rfl⟩⟩

theorem moduleName_empty : moduleName "" = "." := rfl

end Nameless

/-- The module `a` of the disk is checked against the interface of the module that its second load statement
names, while its first one is left out. -/
theorem checks_final_interfaces_disk :
    Program.IsLoaded Nameless.root Nameless.disk ⟨none, Nameless.modules, []⟩ ∧
      ∃ levels s m loads, dependencyLevels Nameless.modules = .ok levels ∧
        CheckRun.Steps Nameless.setup 1 (.start () levels) s ∧ m.id = "a" ∧ s.Checks m loads ∧
        s.Finds Nameless.setup 1 () Nameless.modules loads "." ∧ loads.get? "" = none := by
  obtain ⟨levels, hlevels, h⟩ := Nameless.isLoaded_disk.checks_final_interfaces
  have heq := hlevels.symm.trans (Nameless.dependencyLevels_modules _ _)
  cases heq
  obtain ⟨s, hs, hm⟩ := Nameless.exists_checks _ _
  obtain ⟨-, t, ⟨⟩, hfinds, hnone⟩ := h Nameless.setup 1 () s hs _ _ hm
  exact ⟨Nameless.isLoaded_disk, _, s, _, _, hlevels, hs, rfl, hm,
    hfinds "." (by decide) (Nameless.hasLoad (by decide)), hnone "" (Or.inl rfl)⟩

/-- A load statement without a name means the module `.`, but does not find it. -/
theorem exists_nameless_load_without_interface :
    ∃ program levels s m t loads, Program.IsLoaded Nameless.root Nameless.disk program ∧
      dependencyLevels program.modules = .ok levels ∧ CheckRun.Steps Nameless.setup 1 (.start () levels) s ∧
      s.Checks m loads ∧ m.tree = some t ∧ t.HasLoad "" ∧ (∃ n ∈ program.modules, n.id = moduleName "") ∧
      ¬s.Finds Nameless.setup 1 () program.modules loads "" := by
  obtain ⟨s, hs, hm⟩ := Nameless.exists_checks _ _
  have hin : ∃ n ∈ Nameless.modules, n.id = moduleName "" :=
    ⟨_, List.mem_cons_self, Nameless.moduleName_empty.symm⟩
  refine ⟨_, _, s, _, _, _, Nameless.isLoaded_disk, Nameless.dependencyLevels_modules _ _, hs, hm, rfl,
    Nameless.hasLoad (by decide), hin, fun hfinds => ?_⟩
  obtain ⟨n, hn, hid⟩ := hin
  obtain ⟨i, hi, -⟩ := hfinds.1 n hn hid
  rw [ProgramSetup.get?_loadsOf rfl, if_neg fun hloads => (Module.mem_loads_iff.mp hloads).1 rfl] at hi
  cases hi

end Gradual
