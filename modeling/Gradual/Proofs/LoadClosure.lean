import Gradual.Proofs.ConcurrentCheck

/-! What is told of a module depends only on the modules that it reaches by loading. Two programs may list their
modules in any order, have other modules besides, and be checked by runs that take turns differently: as long as
they have the same trees under the names that a module reaches, they publish the same interfaces under those
names. -/

namespace Gradual

/-- The names that modules reach from a name by loading. -/
inductive Reaches (modules : List SourceModule) (id : Text) : Text → Prop
  | refl : Reaches modules id id
  | load {n : SourceModule} {dep : Text} (h : Reaches modules id n.id) (hn : n ∈ modules) (hdep : dep ∈ n.loads) :
    Reaches modules id dep

/-- Whether modules have a tree under a name. -/
def HasTree (modules : List SourceModule) (id : Text) (t : Module) : Prop :=
  ∃ n ∈ modules, n.id = id ∧ n.tree = some t

/-- Modules that have the same trees under the names that a name reaches. -/
def AgreeFrom (id : Text) (modules modules' : List SourceModule) : Prop :=
  ∀ dep, Reaches modules id dep → ∀ t, HasTree modules dep t ↔ HasTree modules' dep t

namespace ProgramReport

open ProgramSetup

variable {σ τ : Type} {p : ProgramSetup σ} {q : ProgramSetup τ} {r r' : ProgramReport}
  {modules modules' : List SourceModule} {levels levels' : List (List SourceModule)} {id : Text}

theorem report_outcome_eq (hrules : p.rules = q.rules) {m m' : SourceModule} {t : Module} (ht : m.tree = some t)
    (ht' : m'.tree = some t)
    (h : ∀ raw ∈ t.loads, r.published.get? (moduleName raw) = r'.published.get? (moduleName raw)) :
    (p.inquiry r.published m).outcome.report = (q.inquiry r'.published m').outcome.report := by
  have hloads : loadsOf m r.published = loadsOf m' r'.published := by
    refine loadsOf_congr (ht.trans ht'.symm) fun t' ht'' => ?_
    cases ht.symm.trans ht''
    exact h
  rw [Inquiry.outcome, Inquiry.outcome, inquiry, inquiry, hloads, ht, ht', hrules]

theorem IsSettled.get?_eq_none (h : r.IsSettled p levels) (hlevels : Levelled modules levels) {dep : Text}
    (hnone : ∀ t, ¬HasTree modules dep t) : r.published.get? dep = none := by
  refine h.absent dep fun hdep => ?_
  obtain ⟨n, hn, hid⟩ := List.mem_map.mp hdep
  have hmem := (hlevels.mem_iff n).mp hn
  obtain ⟨t, ht⟩ := Option.isSome_iff_exists.mp (hlevels.trees n hmem)
  exact hnone t ⟨n, hmem, hid, ht⟩

theorem IsSettled.get?_eq_of_absent (h : r.IsSettled p levels) (h' : r'.IsSettled q levels')
    (hlevels : Levelled modules levels) (hlevels' : Levelled modules' levels') (hagree : AgreeFrom id modules modules')
    {dep : Text} (hdep : Reaches modules id dep) (hnone : ¬∃ t, HasTree modules dep t) :
    r.published.get? dep = r'.published.get? dep := by
  rw [h.get?_eq_none hlevels fun t ht => hnone ⟨t, ht⟩,
    h'.get?_eq_none hlevels' fun t ht => hnone ⟨t, (hagree dep hdep t).mpr ht⟩]

theorem IsSettled.get?_eq_of_loads (h : r.IsSettled p levels) (h' : r'.IsSettled q levels') (hrules : p.rules = q.rules)
    (hlevels : Levelled modules levels) (hlevels' : Levelled modules' levels') (hagree : AgreeFrom id modules modules')
    {n : SourceModule} (hn : n ∈ modules) (hlists : n.ListsLoads) (hreach : Reaches modules id n.id)
    (hloads : ∀ dep ∈ n.loads, r.published.get? dep = r'.published.get? dep) :
    r.published.get? n.id = r'.published.get? n.id := by
  obtain ⟨t, ht, hlists⟩ := hlists
  obtain ⟨n', hn', hid, ht'⟩ := (hagree n.id hreach t).mp ⟨n, hn, rfl, ht⟩
  have hfound : ∀ raw ∈ t.loads, r.published.get? (moduleName raw) = r'.published.get? (moduleName raw) :=
    fun raw hraw => hloads _ ((hlists _).mpr ⟨raw, hraw, rfl⟩)
  obtain ⟨o, -, -, ho, hpublished, -⟩ := h.exists_outcome hlevels.distinct ((hlevels.mem_iff n).mpr hn)
  obtain ⟨o', -, -, ho', hpublished', -⟩ := h'.exists_outcome hlevels'.distinct ((hlevels'.mem_iff n').mpr hn')
  rw [hid] at hpublished'
  rw [hpublished, hpublished', ho, ho', report_outcome_eq hrules ht ht' hfound]

/-- The interfaces under the names that a name reaches are the same, from one level to the next: a module finds
only what earlier levels published, or what neither program has. -/
theorem IsSettled.get?_eq (h : r.IsSettled p levels) (h' : r'.IsSettled q levels') (hrules : p.rules = q.rules)
    (hlevels : Levelled modules levels) (hlevels' : Levelled modules' levels')
    (hlists : ∀ m ∈ modules, m.ListsLoads) (hagree : AgreeFrom id modules modules') {dep : Text}
    (hdep : Reaches modules id dep) : r.published.get? dep = r'.published.get? dep := by
  have hlevel : ∀ before after, levels = before ++ after → ∀ n ∈ before.flatten, Reaches modules id n.id →
      r.published.get? n.id = r'.published.get? n.id := by
    intro before
    induction before using List.reverseRecOn with
    | nil => exact fun _ _ n hn => absurd hn List.not_mem_nil
    | append_singleton before level ih =>
        intro after hsplit n hn hreach
        rw [List.append_assoc] at hsplit
        rw [List.flatten_append, List.flatten_singleton, List.mem_append] at hn
        rcases hn with hn | hn
        · exact ih _ hsplit n hn hreach
        · have hmem : n ∈ modules := (hlevels.mem_iff n).mp (by
            rw [hsplit, List.flatten_append]
            exact List.mem_append_right _ (List.mem_append_left _ hn))
          refine h.get?_eq_of_loads h' hrules hlevels hlevels' hagree hmem (hlists n hmem) hreach fun dep hload => ?_
          have hdep : Reaches modules id dep := .load hreach hmem hload
          by_cases hhas : ∃ t, HasTree modules dep t
          · obtain ⟨t, k, hk, rfl, -⟩ := hhas
            exact ih _ hsplit k (hlevels.earlier before level after hsplit n hn k hk hload) hdep
          · exact h.get?_eq_of_absent h' hlevels hlevels' hagree hdep hhas
  by_cases hhas : ∃ t, HasTree modules dep t
  · obtain ⟨t, n, hn, rfl, -⟩ := hhas
    exact hlevel levels [] (List.append_nil levels).symm n ((hlevels.mem_iff n).mpr hn) hdep
  · exact h.get?_eq_of_absent h' hlevels hlevels' hagree hdep hhas

/-- Whether a report has just one outcome for a module, which tells this. -/
def TellsOf (r : ProgramReport) (m : SourceModule) (told : ModuleReport) : Prop :=
  ∃ o ∈ r.outcomes, o.module = m ∧ o.report = told ∧ ∀ o' ∈ r.outcomes, o'.module.id = m.id → o' = o

theorem IsSettled.exists_tellsOf (h : r.IsSettled p levels) (hlevels : Levelled modules levels) {m : SourceModule}
    (hm : m ∈ modules) : ∃ told, r.TellsOf m told := by
  obtain ⟨o, ho, hmodule, -, -, honly⟩ := h.exists_outcome hlevels.distinct ((hlevels.mem_iff m).mpr hm)
  exact ⟨o.report, o, ho, hmodule, rfl, honly⟩

theorem IsSettled.tellsOf (h : r.IsSettled p levels) (h' : r'.IsSettled q levels') (hrules : p.rules = q.rules)
    (hlevels : Levelled modules levels) (hlevels' : Levelled modules' levels')
    (hlists : ∀ m ∈ modules, m.ListsLoads) {m m' : SourceModule} (hm : m ∈ modules) (hm' : m' ∈ modules')
    (hid : m'.id = m.id) (hagree : AgreeFrom m.id modules modules') {told : ModuleReport} (htold : r.TellsOf m told) :
    r'.TellsOf m' told := by
  obtain ⟨t, ht, hloads⟩ := hlists m hm
  obtain ⟨n, hn, hnid, ht'⟩ := (hagree m.id .refl t).mp ⟨m, hm, rfl, ht⟩
  cases List.inj_on_of_nodup_map hlevels'.ids hn hm' (hnid.trans hid.symm)
  have hfound : ∀ raw ∈ t.loads, r.published.get? (moduleName raw) = r'.published.get? (moduleName raw) :=
    fun raw hraw => h.get?_eq h' hrules hlevels hlevels' hlists hagree
      (.load .refl hm ((hloads _).mpr ⟨raw, hraw, rfl⟩))
  obtain ⟨o, ho, hmodule, hreport, -, -⟩ := h.exists_outcome hlevels.distinct ((hlevels.mem_iff m).mpr hm)
  obtain ⟨o', ho', hmodule', hreport', -, honly'⟩ :=
    h'.exists_outcome hlevels'.distinct ((hlevels'.mem_iff m').mpr hm')
  obtain ⟨_, _, _, rfl, honly⟩ := htold
  refine ⟨o', ho', hmodule', ?_, honly'⟩
  rw [← honly o ho (congrArg SourceModule.id hmodule), hreport, hreport', report_outcome_eq hrules ht ht' hfound]

end ProgramReport

/-- Whether checks of modules tell this of one of them. With places for workers a run can always come to its end,
and every run that does so without being cancelled succeeds and tells it, as does checking one module after the
other. -/
structure ChecksTell {σ : Type} (p : ProgramSetup σ) (jobs : Nat) (start : σ) (modules : List SourceModule)
    (levels : List (List SourceModule)) (m : SourceModule) (told : ModuleReport) : Prop where
  ends : 0 < jobs → ∀ s, CheckRun.Steps p jobs (.start start levels) s →
    ∃ s' result, CheckRun.Steps p jobs s s' ∧ s'.phase = .ended result ∧ s'.isCancelled = s.isCancelled
  tells : ∀ s result, CheckRun.Steps p jobs (.start start levels) s → s.phase = .ended result →
    s.isCancelled = false → result = .ok () ∧ s.report.TellsOf m told
  check : (∀ poll, p.isCancelled poll = false) →
    (p.check start modules).1 = .ok () ∧ (p.check start modules).2.1.TellsOf m told

namespace CheckRun

variable {σ : Type} {p : ProgramSetup σ} {start : σ} {modules : List SourceModule}
  {levels : List (List SourceModule)}

theorem exists_resultOf (start : σ) (hcache : p.cache = none) (hlevels : Levelled modules levels)
    (hlists : ∀ m ∈ modules, m.ListsLoads) :
    ∃ r, resultOf p start levels = (.ok (), r, start) ∧ r.IsSettled p.uncancelled levels := by
  have huncached : p.uncancelled.uncached = p.uncancelled := by
    rw [ProgramSetup.uncached, ProgramSetup.uncancelled, hcache]
  have hempty : ProgramReport.IsSettled p.uncancelled {} [] := ProgramReport.isSettled_empty
  obtain ⟨r, hr, hsettled⟩ :=
    ProgramSetup.isSettled_checkLevels (fun _ => rfl) (by exact hlevels) hlists hempty start 0
  rw [huncached] at hr
  exact ⟨r, hr, hsettled⟩

theorem checksTell (hlevels : dependencyLevels modules = .ok levels) {r : ProgramReport}
    (hr : resultOf p start levels = (.ok (), r, start)) {m : SourceModule} {told : ModuleReport}
    (htells : r.TellsOf m told) (jobs : Nat) : ChecksTell p jobs start modules levels m told where
  ends hjobs _ hs := exists_ended hjobs hs
  tells s result hs hended hgo := by
    have heq := (eq_resultOf hs hended hgo).trans hr
    have hreport : s.report = r := congrArg (fun result => result.2.1) heq
    exact ⟨congrArg Prod.fst heq, hreport ▸ htells⟩
  check hgo := by
    have huncancelled : p.uncancelled = p := by
      rw [ProgramSetup.uncancelled, ← funext hgo]
    rw [resultOf, huncancelled] at hr
    rw [ProgramSetup.check, hlevels]
    dsimp only
    rw [hr]
    exact ⟨rfl, htells⟩

end CheckRun

/-- Two programs that agree on what a module reaches tell the same of it, whatever else they have, in whichever
order, and however the runs of their checks take turns. -/
theorem checks_tell_same_of_agreeFrom {modules modules' : List SourceModule} {levels levels' : List (List SourceModule)}
    (hlevels : dependencyLevels modules = .ok levels) (hlevels' : dependencyLevels modules' = .ok levels')
    (hlists : ∀ n ∈ modules, n.ListsLoads) (hlists' : ∀ n ∈ modules', n.ListsLoads) {m m' : SourceModule}
    (hm : m ∈ modules) (hm' : m' ∈ modules') (hid : m'.id = m.id) (hagree : AgreeFrom m.id modules modules')
    (rules : Rules) : ∃ told : ModuleReport,
      (∀ {σ : Type} (p : ProgramSetup σ) (jobs : Nat) (start : σ), p.rules = rules → p.cache = none →
        ChecksTell p jobs start modules levels m told) ∧
      ∀ {σ : Type} (p : ProgramSetup σ) (jobs : Nat) (start : σ), p.rules = rules → p.cache = none →
        ChecksTell p jobs start modules' levels' m' told := by
  have hlevelled := levelled_of_dependencyLevels hlevels
  have hlevelled' := levelled_of_dependencyLevels hlevels'
  -- What is told is that of a check with nothing but the rules; every other check is compared with it.
  let plain : ProgramSetup Unit := { rules := rules }
  obtain ⟨r, -, hsettled⟩ := CheckRun.exists_resultOf (p := plain) () rfl hlevelled hlists
  obtain ⟨told, htold⟩ := hsettled.exists_tellsOf hlevelled hm
  refine ⟨told, fun p jobs start hrules hcache => ?_, fun p jobs start hrules hcache => ?_⟩
  · obtain ⟨r', hr', hsettled'⟩ := CheckRun.exists_resultOf start hcache hlevelled hlists
    refine CheckRun.checksTell hlevels hr' ?_ jobs
    exact hsettled.tellsOf hsettled' hrules.symm hlevelled hlevelled hlists hm hm rfl (fun _ _ _ => Iff.rfl) htold
  · obtain ⟨r', hr', hsettled'⟩ := CheckRun.exists_resultOf start hcache hlevelled' hlists'
    refine CheckRun.checksTell hlevels' hr' ?_ jobs
    exact hsettled.tellsOf hsettled' hrules.symm hlevelled hlevelled' hlists hm hm' hid hagree htold

namespace Rearranged

/-- A module that loads by these names as written. -/
def module (id : Text) (raws : List Text) : SourceModule :=
  let t : Module := ⟨{}, raws.map fun raw => .load {} raw []⟩
  { id := id, loads := t.loads.map moduleName, tree := some t }

/-- A module that loads one of the program, and one that the program does not have. -/
def a : SourceModule := module "a" [":b", "//gone"]

def b : SourceModule := module "b" []

/-- A module that loads the first one. -/
def c : SourceModule := module "c" ["./a"]

theorem listsLoads (id : Text) (raws : List Text) : (module id raws).ListsLoads :=
  ⟨_, rfl, fun _ => List.mem_map⟩

theorem loads_a : a.loads = ["b", "gone"] := by rfl

theorem dependencyLevels_first : dependencyLevels [b, a] = .ok [[b], [a]] := by rfl

theorem dependencyLevels_second : dependencyLevels [a, c, b] = .ok [[b], [a], [c]] := by rfl

theorem mem_of_reaches {dep : Text} (h : Reaches [b, a] "a" dep) : dep ∈ ["a", "b", "gone"] := by
  induction h with
  | refl => exact List.mem_cons_self
  | load _ hn hdep _ =>
      rcases List.mem_pair.mp hn with rfl | rfl
      · exact absurd hdep List.not_mem_nil
      · rw [loads_a] at hdep
        exact List.mem_cons_of_mem _ hdep

theorem agreeFrom : AgreeFrom "a" [b, a] [a, c, b] := by
  intro dep hdep t
  have hother : dep ≠ "c" := by
    rintro rfl
    exact absurd (mem_of_reaches hdep) (by decide)
  constructor
  · rintro ⟨n, hn, hid⟩
    rcases List.mem_pair.mp hn with rfl | rfl
    · exact ⟨b, List.mem_cons_of_mem a (List.mem_pair.mpr (Or.inr rfl)), hid⟩
    · exact ⟨a, List.mem_cons_self, hid⟩
  · rintro ⟨n, hn, hid⟩
    rcases List.mem_cons.mp hn with rfl | hn
    · exact ⟨a, List.mem_pair.mpr (Or.inr rfl), hid⟩
    rcases List.mem_pair.mp hn with rfl | rfl
    · exact absurd hid.1.symm hother
    · exact ⟨b, List.mem_cons_self, hid⟩

end Rearranged

/-- One worker for a program of two modules, and three workers for one that lists them the other way round and has
another module that loads one of them. -/
theorem checks_tell_same_rearranged : AgreeFrom "a" [Rearranged.b, Rearranged.a]
      [Rearranged.a, Rearranged.c, Rearranged.b] ∧
    ∃ told, ChecksTell ({ rules := ⟨.standard, .lint⟩ } : ProgramSetup Unit) 1 () [Rearranged.b, Rearranged.a]
        [[Rearranged.b], [Rearranged.a]] Rearranged.a told ∧
      ChecksTell ({ rules := ⟨.standard, .lint⟩ } : ProgramSetup Unit) 3 ()
        [Rearranged.a, Rearranged.c, Rearranged.b] [[Rearranged.b], [Rearranged.a], [Rearranged.c]] Rearranged.a
        told := by
  have hlists : ∀ n ∈ [Rearranged.a, Rearranged.c, Rearranged.b], n.ListsLoads := by
    simp only [List.forall_mem_cons]
    exact ⟨Rearranged.listsLoads _ _, Rearranged.listsLoads _ _, Rearranged.listsLoads _ _,
      fun _ h => absurd h List.not_mem_nil⟩
  obtain ⟨told, htold, htold'⟩ := checks_tell_same_of_agreeFrom Rearranged.dependencyLevels_first
    Rearranged.dependencyLevels_second
    (List.forall_mem_cons.mpr ⟨Rearranged.listsLoads _ _, List.forall_mem_singleton.mpr (Rearranged.listsLoads _ _)⟩)
    hlists (List.mem_pair.mpr (Or.inr rfl)) List.mem_cons_self rfl Rearranged.agreeFrom ⟨.standard, .lint⟩
  exact ⟨Rearranged.agreeFrom, told, htold _ 1 () rfl rfl, htold' _ 3 () rfl rfl⟩

end Gradual
