import Gradual.Proofs.ConcurrentCheck

/-! Checks that are stopped. A check may be cancelled at any time, and it ends when an outcome cannot be stored.
Reports only grow, one outcome after the other, so what a stopped check tells is the beginning of what the check
tells when nothing stops it, which gets to its end unless a module has no key. Modules are told of after those they
load, so such a beginning is closed under loads. -/

namespace Gradual

/-- A beginning of modules in levels has what each of its modules loads. -/
theorem Levelled.mem_of_loads {modules first : List SourceModule} {levels : List (List SourceModule)}
    (h : Levelled modules levels) (hfirst : first <+: levels.flatten) {m n : SourceModule} (hm : m ∈ first)
    (hn : n ∈ modules) (hload : n.id ∈ m.loads) : n ∈ first := by
  obtain ⟨level, hlevel, hmlevel⟩ := List.mem_flatten.mp (hfirst.subset hm)
  obtain ⟨before, after, rfl⟩ := List.append_of_mem hlevel
  have hbefore : n ∈ before.flatten := h.earlier before level after rfl m hmlevel n hn hload
  have hdistinct := h.distinct
  rw [List.flatten_append, List.flatten_cons] at hfirst
  rw [List.flatten_append, List.flatten_cons, List.map_append, List.map_append] at hdistinct
  -- The module itself is not in the levels before its own, so the beginning goes beyond these.
  rcases List.prefix_or_prefix_of_prefix hfirst (List.prefix_append ..) with hshort | hlong
  · have hid : m.id ∈ before.flatten.map SourceModule.id := List.mem_map_of_mem (hshort.subset hm)
    exact absurd (List.mem_append_left _ (List.mem_map_of_mem hmlevel)) (List.disjoint_of_nodup_append hdistinct hid)
  · exact hlong.subset hbefore

namespace ProgramReport

/-- A report with further outcomes. -/
def Extends (r' r : ProgramReport) : Prop := ∃ added : List ModuleOutcome, r' = added.foldl add r

variable {r r' r'' : ProgramReport}

theorem Extends.refl (r : ProgramReport) : r.Extends r := ⟨[], rfl⟩

theorem Extends.trans (h : r''.Extends r') (h' : r'.Extends r) : r''.Extends r := by
  obtain ⟨later, rfl⟩ := h
  obtain ⟨added, rfl⟩ := h'
  exact ⟨added ++ later, List.foldl_append.symm⟩

/-- A report is part of the full one on some modules: it has some of the outcomes, in their order, with the
interfaces of just these, and with a module it has all modules that this one loads. -/
structure IsPart (r : ProgramReport) (modules : List SourceModule) (full : ProgramReport) : Prop where
  outcomes : r.outcomes <+: full.outcomes
  keys : ∀ id, r.published.contains id = true ↔ id ∈ idsOf r.outcomes
  final : ∀ id, r.published.contains id = true → r.published.get? id = full.published.get? id
  closed : ∀ m ∈ modules, r.published.contains m.id = true →
    ∀ n ∈ modules, n.id ∈ m.loads → r.published.contains n.id = true

theorem Extends.isPart {full : ProgramReport} {modules : List SourceModule} {levels : List (List SourceModule)}
    (hlevels : Levelled modules levels) (hmodules : full.outcomes.map ModuleOutcome.module <+: levels.flatten)
    (hfull : full.Extends r) (hr : r.Extends {}) : r.IsPart modules full := by
  obtain ⟨os, rfl⟩ := hr
  obtain ⟨added, rfl⟩ := hfull
  have hos : (os.foldl add {}).outcomes = os := outcomes_foldl_add {} os
  have hkeys : ∀ id, (os.foldl add {}).published.contains id = true ↔ id ∈ idsOf os := fun id =>
    contains_foldl_add.trans (or_iff_left Bool.false_ne_true)
  have hdistinct : (idsOf os ++ idsOf added).Nodup := by
    have h := hlevels.distinct.sublist (hmodules.map SourceModule.id).sublist
    rwa [outcomes_foldl_add, hos, List.map_map, List.map_append] at h
  rw [outcomes_foldl_add, hos, List.map_append] at hmodules
  have hfirst : os.map ModuleOutcome.module <+: levels.flatten := (List.prefix_append ..).trans hmodules
  refine ⟨?_, fun id => hos.symm ▸ hkeys id, fun id hid => ?_, fun m hm hid n hn hload => ?_⟩
  · rw [outcomes_foldl_add _ added]
    exact List.prefix_append ..
  · exact (get?_foldl_add_of_notMem (List.disjoint_of_nodup_append hdistinct ((hkeys id).mp hid))).symm
  · obtain ⟨o, ho, hoid⟩ := List.mem_map.mp ((hkeys m.id).mp hid)
    have hmo : o.module ∈ os.map ModuleOutcome.module := List.mem_map_of_mem ho
    cases List.inj_on_of_nodup_map hlevels.ids ((hlevels.mem_iff _).mp (hfirst.subset hmo)) hm hoid
    obtain ⟨o', ho', rfl⟩ := List.mem_map.mp (hlevels.mem_of_loads hfirst hmo hn hload)
    exact (hkeys _).mpr (List.mem_map.mpr ⟨o', ho', rfl⟩)

end ProgramReport

/-! ### The check that is not stopped -/

/-- Whether a cache is the same as another one, except that storing does not fail where it fails there. -/
structure Cache.Completes {σ : Type} (d c : Cache σ) : Prop where
  get : d.get = c.get
  put : ∀ state id e, (d.put state id e).1 = .ok ()
  agrees : ∀ state id e, (c.put state id e).1 = .ok () → d.put state id e = c.put state id e

namespace ProgramSetup

variable {σ : Type} {p q : ProgramSetup σ}

theorem extends_publish (state : σ) (r : ProgramReport) (os : List (Except Text Text × ModuleOutcome)) :
    (p.publish state r os).2.1.Extends r := by
  obtain ⟨added, -, heq⟩ := exists_report_publish (p := p) state r os
  exact ⟨added, heq⟩

theorem extends_checkLevels (levels : List (List SourceModule)) (state : σ) (r : ProgramReport) (poll : Nat) :
    (p.checkLevels state r poll levels).2.1.Extends r := by
  induction levels generalizing state r poll with
  | nil => exact .refl r
  | cons level rest ih =>
      have hlevel := extends_publish (p := p) state r (p.outcomesOf state r.published level)
      rw [outcomesOf] at hlevel
      rw [checkLevels]
      split
      · exact .refl r
      · dsimp only
        split
        · next heq =>
          rw [heq] at hlevel
          exact (ih _ _ _).trans hlevel
        · next heq =>
          rw [heq] at hlevel
          exact hlevel

theorem modules_outcomesOf (state : σ) (published : NameMap Interface) (level : List SourceModule) :
    ((p.outcomesOf state published level).map Prod.snd).map ModuleOutcome.module = level := by
  rw [outcomesOf, List.map_map, List.map_map]
  exact (List.map_congr_left fun m _ => module_checkModule state published m).trans (List.map_id level)

theorem modules_checkLevels (levels : List (List SourceModule)) (state : σ) (r : ProgramReport) (poll : Nat) :
    (p.checkLevels state r poll levels).2.1.outcomes.map ModuleOutcome.module <+:
      r.outcomes.map ModuleOutcome.module ++ levels.flatten := by
  induction levels generalizing state r poll with
  | nil => exact List.prefix_append ..
  | cons level rest ih =>
      obtain ⟨added, hadded, heq⟩ := exists_report_publish (p := p) state r (p.outcomesOf state r.published level)
      have hfirst := hadded.map ModuleOutcome.module
      rw [modules_outcomesOf] at hfirst
      have hwhole : (p.publish state r (p.outcomesOf state r.published level)).1 = .ok () → _ := report_publish
      rw [List.flatten_cons, checkLevels, ← outcomesOf]
      split
      · exact List.prefix_append ..
      · dsimp only
        rcases hpublish : p.publish state r (p.outcomesOf state r.published level) with ⟨_ | _, r', state'⟩
        · rw [hpublish] at heq
          dsimp only at heq ⊢
          rw [heq, ProgramReport.outcomes_foldl_add, List.map_append]
          exact (List.prefix_append_right_inj _).mpr (hfirst.trans (List.prefix_append ..))
        · rw [hpublish] at hwhole
          have hlevel : r'.outcomes.map ModuleOutcome.module = r.outcomes.map ModuleOutcome.module ++ level := by
            rw [show r' = _ from hwhole rfl, ProgramReport.outcomes_foldl_add, List.map_append, modules_outcomesOf]
          have hrest := ih state' r' (poll + 2)
          rwa [hlevel, List.append_assoc] at hrest

/-- Whether checks go as with another setup, except that nothing stops them. -/
structure Completes (q p : ProgramSetup σ) : Prop where
  rules : q.rules = p.rules
  oracleKey : q.oracleKey = p.oracleKey
  isCancelled : ∀ poll, q.isCancelled poll = false
  cache : Option.Rel Cache.Completes q.cache p.cache

namespace Completes

theorem not_isCancelled (h : q.Completes p) (poll : Nat) : ¬(q.isCancelled poll || q.isCancelled (poll + 1)) = true := by
  rw [h.isCancelled, h.isCancelled]
  exact Bool.false_ne_true

theorem keyOf (h : q.Completes p) (m : SourceModule) (published : NameMap Interface) :
    q.keyOf m published = p.keyOf m published := by
  have hcache := h.cache
  rw [ProgramSetup.keyOf, ProgramSetup.keyOf, h.rules, h.oracleKey]
  generalize q.cache = d, p.cache = c at hcache
  cases hcache <;> rfl

theorem outcomesOf (h : q.Completes p) (state : σ) (published : NameMap Interface) (level : List SourceModule) :
    q.outcomesOf state published level = p.outcomesOf state published level := by
  have hget (m : SourceModule) : (q.cache.bind fun c => (q.keyOf m published).toOption.bind (c.get state m.id)) =
      p.cache.bind fun c => (p.keyOf m published).toOption.bind (c.get state m.id) := by
    have hcache := h.cache
    rw [h.keyOf]
    generalize p.keyOf m published = key
    generalize q.cache = d, p.cache = c at hcache
    cases hcache with
    | none => rfl
    | some hc => rw [Option.bind_some, Option.bind_some, hc.get]
  refine List.map_congr_left fun m _ => Prod.ext (h.keyOf m published) ?_
  rw [checkModule, checkModule, hget, h.rules]

theorem store (h : q.Completes p) (state : σ) (key : Text) (o : ModuleOutcome) :
    (q.store state key o).1 = .ok () ∧
      ((p.store state key o).1 = .ok () → q.store state key o = p.store state key o) := by
  have hcache := h.cache
  rw [ProgramSetup.store, ProgramSetup.store]
  generalize q.cache = d, p.cache = c at hcache
  cases hcache with
  | none => exact ⟨rfl, fun _ => rfl⟩
  | some hc =>
      dsimp only
      split
      · exact ⟨rfl, fun _ => rfl⟩
      · exact ⟨hc.put _ _ _, hc.agrees _ _ _⟩

theorem publish_ok (h : q.Completes p) (state : σ) (r : ProgramReport)
    (os : List (Except Text Text × ModuleOutcome)) : (q.publish state r os).1 = .ok () ∨
      ∃ o ∈ os, ∃ message, o.1 = .error message ∧ (q.publish state r os).1 = .error (.store message) := by
  induction os generalizing state r with
  | nil => exact .inl rfl
  | cons o os ih =>
      obtain ⟨message | key, o⟩ := o
      · exact .inr ⟨_, List.mem_cons_self, message, rfl, rfl⟩
      · have hstore := (h.store state key o).1
        rw [publish]
        split
        · refine (ih _ _).imp_right ?_
          rintro ⟨o', ho', hmessage⟩
          exact ⟨o', List.mem_cons_of_mem _ ho', hmessage⟩
        · next heq =>
          rw [heq] at hstore
          cases hstore

/-- Publishing goes on where it ends for an outcome that cannot be stored. -/
theorem publish_cases (h : q.Completes p) (state : σ) (r : ProgramReport) (os : List (Except Text Text × ModuleOutcome)) :
    q.publish state r os = p.publish state r os ∨
      (∃ e, (p.publish state r os).1 = .error e) ∧ (q.publish state r os).2.1.Extends (p.publish state r os).2.1 := by
  induction os generalizing state r with
  | nil => exact Or.inl rfl
  | cons o os ih =>
      obtain ⟨_ | key, o⟩ := o
      · exact Or.inl rfl
      · obtain ⟨hq, hagrees⟩ := h.store state key o
        rw [publish, publish]
        rcases hp : p.store state key o with ⟨_ | _, state'⟩
        · rcases hstored : q.store state key o with ⟨_ | _, state''⟩
          · rw [hstored] at hq
            cases hq
          · exact Or.inr ⟨⟨_, rfl⟩, extends_publish state'' _ os⟩
        · rw [hp] at hagrees
          rw [hagrees rfl]
          exact ih state' _

/-- A check that nothing stops succeeds, unless the interfaces that a module loads cannot be written. -/
theorem checkLevels_ok (h : q.Completes p) (levels : List (List SourceModule)) (state : σ) (r : ProgramReport)
    (poll : Nat) : (q.checkLevels state r poll levels).1 = .ok () ∨
      ∃ m ∈ levels.flatten, ∃ r' message, (q.checkLevels state r poll levels).2.1.Extends r' ∧
        q.keyOf m r'.published = .error message ∧
        (q.checkLevels state r poll levels).1 = .error (.store message) := by
  induction levels generalizing state r poll with
  | nil => exact .inl rfl
  | cons level rest ih =>
      have hextends := ProgramSetup.extends_checkLevels (p := q) (level :: rest) state r poll
      have hok := h.publish_ok state r (q.outcomesOf state r.published level)
      rw [checkLevels, if_neg (h.not_isCancelled poll), ← ProgramSetup.outcomesOf] at hextends ⊢
      dsimp only at hextends ⊢
      rcases hpublish : q.publish state r (q.outcomesOf state r.published level) with ⟨e | _, r', state'⟩
      · rw [hpublish] at hok hextends
        rcases hok with hok | ⟨o, ho, message, hkey, hmessage⟩
        · cases hok
        · obtain ⟨m, hm, rfl⟩ := List.mem_map.mp ho
          exact .inr ⟨m, List.mem_append_left _ hm, r, message, hextends, hkey, hmessage⟩
      · refine (ih state' r' (poll + 2)).imp_right ?_
        rintro ⟨m, hm, hrest⟩
        exact ⟨m, List.mem_append_right _ hm, hrest⟩

theorem extends_checkLevels (h : q.Completes p) (levels : List (List SourceModule)) (state : σ) (r : ProgramReport)
    (poll poll' : Nat) : (q.checkLevels state r poll levels).2.1.Extends
      (p.uncancelled.checkLevels state r poll' levels).2.1 := by
  induction levels generalizing state r poll poll' with
  | nil => exact .refl r
  | cons level rest ih =>
      have hcases := h.publish_cases state r (p.outcomesOf state r.published level)
      rw [checkLevels, if_neg (h.not_isCancelled poll)]
      dsimp only
      rw [← ProgramSetup.outcomesOf, h.outcomesOf]
      rcases hp : p.publish state r (p.outcomesOf state r.published level) with ⟨_ | _, r', state'⟩
      · rw [checkLevels_uncancelled poll' rest hp]
        rcases hq : q.publish state r (p.outcomesOf state r.published level) with ⟨_ | _, r'', state''⟩
        · rw [hp, hq] at hcases
          rcases hcases with heq | ⟨-, hextends⟩
          · cases heq
            exact .refl _
          · exact hextends
        · rw [hp, hq] at hcases
          rcases hcases with heq | ⟨-, hextends⟩
          · cases heq
          · exact (ProgramSetup.extends_checkLevels rest state'' r'' _).trans hextends
      · rw [hp] at hcases
        rcases hcases with heq | ⟨⟨e, he⟩, -⟩
        · rw [heq, checkLevels_uncancelled poll' rest hp]
          exact ih state' r' _ _
        · cases he

end Completes

end ProgramSetup

/-! ### Runs that are stopped -/

namespace CheckRun

open ProgramSetup

variable {σ : Type} {p : ProgramSetup σ} {jobs : Nat} {start : σ} {levels : List (List SourceModule)}
  {s s' : CheckRun σ}

theorem Step.extends (h : Step p jobs s s') : s'.report.Extends s.report := by
  cases h with
  | @publish state state' r r' workers rest os _ hok =>
      have hextends := extends_publish (p := p) state r os
      rw [hok] at hextends
      exact hextends
  | @fail state state' r r' workers rest os e _ herror =>
      have hextends := extends_publish (p := p) state r os
      rw [herror] at hextends
      exact hextends
  | _ => exact .refl _

theorem Steps.extends (h : Steps p jobs s s') : s'.report.Extends s.report := by
  induction h with
  | refl => exact .refl _
  | tail _ hstep ih => exact hstep.extends.trans ih

theorem Step.report_of_isCancelled (h : Step p jobs s s') (hs : s.isCancelled = true) :
    s'.isCancelled = true ∧ s'.report = s.report := by
  cases h with
  | cancel | enter | publish | fail => cases hs
  | _ => exact ⟨hs, rfl⟩

theorem Steps.report_of_isCancelled (h : Steps p jobs s s') (hs : s.isCancelled = true) :
    s'.isCancelled = true ∧ s'.report = s.report := by
  induction h with
  | refl => exact ⟨hs, rfl⟩
  | tail _ hstep ih =>
      obtain ⟨hcancelled, hreport⟩ := hstep.report_of_isCancelled ih.1
      exact ⟨hcancelled, hreport.trans ih.2⟩

theorem Reached.extends {state : σ} {r : ProgramReport} {rest : List (List SourceModule)}
    (h : Reached p start levels state r rest) : (resultOf p start levels).2.1.Extends r := by
  obtain ⟨poll, hresult⟩ := h.result
  rw [← hresult]
  exact extends_checkLevels rest state r poll

/-- At any time, what checking one module after the other tells goes on where a run is. -/
theorem extends_resultOf (h : Steps p jobs (.start start levels) s) :
    (resultOf p start levels).2.1.Extends s.report := by
  obtain ⟨state, r, isCancelled, phase⟩ := s
  have hfollows := follows_of_steps h
  cases phase with
  | before rest => exact Reached.extends hfollows
  | within workers rest => exact hfollows.1.extends
  | ended result =>
      rcases hfollows with ⟨-, rest, hreached⟩ | hresult
      · exact hreached.extends
      · rw [← hresult]
        exact .refl _

theorem contains_of_within (h : Steps p jobs (.start start levels) s)
    (hdistinct : (levels.flatten.map SourceModule.id).Nodup) {workers : List (SourceModule × Worker)}
    {rest : List (List SourceModule)} (hphase : s.phase = .within workers rest) :
    ∀ w ∈ workers, s.report.published.contains w.1.id = false := by
  intro w hw
  have hfollows := follows_of_steps h
  rw [Follows, hphase] at hfollows
  obtain ⟨before, hlevels, hpublished⟩ := hfollows.1.published
  rw [hlevels, List.flatten_append, List.flatten_cons, List.map_append, List.map_append] at hdistinct
  refine Bool.eq_false_iff.mpr fun hid => ?_
  refine List.disjoint_of_nodup_append hdistinct ((hpublished _).mp hid) (List.mem_append_left _ ?_)
  exact List.mem_map_of_mem (List.mem_map_of_mem hw)

theorem steps_done (hjobs : 0 < jobs) (state : σ) (r : ProgramReport) (rest : List (List SourceModule))
    (first : List (SourceModule × Worker)) (hfirst : ∀ w ∈ first, w.2.isBusy = false) (level : List SourceModule) :
    Steps p jobs ⟨state, r, false, .within (first ++ level.map fun m => (m, .waiting)) rest⟩
      ⟨state, r, false, .within (first ++ level.map fun m =>
        (m, .done (p.keyOf m r.published, p.checkModule state r.published m))) rest⟩ := by
  induction level generalizing first with
  | nil => exact .refl
  | cons m level ih =>
      have hwaiting : ∀ w ∈ level.map fun m => (m, Worker.waiting), ¬w.2.isBusy = true := by
        intro w hw
        obtain ⟨m, -, rfl⟩ := List.mem_map.mp hw
        exact Bool.false_ne_true
      have hplaces : busy (first ++ (m, .waiting) :: level.map fun m => (m, .waiting)) < jobs := by
        rw [busy, List.countP_eq_zero.mpr]
        · exact hjobs
        · exact List.forall_mem_append.mpr
            ⟨fun w hw => ne_true_of_eq_false (hfirst w hw), List.forall_mem_cons.mpr ⟨Bool.false_ne_true, hwaiting⟩⟩
      have hdone : ∀ w ∈ first ++ [(m, .done (p.keyOf m r.published, p.checkModule state r.published m))],
          w.2.isBusy = false :=
        List.forall_mem_append.mpr ⟨hfirst, List.forall_mem_singleton.mpr rfl⟩
      have hnext := ih _ hdone
      rw [← List.append_cons, ← List.append_cons] at hnext
      refine (steps_checking first _ hplaces).trans (.head (.work first _ .finish) ?_)
      rw [outcomeWith_loadsOf]
      exact hnext

theorem exists_run (hjobs : 0 < jobs) (levels : List (List SourceModule)) (state : σ) (r : ProgramReport) (poll : Nat) :
    ∃ s, Steps p jobs ⟨state, r, false, .before levels⟩ s ∧ s.phase = .ended (p.checkLevels state r poll levels).1 ∧
      s.report = (p.checkLevels state r poll levels).2.1 ∧ s.state = (p.checkLevels state r poll levels).2.2 := by
  induction levels generalizing state r poll with
  | nil => exact ⟨_, .single .complete, rfl, rfl, rfl⟩
  | cons level rest ih =>
      rw [checkLevels]
      split
      · exact ⟨_, .head .cancel (.single .abandon), rfl, rfl, rfl⟩
      · dsimp only
        have hdone := steps_done (p := p) hjobs state r rest [] (List.forall_mem_nil _) level
        rw [List.nil_append, List.nil_append] at hdone
        have houtcomes : (level.map fun m =>
            (m, Worker.done (p.keyOf m r.published, p.checkModule state r.published m))).map Prod.snd =
              (level.map fun m => (p.keyOf m r.published, p.checkModule state r.published m)).map .done := by
          rw [List.map_map, List.map_map]
          rfl
        have hlevel := hdone.head .enter
        split
        · next hpublish =>
          obtain ⟨s, hs, hended⟩ := ih _ _ (poll + 2)
          exact ⟨s, (hlevel.tail (.publish _ houtcomes hpublish)).trans hs, hended⟩
        · next hpublish => exact ⟨_, hlevel.tail (.fail _ houtcomes hpublish), rfl, rfl, rfl⟩

end CheckRun

/-- Checks that are stopped tell only what is complete. The check of modules in levels succeeds if nothing stops
it, unless the interfaces that a module loads cannot be written. One that may be stopped, by a cancellation at any
time or by an outcome that cannot be stored, tells part of that, in whichever order workers take turns and however far
it gets; so does checking one module after the other. Once a run is cancelled within a level, no module of this level
is published any more. -/
theorem ProgramSetup.Completes.stopped_check_isPart {σ : Type} {p q : ProgramSetup σ} (hq : q.Completes p)
    {modules : List SourceModule} {levels : List (List SourceModule)} (hlevels : dependencyLevels modules = .ok levels)
    (start : σ) : ((q.check start modules).1 = .ok () ∨ ∃ m ∈ modules, ∃ r message,
        (q.check start modules).2.1.Extends r ∧ q.keyOf m r.published = .error message ∧
        (q.check start modules).1 = .error (.store message)) ∧
      (p.check start modules).2.1.IsPart modules (q.check start modules).2.1 ∧
      ∀ jobs s, CheckRun.Steps p jobs (.start start levels) s →
        s.report.IsPart modules (q.check start modules).2.1 ∧
        ∀ workers rest, s.phase = .within workers rest → s.isCancelled = true → ∀ s', CheckRun.Steps p jobs s s' →
          s'.report = s.report ∧ ∀ w ∈ workers, s'.report.published.contains w.1.id = false := by
  have hlevelled := levelled_of_dependencyLevels hlevels
  have hcheck (p : ProgramSetup σ) : p.check start modules = p.checkLevels start {} 0 levels := by
    rw [ProgramSetup.check, hlevels]
  rw [hcheck, hcheck]
  have hpart : ∀ jobs s, CheckRun.Steps p jobs (.start start levels) s →
      s.report.IsPart modules (q.checkLevels start {} 0 levels).2.1 := fun jobs s hs =>
    ProgramReport.Extends.isPart hlevelled (modules_checkLevels levels start {} 0)
      ((hq.extends_checkLevels levels start {} 0 0).trans (CheckRun.extends_resultOf hs))
      hs.extends
  refine ⟨?_, ?_, fun jobs s hs => ⟨hpart jobs s hs, fun workers rest hphase hcancelled s' hs' => ?_⟩⟩
  · refine (hq.checkLevels_ok levels start {} 0).imp_right ?_
    rintro ⟨m, hm, hkey⟩
    exact ⟨m, (hlevelled.mem_iff m).mp hm, hkey⟩
  · obtain ⟨s, hs, -, hreport, -⟩ := CheckRun.exists_run (p := p) Nat.zero_lt_one levels start {} 0
    exact hreport ▸ hpart 1 s hs
  · have hreport := (hs'.report_of_isCancelled hcancelled).2
    exact ⟨hreport, hreport.symm ▸ CheckRun.contains_of_within hs hlevelled.distinct hphase⟩

/-! ### A module that cannot be stored -/

namespace Unstored

open CheckRun

/-- A module that loads others. -/
def module (id : Text) (loads : List Text) : SourceModule where
  id := id
  loads := loads
  tree := some ⟨{}, loads.map fun raw => .load {} raw []⟩

/-- The modules `b` and `c` load the module `a`. -/
def levels : List (List SourceModule) := [[module "a" []], [module "b" ["a"], module "c" ["a"]]]

theorem dependencyLevels_flatten : dependencyLevels levels.flatten = .ok levels := by rfl

/-- A cache that keeps nothing, and says for some modules that they cannot be stored. -/
def cache (fails : Text → Bool) : Cache Unit where
  get _ _ _ := none
  put _ id _ := (if fails id then .error "no space left" else .ok (), ())

def setup (fails : Text → Bool) : ProgramSetup Unit where
  rules := ⟨.standard, .lint⟩
  cache := some (cache fails)

theorem completes_cache (fails : Text → Bool) : (cache fun _ => false).Completes (cache fails) where
  get := rfl
  put _ _ _ := rfl
  agrees state id e h := by
    have hput : (cache fails).put state id e = (if fails id then .error "no space left" else .ok (), ()) := rfl
    rw [hput] at h ⊢
    cases hid : fails id with
    | false => rfl
    | true =>
        rw [hid] at h
        cases h

theorem completes_setup (fails : Text → Bool) : (setup fun _ => false).Completes (setup fails) where
  rules := rfl
  oracleKey := rfl
  isCancelled _ := rfl
  cache := .some (completes_cache fails)

theorem exists_cancelled : ∃ s, Steps (setup (· == "b")) 1 (.start () levels) s ∧ s.isCancelled = true ∧
    s.phase = .within [(module "b" ["a"], .waiting), (module "c" ["a"], .waiting)] [] ∧
    ProgramReport.idsOf s.report.outcomes = ["a"] := by
  have hfirst : Steps (setup (· == "b")) 1 (.start () levels)
      ⟨(), {}, false, .within [(module "a" [], .checking (ProgramSetup.loadsOf (module "a" []) .empty))]
        [[module "b" ["a"], module "c" ["a"]]]⟩ :=
    .head .enter (steps_checking [] [] Nat.zero_lt_one)
  have hpublished := (hfirst.tail (.work [] [] .finish)).tail (.publish [_] rfl rfl)
  exact ⟨_, (hpublished.tail .enter).tail .cancel, rfl, rfl, rfl⟩

end Unstored

/-- The module `b` cannot be stored. It is published with the module that it loads, and `c` is not. When the check
is cancelled while both are checked, neither is. -/
theorem stopped_check_isPart_unstored :
    (Unstored.setup fun _ => false).Completes (Unstored.setup (· == "b")) ∧
      dependencyLevels Unstored.levels.flatten = .ok Unstored.levels ∧
      ((Unstored.setup (· == "b")).check () Unstored.levels.flatten).2.1.IsPart Unstored.levels.flatten
        ((Unstored.setup fun _ => false).check () Unstored.levels.flatten).2.1 ∧
      ProgramReport.idsOf ((Unstored.setup (· == "b")).check () Unstored.levels.flatten).2.1.outcomes = ["a", "b"] ∧
      ∃ s, CheckRun.Steps (Unstored.setup (· == "b")) 1 (.start () Unstored.levels) s ∧ s.isCancelled = true ∧
        ProgramReport.idsOf s.report.outcomes = ["a"] ∧ ∀ s', CheckRun.Steps (Unstored.setup (· == "b")) 1 s s' →
          s'.report = s.report := by
  have hcompletes := Unstored.completes_setup (· == "b")
  obtain ⟨-, hpart, hruns⟩ := hcompletes.stopped_check_isPart Unstored.dependencyLevels_flatten ()
  obtain ⟨s, hs, hcancelled, hphase, hids⟩ := Unstored.exists_cancelled
  exact ⟨hcompletes, Unstored.dependencyLevels_flatten, hpart, rfl, s, hs, hcancelled, hids,
    fun s' hs' => ((hruns 1 s hs).2 _ _ hphase hcancelled s' hs').1⟩

end Gradual
