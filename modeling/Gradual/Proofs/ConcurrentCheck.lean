import Gradual.Proofs.Publication
import Mathlib.Logic.Relation

/-! Checks that run concurrently. The modules of a level are checked by workers of which only so many are busy
at a time; they take turns in any order, and the level is published when all are over. A check may be cancelled
at any time: workers that wait may leave then, and nothing is published any more. Every run ends, and one that
is not cancelled ends with what checking one module after the other gives. -/

namespace Gradual

open ProgramSetup

namespace ProgramSetup

variable {σ : Type} (p : ProgramSetup σ)

def uncancelled : ProgramSetup σ := { p with isCancelled := fun _ => false }

/-- The outcome for a module against what it loads, under its key. -/
def outcomeWith (cached : σ) (loads : NameMap Interface) (m : SourceModule) : Except Text Text × ModuleOutcome :=
  let key := match p.cache with
    | some _ => writtenKey m.hash p.rules.mode p.oracleKey loads
    | none => .ok ""
  (key, match p.cache.bind fun c => key.toOption.bind (c.get cached m.id) with
    | some e => ⟨m, reportOf e, true⟩
    | none => ⟨m, (m.tree.map fun t => t.check p.rules loads).getD {}, false⟩)

variable {p}

theorem outcomeWith_loadsOf (cached : σ) (published : NameMap Interface) (m : SourceModule) :
    p.outcomeWith cached (loadsOf m published) m = (p.keyOf m published, p.checkModule cached published m) := rfl

theorem publish_uncancelled (state : σ) (r : ProgramReport) (os : List (Except Text Text × ModuleOutcome)) :
    p.uncancelled.publish state r os = p.publish state r os := by
  induction os generalizing state r with
  | nil => rfl
  | cons o os ih =>
      obtain ⟨_ | key, o⟩ := o
      · rfl
      · rw [publish, publish]
        simp only [ih]
        rfl

theorem checkLevels_uncancelled {state state' : σ} {r r' : ProgramReport} {level : List SourceModule}
    {result : Except ProgramError Unit} (poll : Nat) (rest : List (List SourceModule)) :
    p.publish state r (p.outcomesOf state r.published level) = (result, r', state') →
      p.uncancelled.checkLevels state r poll (level :: rest) = match result with
        | .ok () => p.uncancelled.checkLevels state' r' (poll + 2) rest
        | .error e => (.error e, r', state') := by
  intro h
  have hgo : ¬(p.uncancelled.isCancelled poll || p.uncancelled.isCancelled (poll + 1)) = true := Bool.false_ne_true
  have hpublish : p.uncancelled.publish state r (level.map fun m =>
      (p.uncancelled.keyOf m r.published, p.uncancelled.checkModule state r.published m)) = (result, r', state') :=
    (publish_uncancelled state r _).trans h
  rw [checkLevels, if_neg hgo]
  dsimp only
  rw [hpublish]
  cases result <;> rfl

end ProgramSetup

/-! ### Runs -/

/-- How far the check of a module is. -/
inductive Worker where
  | waiting
  /-- What the module loads is looked up; this much is found, and that is left. -/
  | reading (loads : NameMap Interface) (rest : List Text)
  /-- The module is checked against what it loads. -/
  | checking (loads : NameMap Interface)
  | done (outcome : Except Text Text × ModuleOutcome)
  /-- Left without being checked. -/
  | left

namespace Worker

/-- Whether a worker takes one of the places. -/
def isBusy : Worker → Bool
  | .reading _ _ | .checking _ => true
  | _ => false

/-- Whether nothing is left to do. -/
def isOver : Worker → Bool
  | .done _ | .left => true
  | _ => false

/-- What a worker does for a module. A place is taken before anything is looked up; of the interfaces that
are published one is looked up at a time. -/
inductive Step {σ : Type} (p : ProgramSetup σ) (state : σ) (published : NameMap Interface) (isCancelled : Bool)
    (hasPlace : Prop) (m : SourceModule) : Worker → Worker → Prop
  | enter (h : hasPlace) :
    Step p state published isCancelled hasPlace m .waiting (.reading .empty ((m.tree.map Module.loads).getD []))
  | leave (h : isCancelled = true) : Step p state published isCancelled hasPlace m .waiting .left
  | read {loads : NameMap Interface} {raw : Text} {rest : List Text} :
    Step p state published isCancelled hasPlace m (.reading loads (raw :: rest))
      (.reading (readLoad published loads raw) rest)
  | begin {loads : NameMap Interface} :
    Step p state published isCancelled hasPlace m (.reading loads []) (.checking loads)
  | finish {loads : NameMap Interface} :
    Step p state published isCancelled hasPlace m (.checking loads) (.done (p.outcomeWith state loads m))

end Worker

/-- Where a run is: before some levels, within a level that is followed by others, or at its end. -/
inductive CheckPhase where
  | before (levels : List (List SourceModule))
  | within (workers : List (SourceModule × Worker)) (rest : List (List SourceModule))
  | ended (result : Except ProgramError Unit)

/-- A run of a check: the state of the cache, what is told so far, whether the check was cancelled, and where
it is. -/
structure CheckRun (σ : Type) where
  state : σ
  report : ProgramReport
  isCancelled : Bool
  phase : CheckPhase

namespace CheckRun

variable {σ : Type}

def start (state : σ) (levels : List (List SourceModule)) : CheckRun σ := ⟨state, {}, false, .before levels⟩

def busy (workers : List (SourceModule × Worker)) : Nat := workers.countP fun w => w.2.isBusy

/-- What can happen next when there are `jobs` places. -/
inductive Step (p : ProgramSetup σ) (jobs : Nat) : CheckRun σ → CheckRun σ → Prop
  | cancel {state : σ} {r : ProgramReport} {phase : CheckPhase} :
    Step p jobs ⟨state, r, false, phase⟩ ⟨state, r, true, phase⟩
  | enter {state : σ} {r : ProgramReport} {level : List SourceModule} {rest : List (List SourceModule)} :
    Step p jobs ⟨state, r, false, .before (level :: rest)⟩
      ⟨state, r, false, .within (level.map fun m => (m, .waiting)) rest⟩
  | abandon {state : σ} {r : ProgramReport} {level : List SourceModule} {rest : List (List SourceModule)} :
    Step p jobs ⟨state, r, true, .before (level :: rest)⟩ ⟨state, r, true, .ended (.error .cancelled)⟩
  | complete {state : σ} {r : ProgramReport} {isCancelled : Bool} :
    Step p jobs ⟨state, r, isCancelled, .before []⟩ ⟨state, r, isCancelled, .ended (.ok ())⟩
  | work {state : σ} {r : ProgramReport} {isCancelled : Bool} (first last : List (SourceModule × Worker))
    {m : SourceModule} {w w' : Worker} {rest : List (List SourceModule)}
    (h : Worker.Step p state r.published isCancelled (busy (first ++ (m, w) :: last) < jobs) m w w') :
    Step p jobs ⟨state, r, isCancelled, .within (first ++ (m, w) :: last) rest⟩
      ⟨state, r, isCancelled, .within (first ++ (m, w') :: last) rest⟩
  | discard {state : σ} {r : ProgramReport} {workers : List (SourceModule × Worker)}
    {rest : List (List SourceModule)} (h : ∀ w ∈ workers, w.2.isOver = true) :
    Step p jobs ⟨state, r, true, .within workers rest⟩ ⟨state, r, true, .ended (.error .cancelled)⟩
  | publish {state state' : σ} {r r' : ProgramReport} {workers : List (SourceModule × Worker)}
    {rest : List (List SourceModule)} (os : List (Except Text Text × ModuleOutcome))
    (h : workers.map Prod.snd = os.map .done) (hok : p.publish state r os = (.ok (), r', state')) :
    Step p jobs ⟨state, r, false, .within workers rest⟩ ⟨state', r', false, .before rest⟩
  | fail {state state' : σ} {r r' : ProgramReport} {workers : List (SourceModule × Worker)}
    {rest : List (List SourceModule)} (os : List (Except Text Text × ModuleOutcome)) {e : ProgramError}
    (h : workers.map Prod.snd = os.map .done) (herror : p.publish state r os = (.error e, r', state')) :
    Step p jobs ⟨state, r, false, .within workers rest⟩ ⟨state', r', false, .ended (.error e)⟩

/-- What can happen after any number of steps. -/
def Steps (p : ProgramSetup σ) (jobs : Nat) : CheckRun σ → CheckRun σ → Prop := Relation.ReflTransGen (Step p jobs)

end CheckRun

/-! ### Runs follow the check of one module after the other -/

/-- What is known of a worker: what it has found, with what is left to look up, is what its module loads. -/
def Worker.IsSound {σ : Type} (p : ProgramSetup σ) (state : σ) (published : NameMap Interface)
    (isCancelled : Bool) (m : SourceModule) : Worker → Prop
  | .waiting => True
  | .reading loads rest => rest.foldl (readLoad published) loads = loadsOf m published
  | .checking loads => loads = loadsOf m published
  | .done outcome => outcome = (p.keyOf m published, p.checkModule state published m)
  | .left => isCancelled = true

theorem Worker.Step.isSound {σ : Type} {p : ProgramSetup σ} {state : σ} {published : NameMap Interface}
    {isCancelled : Bool} {hasPlace : Prop} {m : SourceModule} {w w' : Worker}
    (h : Worker.Step p state published isCancelled hasPlace m w w') (hw : w.IsSound p state published isCancelled m) :
    w'.IsSound p state published isCancelled m := by
  cases h with
  | enter => exact foldl_readLoad m published
  | leave h => exact h
  | read => exact hw
  | begin => exact hw
  | finish =>
      cases hw
      exact outcomeWith_loadsOf state published m

theorem Worker.IsSound.cancel {σ : Type} {p : ProgramSetup σ} {state : σ} {published : NameMap Interface}
    {m : SourceModule} {w : Worker} (h : w.IsSound p state published false m) :
    w.IsSound p state published true m := by
  cases w with
  | left => rfl
  | _ => exact h

namespace CheckRun

variable {σ : Type} {p : ProgramSetup σ} {jobs : Nat} {start state : σ} {levels rest : List (List SourceModule)}
  {r : ProgramReport} {id : Text} {s s' : CheckRun σ}

/-- What checking the levels one after the other gives. -/
def resultOf (p : ProgramSetup σ) (start : σ) (levels : List (List SourceModule)) :
    Except ProgramError Unit × ProgramReport × σ :=
  p.uncancelled.checkLevels start {} 0 levels

/-- The levels before `rest` are published, and checking the rest gives what checking all of them gives. -/
structure Reached (p : ProgramSetup σ) (start : σ) (levels : List (List SourceModule)) (state : σ)
    (r : ProgramReport) (rest : List (List SourceModule)) : Prop where
  published : ∃ before, levels = before ++ rest ∧
    ∀ id, r.published.contains id = true ↔ id ∈ before.flatten.map SourceModule.id
  result : ∃ poll, p.uncancelled.checkLevels state r poll rest = resultOf p start levels

theorem reached_start : Reached p start levels start {} levels where
  published := ⟨[], rfl, fun _ => ⟨fun h => (nomatch h), fun h => absurd h List.not_mem_nil⟩⟩
  result := ⟨0, rfl⟩

theorem Reached.publish {state' : σ} {r' : ProgramReport} {level : List SourceModule}
    (h : Reached p start levels state r (level :: rest))
    (hok : p.publish state r (p.outcomesOf state r.published level) = (.ok (), r', state')) :
    Reached p start levels state' r' rest where
  published := by
    obtain ⟨before, hlevels, hpublished⟩ := h.published
    refine ⟨before ++ [level], ?_, fun id => ?_⟩
    · rw [hlevels, List.append_cons]
    · have hcontains := contains_publish_outcomesOf (congrArg Prod.fst hok) id
      rw [hok] at hcontains
      rw [hcontains, hpublished, List.flatten_append, List.flatten_singleton, List.map_append, List.mem_append]
      exact or_comm
  result := by
    obtain ⟨poll, hresult⟩ := h.result
    rw [checkLevels_uncancelled poll rest hok] at hresult
    exact ⟨poll + 2, hresult⟩

theorem Reached.fail {state' : σ} {r' : ProgramReport} {level : List SourceModule} {e : ProgramError}
    (h : Reached p start levels state r (level :: rest))
    (herror : p.publish state r (p.outcomesOf state r.published level) = (.error e, r', state')) :
    (.error e, r', state') = resultOf p start levels := by
  obtain ⟨poll, hresult⟩ := h.result
  rw [checkLevels_uncancelled poll rest herror] at hresult
  exact hresult

theorem Reached.get?_eq (h : Reached p start levels state r rest)
    (hdistinct : (levels.flatten.map SourceModule.id).Nodup) (hid : r.published.contains id = true) :
    r.published.get? id = (resultOf p start levels).2.1.published.get? id := by
  obtain ⟨before, hlevels, hpublished⟩ := h.published
  obtain ⟨poll, hresult⟩ := h.result
  rw [hlevels, List.flatten_append, List.map_append] at hdistinct
  have hrest : id ∉ rest.flatten.map SourceModule.id :=
    List.disjoint_of_nodup_append hdistinct ((hpublished id).mp hid)
  rw [← hresult, get?_checkLevels hrest]

/-- Where a run can be, after any number of steps. -/
def Follows (p : ProgramSetup σ) (start : σ) (levels : List (List SourceModule)) (s : CheckRun σ) : Prop :=
  match s.phase with
  | .before rest => Reached p start levels s.state s.report rest
  | .within workers rest => Reached p start levels s.state s.report (workers.map Prod.fst :: rest) ∧
      ∀ w ∈ workers, w.2.IsSound p s.state s.report.published s.isCancelled w.1
  | .ended result => (s.isCancelled = true ∧ ∃ rest, Reached p start levels s.state s.report rest) ∨
      (result, s.report, s.state) = resultOf p start levels

theorem eq_outcomesOf {published : NameMap Interface} {isCancelled : Bool} {workers : List (SourceModule × Worker)}
    {os : List (Except Text Text × ModuleOutcome)} (hdone : workers.map Prod.snd = os.map .done)
    (h : ∀ w ∈ workers, w.2.IsSound p state published isCancelled w.1) :
    os = p.outcomesOf state published (workers.map Prod.fst) := by
  induction workers generalizing os with
  | nil => exact List.map_eq_nil_iff.mp hdone.symm
  | cons w workers ih =>
      cases os with
      | nil => cases hdone
      | cons o os =>
          obtain ⟨hw, hworkers⟩ := List.forall_mem_cons.mp h
          obtain ⟨hfirst, hrest⟩ := List.cons.inj hdone
          rw [hfirst] at hw
          exact congrArg₂ List.cons hw (ih hrest hworkers)

/-- A step keeps to the check of one module after the other. -/
theorem Follows.step (h : Follows p start levels s) (hstep : Step p jobs s s') : Follows p start levels s' := by
  cases hstep with
  | @cancel state r phase =>
      cases phase with
      | before rest => exact h
      | within workers rest => exact ⟨h.1, fun w hw => (h.2 w hw).cancel⟩
      | ended result => exact h.imp_left fun hcancelled => ⟨rfl, hcancelled.2⟩
  | @enter state r level rest =>
      refine ⟨?_, fun w hw => ?_⟩
      · rw [List.map_map]
        exact (List.map_id level).symm ▸ h
      · obtain ⟨m, -, rfl⟩ := List.mem_map.mp hw
        trivial
  | abandon => exact Or.inl ⟨rfl, _, h⟩
  | complete =>
      obtain ⟨poll, hresult⟩ := Reached.result h
      exact Or.inr hresult
  | @work state r isCancelled first last m w w' rest hworker =>
      obtain ⟨hreached, hworkers⟩ := h
      obtain ⟨hfirst, hlast⟩ := List.forall_mem_append.mp hworkers
      obtain ⟨hw, hlast⟩ := List.forall_mem_cons.mp hlast
      refine ⟨?_, List.forall_mem_append.mpr ⟨hfirst, List.forall_mem_cons.mpr ⟨hworker.isSound hw, hlast⟩⟩⟩
      rw [List.map_append] at hreached ⊢
      exact hreached
  | discard => exact Or.inl ⟨rfl, _, h.1⟩
  | publish os hdone hok =>
      rw [eq_outcomesOf hdone h.2] at hok
      exact h.1.publish hok
  | fail os hdone herror =>
      rw [eq_outcomesOf hdone h.2] at herror
      exact Or.inr (h.1.fail herror)

theorem follows_of_steps (h : Steps p jobs (.start start levels) s) : Follows p start levels s := by
  induction h with
  | refl => exact reached_start
  | tail _ hstep ih => exact ih.step hstep

/-- A run that ends without being cancelled ends with what checking one module after the other gives. -/
theorem eq_resultOf {result : Except ProgramError Unit} (h : Steps p jobs (.start start levels) s)
    (hended : s.phase = .ended result) (hgo : s.isCancelled = false) :
    (result, s.report, s.state) = resultOf p start levels := by
  have hfollows := follows_of_steps h
  rw [Follows, hended] at hfollows
  exact hfollows.resolve_left fun hcancelled => absurd hcancelled.1 (ne_true_of_eq_false hgo)

theorem get?_published (h : Steps p jobs (.start start levels) s)
    (hdistinct : (levels.flatten.map SourceModule.id).Nodup) (hid : s.report.published.contains id = true) :
    s.report.published.get? id = (resultOf p start levels).2.1.published.get? id := by
  obtain ⟨state, r, isCancelled, phase⟩ := s
  have hfollows := follows_of_steps h
  cases phase with
  | before rest => exact Reached.get?_eq hfollows hdistinct hid
  | within workers rest => exact hfollows.1.get?_eq hdistinct hid
  | ended result =>
      rcases hfollows with ⟨-, rest, hreached⟩ | hresult
      · exact hreached.get?_eq hdistinct hid
      · rw [← hresult]

theorem Step.contains (h : Step p jobs s s') (hid : s.report.published.contains id = true) :
    s'.report.published.contains id = true := by
  cases h with
  | @publish state state' r r' workers rest os _ hok =>
      have hcontains := contains_publish (p := p) state os hid
      rw [hok] at hcontains
      exact hcontains
  | @fail state state' r r' workers rest os e _ herror =>
      have hcontains := contains_publish (p := p) state os hid
      rw [herror] at hcontains
      exact hcontains
  | _ => exact hid

theorem Steps.contains (h : Steps p jobs s s') (hid : s.report.published.contains id = true) :
    s'.report.published.contains id = true := by
  induction h with
  | refl => exact hid
  | tail _ hstep ih => exact hstep.contains ih

end CheckRun

/-! ### Runs end -/

namespace Worker

def cost (m : SourceModule) : Worker → Nat
  | .waiting => ((m.tree.map Module.loads).getD []).length + 3
  | .reading _ rest => rest.length + 2
  | .checking _ => 1
  | .done _ | .left => 0

variable {σ : Type} {p : ProgramSetup σ} {state : σ} {published : NameMap Interface} {isCancelled : Bool}
  {hasPlace : Prop} {m : SourceModule} {w w' : Worker}

theorem Step.cost_lt (h : Step p state published isCancelled hasPlace m w w') : w'.cost m < w.cost m := by
  cases h with
  | enter => exact Nat.lt_succ_self _
  | leave => exact Nat.succ_pos _
  | read => exact Nat.lt_succ_self _
  | begin => exact Nat.lt_succ_self _
  | finish => exact Nat.succ_pos _

theorem exists_step_of_isBusy (h : w.isBusy = true) : ∃ w', Step p state published isCancelled hasPlace m w w' := by
  cases w with
  | reading loads rest =>
      cases rest with
      | nil => exact ⟨_, .begin⟩
      | cons raw rest => exact ⟨_, .read⟩
  | checking loads => exact ⟨_, .finish⟩
  | _ => cases h

theorem eq_waiting (hbusy : ¬w.isBusy = true) (hover : ¬w.isOver = true) : w = .waiting := by
  cases w with
  | waiting => rfl
  | reading _ _ | checking _ => exact absurd rfl hbusy
  | done _ | left => exact absurd rfl hover

end Worker

namespace CheckRun

variable {σ : Type} {p : ProgramSetup σ} {jobs : Nat} {start : σ} {levels : List (List SourceModule)}

def workersCost : List (SourceModule × Worker) → Nat
  | [] => 0
  | (m, w) :: workers => w.cost m + workersCost workers

theorem workersCost_append (workers workers' : List (SourceModule × Worker)) :
    workersCost (workers ++ workers') = workersCost workers + workersCost workers' := by
  induction workers with
  | nil => exact (Nat.zero_add _).symm
  | cons w workers ih => rw [List.cons_append, workersCost, workersCost, ih, Nat.add_assoc]

/-- How many steps levels may take. -/
def levelsCost : List (List SourceModule) → Nat
  | [] => 0
  | level :: rest => workersCost (level.map fun m => (m, .waiting)) + levelsCost rest + 2

/-- How many steps a run may still take. -/
def cost (s : CheckRun σ) : Nat :=
  (if s.isCancelled then 0 else 1) + match s.phase with
    | .before rest => levelsCost rest + 1
    | .within workers rest => workersCost workers + levelsCost rest + 2
    | .ended _ => 0

theorem Step.cost_lt {s s' : CheckRun σ} (h : Step p jobs s s') : s'.cost < s.cost := by
  cases h with
  | cancel => exact Nat.add_lt_add_right Nat.zero_lt_one _
  | enter =>
      simp only [cost, levelsCost]
      omega
  | abandon => exact Nat.add_lt_add_left (Nat.succ_pos _) _
  | complete => exact Nat.add_lt_add_left (Nat.succ_pos _) _
  | work first last hworker =>
      have hlt := hworker.cost_lt
      simp only [cost, workersCost_append, workersCost]
      omega
  | discard => exact Nat.add_lt_add_left (Nat.succ_pos _) _
  | publish =>
      simp only [cost]
      omega
  | fail => exact Nat.add_lt_add_left (Nat.succ_pos _) _

theorem exists_outcomes {state : σ} {published : NameMap Interface} {workers : List (SourceModule × Worker)}
    (hsound : ∀ w ∈ workers, w.2.IsSound p state published false w.1) (hover : ∀ w ∈ workers, w.2.isOver = true) :
    ∃ os : List (Except Text Text × ModuleOutcome), workers.map Prod.snd = os.map .done := by
  induction workers with
  | nil => exact ⟨[], rfl⟩
  | cons w workers ih =>
      obtain ⟨hw, hworkers⟩ := List.forall_mem_cons.mp hsound
      obtain ⟨hwover, hworkersOver⟩ := List.forall_mem_cons.mp hover
      obtain ⟨os, hos⟩ := ih hworkers hworkersOver
      obtain ⟨m, worker⟩ := w
      cases worker with
      | done o => exact ⟨o :: os, congrArg _ hos⟩
      | left => cases hw
      | waiting | reading _ _ | checking _ => cases hwover

theorem exists_work (hjobs : 0 < jobs) {state : σ} {r : ProgramReport} {isCancelled : Bool}
    {workers : List (SourceModule × Worker)} (rest : List (List SourceModule))
    (hover : ¬∀ w ∈ workers, w.2.isOver = true) :
    ∃ workers', Step p jobs ⟨state, r, isCancelled, .within workers rest⟩
      ⟨state, r, isCancelled, .within workers' rest⟩ := by
  by_cases hbusy : ∃ w ∈ workers, w.2.isBusy = true
  · obtain ⟨⟨m, w⟩, hw, hbusy⟩ := hbusy
    obtain ⟨first, last, rfl⟩ := List.append_of_mem hw
    obtain ⟨w', hstep⟩ := Worker.exists_step_of_isBusy hbusy
    exact ⟨_, .work first last hstep⟩
  · -- All places are free then, and whoever is not over waits for one.
    have hnone : ∀ w ∈ workers, ¬w.2.isBusy = true := fun w hw h => hbusy ⟨w, hw, h⟩
    have hplaces : busy workers < jobs := by
      rw [busy, List.countP_eq_zero.mpr hnone]
      exact hjobs
    obtain ⟨⟨m, w⟩, hw, hover⟩ : ∃ w ∈ workers, ¬w.2.isOver = true := by
      simpa only [not_forall, exists_prop] using hover
    cases Worker.eq_waiting (hnone _ hw) hover
    obtain ⟨first, last, rfl⟩ := List.append_of_mem hw
    exact ⟨_, .work first last (.enter hplaces)⟩

theorem steps_checking {state : σ} {r : ProgramReport} {isCancelled : Bool}
    (first last : List (SourceModule × Worker)) {m : SourceModule} {rest : List (List SourceModule)}
    (h : busy (first ++ (m, .waiting) :: last) < jobs) :
    Steps p jobs ⟨state, r, isCancelled, .within (first ++ (m, .waiting) :: last) rest⟩
      ⟨state, r, isCancelled,
        .within (first ++ (m, .checking (loadsOf m r.published)) :: last) rest⟩ := by
  have hread : ∀ (raws : List Text) (loads : NameMap Interface),
      Steps p jobs ⟨state, r, isCancelled, .within (first ++ (m, .reading loads raws) :: last) rest⟩
        ⟨state, r, isCancelled, .within
          (first ++ (m, .checking (raws.foldl (readLoad r.published) loads)) :: last) rest⟩ := by
    intro raws
    induction raws with
    | nil => exact fun loads => .single (.work first last .begin)
    | cons raw raws ih => exact fun loads => .head (.work first last .read) (ih _)
  rw [← foldl_readLoad]
  exact .head (.work first last (.enter h)) (hread _ _)

/-- A run is never stuck before its end. -/
theorem Follows.progress (hjobs : 0 < jobs) {s : CheckRun σ} (h : Follows p start levels s) :
    (∃ result, s.phase = .ended result) ∨ ∃ s', Step p jobs s s' ∧ s'.isCancelled = s.isCancelled := by
  obtain ⟨state, r, isCancelled, phase⟩ := s
  cases phase with
  | before rest =>
      cases rest with
      | nil => exact Or.inr ⟨_, .complete, rfl⟩
      | cons level rest =>
          cases isCancelled with
          | false => exact Or.inr ⟨_, .enter, rfl⟩
          | true => exact Or.inr ⟨_, .abandon, rfl⟩
  | within workers rest =>
      by_cases hover : ∀ w ∈ workers, w.2.isOver = true
      · cases isCancelled with
        | true => exact Or.inr ⟨_, .discard hover, rfl⟩
        | false =>
            obtain ⟨os, hos⟩ := exists_outcomes h.2 hover
            rcases hpublish : p.publish state r os with ⟨_ | _, r', state'⟩
            · exact Or.inr ⟨_, .fail os hos hpublish, rfl⟩
            · exact Or.inr ⟨_, .publish os hos hpublish, rfl⟩
      · obtain ⟨workers', hstep⟩ := exists_work hjobs rest hover
        exact Or.inr ⟨_, hstep, rfl⟩
  | ended result => exact Or.inl ⟨result, rfl⟩

/-- Every run ends: steps use up what a run may take, and until its end some step can be taken without
cancelling it. -/
theorem exists_ended (hjobs : 0 < jobs) {s : CheckRun σ} (h : Steps p jobs (.start start levels) s) :
    ∃ s' result, Steps p jobs s s' ∧ s'.phase = .ended result ∧ s'.isCancelled = s.isCancelled := by
  induction hcost : s.cost using Nat.strongRecOn generalizing s with
  | ind cost ih =>
      rcases (follows_of_steps h).progress hjobs with ⟨result, hended⟩ | ⟨s', hstep, hcancelled⟩
      · exact ⟨s, result, .refl, hended, rfl⟩
      · obtain ⟨e, result, hsteps, hended, he⟩ := ih s'.cost (hcost ▸ hstep.cost_lt) (h.tail hstep) rfl
        exact ⟨e, result, .head hstep hsteps, hended, he.trans hcancelled⟩

end CheckRun

end Gradual
