import Gradual.Proofs.CacheTransparency
import Gradual.Proofs.DependencyLevels
import Gradual.Proofs.NameMaps

/-! What a check publishes. The interfaces of a level are added to those of earlier levels, which stay as they
are. So a module finds what it loads among the interfaces published before its level just as it would among
those published in the end, and without a cache the final report is a fixed point: every outcome is that of
checking the module against the final interfaces. -/

namespace Gradual

namespace ProgramReport

/-- The names of the modules of outcomes. -/
def idsOf (os : List ModuleOutcome) : List Text := os.map fun o => o.module.id

theorem contains_foldl_add {r : ProgramReport} {os : List ModuleOutcome} {id : Text} :
    (os.foldl add r).published.contains id = true ↔ id ∈ idsOf os ∨ r.published.contains id = true := by
  induction os generalizing r with
  | nil => exact ⟨Or.inr, fun h => h.resolve_left List.not_mem_nil⟩
  | cons o os ih =>
      rw [List.foldl_cons, ih, idsOf, idsOf, List.map_cons, List.mem_cons, or_assoc, or_left_comm]
      exact or_congr_right (NameMap.contains_insert r.published o.module.id o.report.interface id)

theorem get?_foldl_add_of_notMem {r : ProgramReport} {os : List ModuleOutcome} {id : Text} (h : id ∉ idsOf os) :
    (os.foldl add r).published.get? id = r.published.get? id := by
  induction os generalizing r with
  | nil => rfl
  | cons o os ih =>
      rw [List.foldl_cons, ih (List.not_mem_of_not_mem_cons h)]
      exact (NameMap.get?_insert r.published o.module.id o.report.interface id).trans
        (if_neg (List.ne_of_not_mem_cons h))

theorem get?_foldl_add_of_mem {r : ProgramReport} {os : List ModuleOutcome} (h : (idsOf os).Nodup)
    {o : ModuleOutcome} (ho : o ∈ os) :
    (os.foldl add r).published.get? o.module.id = some o.report.interface := by
  induction os generalizing r with
  | nil => exact absurd ho List.not_mem_nil
  | cons o' os ih =>
      obtain ⟨hfresh, hos⟩ := List.nodup_cons.mp h
      rcases List.mem_cons.mp ho with rfl | ho
      · rw [List.foldl_cons, get?_foldl_add_of_notMem hfresh]
        exact (NameMap.get?_insert r.published o.module.id o.report.interface _).trans (if_pos rfl)
      · exact ih hos ho

theorem outcomes_foldl_add (r : ProgramReport) (os : List ModuleOutcome) :
    (os.foldl add r).outcomes = r.outcomes ++ os := by
  induction os generalizing r with
  | nil => exact (List.append_nil _).symm
  | cons o os ih =>
      rw [List.foldl_cons, ih, List.append_cons]
      rfl

end ProgramReport

namespace ProgramSetup

variable {σ : Type} {p : ProgramSetup σ}

theorem exists_report_publish (state : σ) (r : ProgramReport) (os : List (Except Text Text × ModuleOutcome)) :
    ∃ added, added <+: os.map Prod.snd ∧ (p.publish state r os).2.1 = added.foldl ProgramReport.add r := by
  induction os generalizing state r with
  | nil => exact ⟨[], List.nil_prefix, rfl⟩
  | cons o os ih =>
      obtain ⟨_ | key, o⟩ := o
      · exact ⟨[], List.nil_prefix, rfl⟩
      · rw [publish]
        split
        · next state' _ =>
          obtain ⟨added, hadded, heq⟩ := ih state' (r.add o)
          exact ⟨o :: added, (List.prefix_cons_inj o).mpr hadded, heq⟩
        · exact ⟨[o], ⟨os.map Prod.snd, rfl⟩, rfl⟩

theorem module_checkModule (state : σ) (published : NameMap Interface) (m : SourceModule) :
    (p.checkModule state published m).module = m := by
  rw [checkModule]
  split <;> rfl

theorem idsOf_outcomesOf (state : σ) (published : NameMap Interface) (level : List SourceModule) :
    ProgramReport.idsOf ((p.outcomesOf state published level).map Prod.snd) = level.map SourceModule.id := by
  rw [ProgramReport.idsOf, outcomesOf, List.map_map, List.map_map]
  exact List.map_congr_left fun m _ => congrArg SourceModule.id (module_checkModule state published m)

theorem get?_publish_outcomesOf (state : σ) (r : ProgramReport) {level : List SourceModule} {id : Text}
    (h : id ∉ level.map SourceModule.id) :
    (p.publish state r (p.outcomesOf state r.published level)).2.1.published.get? id = r.published.get? id := by
  obtain ⟨added, hadded, heq⟩ := exists_report_publish (p := p) state r (p.outcomesOf state r.published level)
  rw [heq]
  refine ProgramReport.get?_foldl_add_of_notMem fun hid => h ?_
  rw [← idsOf_outcomesOf (p := p) state r.published level]
  exact (hadded.map fun o => o.module.id).subset hid

theorem contains_publish (state : σ) {r : ProgramReport} (os : List (Except Text Text × ModuleOutcome)) {id : Text}
    (h : r.published.contains id = true) : (p.publish state r os).2.1.published.contains id = true := by
  obtain ⟨added, -, heq⟩ := exists_report_publish (p := p) state r os
  rw [heq]
  exact ProgramReport.contains_foldl_add.mpr (Or.inr h)

theorem contains_publish_outcomesOf {state : σ} {r : ProgramReport} {level : List SourceModule}
    (h : (p.publish state r (p.outcomesOf state r.published level)).1 = .ok ()) (id : Text) :
    (p.publish state r (p.outcomesOf state r.published level)).2.1.published.contains id = true ↔
      id ∈ level.map SourceModule.id ∨ r.published.contains id = true := by
  rw [report_publish h, ProgramReport.contains_foldl_add, idsOf_outcomesOf]

theorem get?_checkLevels {levels : List (List SourceModule)} {id : Text}
    (h : id ∉ levels.flatten.map SourceModule.id) (state : σ) (r : ProgramReport) (poll : Nat) :
    (p.checkLevels state r poll levels).2.1.published.get? id = r.published.get? id := by
  induction levels generalizing state r poll with
  | nil => rfl
  | cons level rest ih =>
      rw [List.flatten_cons, List.map_append, List.mem_append, not_or] at h
      have hlevel := get?_publish_outcomesOf (p := p) state r h.1
      rw [outcomesOf] at hlevel
      rw [checkLevels]
      split
      · rfl
      · dsimp only
        split
        · next heq =>
          rw [heq] at hlevel
          exact (ih h.2 _ _ _).trans hlevel
        · next heq =>
          rw [heq] at hlevel
          exact hlevel

/-- The interfaces found so far, once one more load was looked up. -/
def readLoad (published loads : NameMap Interface) (raw : Text) : NameMap Interface :=
  match published.get? (moduleName raw) with
  | some i => loads.insert raw i
  | none => loads

theorem get?_readLoad (published loads : NameMap Interface) (raw raw' : Text) :
    (readLoad published loads raw').get? raw =
      if raw = raw' then (published.get? (moduleName raw)).or (loads.get? raw) else loads.get? raw := by
  rw [readLoad]
  split
  · next hfound =>
    rw [NameMap.get?_insert]
    split
    · next heq => rw [heq, hfound, Option.some_or]
    · rfl
  · next hfound =>
    split
    · next heq => rw [heq, hfound, Option.none_or]
    · rfl

theorem get?_foldl_readLoad (published loads : NameMap Interface) (raws : List Text) (raw : Text) :
    (raws.foldl (readLoad published) loads).get? raw =
      if raw ∈ raws then (published.get? (moduleName raw)).or (loads.get? raw) else loads.get? raw := by
  induction raws generalizing loads with
  | nil => rfl
  | cons raw' raws ih =>
      rw [List.foldl_cons, ih, get?_readLoad]
      by_cases heq : raw = raw'
      · rw [if_pos heq, if_pos (List.mem_cons.mpr (Or.inl heq)), ← Option.or_assoc, Option.or_self, ite_self]
      · simp only [List.mem_cons, heq, false_or, if_false]

theorem foldl_readLoad (m : SourceModule) (published : NameMap Interface) :
    ((m.tree.map Module.loads).getD []).foldl (readLoad published) .empty = loadsOf m published := by
  rw [loadsOf, NameMap.ofList, List.foldl_filterMap]
  refine congrArg (fun f => List.foldl f _ _) (funext fun loads => funext fun raw => ?_)
  rw [readLoad]
  cases published.get? (moduleName raw) <;> rfl

theorem get?_loadsOf {m : SourceModule} {t : Module} (ht : m.tree = some t) (published : NameMap Interface)
    (raw : Text) :
    (loadsOf m published).get? raw = if raw ∈ t.loads then published.get? (moduleName raw) else none := by
  rw [← foldl_readLoad, ht, Option.map_some, Option.getD_some, get?_foldl_readLoad]
  exact if_congr Iff.rfl (Option.or_none ..) rfl

theorem loadsOf_congr {m m' : SourceModule} {published published' : NameMap Interface} (htree : m.tree = m'.tree)
    (h : ∀ t, m.tree = some t → ∀ raw ∈ t.loads,
      published.get? (moduleName raw) = published'.get? (moduleName raw)) :
    loadsOf m published = loadsOf m' published' := by
  rw [loadsOf, loadsOf, ← htree]
  cases ht : m.tree with
  | none => rfl
  | some t =>
      refine congrArg NameMap.ofList (List.filterMap_congr fun raw hraw => ?_)
      rw [h t ht raw hraw]

end ProgramSetup

/-! ### Settled reports -/

/-- A module whose list has the names that its tree loads. -/
def SourceModule.ListsLoads (m : SourceModule) : Prop :=
  ∃ t, m.tree = some t ∧ ∀ id, id ∈ m.loads ↔ ∃ raw ∈ t.loads, moduleName raw = id

namespace ProgramReport

open ProgramSetup

variable {σ : Type} {p : ProgramSetup σ} {r : ProgramReport}

/-- A report on levels of modules: each outcome is what checking the module against the published interfaces
tells, and the interfaces of just these modules are published. -/
structure IsSettled (p : ProgramSetup σ) (r : ProgramReport) (levels : List (List SourceModule)) : Prop where
  modules : r.outcomes.map ModuleOutcome.module = levels.flatten
  outcomes : ∀ o ∈ r.outcomes, o = (p.inquiry r.published o.module).outcome
  published : ∀ o ∈ r.outcomes, r.published.get? o.module.id = some o.report.interface
  absent : ∀ id, id ∉ levels.flatten.map SourceModule.id → r.published.get? id = none

theorem isSettled_empty : IsSettled p {} [] where
  modules := rfl
  outcomes _ h := absurd h List.not_mem_nil
  published _ h := absurd h List.not_mem_nil
  absent _ _ := rfl

theorem IsSettled.exists_outcome {levels : List (List SourceModule)} (h : r.IsSettled p levels)
    (hdistinct : (levels.flatten.map SourceModule.id).Nodup) {m : SourceModule} (hm : m ∈ levels.flatten) :
    ∃ o ∈ r.outcomes, o.module = m ∧ o.report = (p.inquiry r.published m).outcome.report ∧
      r.published.get? m.id = some o.report.interface ∧ ∀ o' ∈ r.outcomes, o'.module.id = m.id → o' = o := by
  rw [← h.modules] at hm
  obtain ⟨o, ho, rfl⟩ := List.mem_map.mp hm
  refine ⟨o, ho, rfl, congrArg ModuleOutcome.report (h.outcomes o ho), h.published o ho, fun o' ho' hid => ?_⟩
  rw [← h.modules, List.map_map] at hdistinct
  exact List.inj_on_of_nodup_map hdistinct ho' ho hid

theorem inquiry_foldl_add {m : SourceModule} {os : List ModuleOutcome} (hlists : m.ListsLoads)
    (hnone : ∀ dep ∈ m.loads, dep ∉ idsOf os) :
    p.inquiry (os.foldl add r).published m = p.inquiry r.published m := by
  obtain ⟨t, ht, hlists⟩ := hlists
  have hloads : loadsOf m (os.foldl add r).published = loadsOf m r.published := by
    refine loadsOf_congr rfl fun t' ht' raw hraw => get?_foldl_add_of_notMem (hnone _ ?_)
    cases ht.symm.trans ht'
    exact (hlists _).mpr ⟨raw, hraw, rfl⟩
  rw [inquiry, inquiry, hloads]

theorem IsSettled.append {levels : List (List SourceModule)} {os : List ModuleOutcome} (h : r.IsSettled p levels)
    (hdistinct : (levels.flatten.map SourceModule.id ++ idsOf os).Nodup)
    (hos : ∀ o ∈ os, o = (p.inquiry r.published o.module).outcome)
    (hlists : ∀ o ∈ r.outcomes ++ os, o.module.ListsLoads ∧ ∀ dep ∈ o.module.loads, dep ∉ idsOf os) :
    IsSettled p (os.foldl add r) (levels ++ [os.map ModuleOutcome.module]) where
  modules := by
    rw [outcomes_foldl_add, List.map_append, h.modules, List.flatten_append, List.flatten_singleton]
  outcomes := by
    rw [outcomes_foldl_add]
    intro o ho
    rw [inquiry_foldl_add (hlists o ho).1 (hlists o ho).2]
    exact List.forall_mem_append.mpr ⟨h.outcomes, hos⟩ o ho
  published := by
    rw [outcomes_foldl_add]
    refine List.forall_mem_append.mpr ⟨fun o ho => ?_, fun o ho => get?_foldl_add_of_mem hdistinct.of_append_right ho⟩
    have hid : o.module.id ∈ levels.flatten.map SourceModule.id := by
      rw [← h.modules, List.map_map]
      exact List.mem_map.mpr ⟨o, ho, rfl⟩
    rw [get?_foldl_add_of_notMem (List.disjoint_of_nodup_append hdistinct hid)]
    exact h.published o ho
  absent id hid := by
    rw [List.flatten_append, List.flatten_singleton, List.map_append, List.mem_append, not_or, List.map_map] at hid
    rw [get?_foldl_add_of_notMem hid.2]
    exact h.absent id hid.1

theorem IsSettled.add {before after : List (List SourceModule)} {level modules : List SourceModule}
    (h : r.IsSettled p before) (hlevels : Levelled modules (before ++ level :: after))
    (hlists : ∀ m ∈ modules, m.ListsLoads) :
    IsSettled p ((level.map fun m => (p.inquiry r.published m).outcome).foldl add r) (before ++ [level]) := by
  generalize hos : level.map (fun m => (p.inquiry r.published m).outcome) = os
  have hmodules : os.map ModuleOutcome.module = level := by
    rw [← hos, List.map_map]
    exact List.map_id level
  have hids : idsOf os = level.map SourceModule.id := by
    rw [← hmodules, List.map_map]
    rfl
  have hdistinct : (before.flatten.map SourceModule.id ++ idsOf os).Nodup := by
    have hall := hlevels.distinct
    rw [List.append_cons, List.flatten_append, List.map_append, List.flatten_append, List.flatten_singleton,
      List.map_append] at hall
    rw [hids]
    exact hall.of_append_left
  rw [← hmodules]
  refine h.append hdistinct (fun o ho => ?_) fun o ho => ?_
  · rw [← hos] at ho
    obtain ⟨m, -, rfl⟩ := List.mem_map.mp ho
    rfl
  · have hm : o.module ∈ (before ++ [level]).flatten := by
      rw [List.flatten_append, List.flatten_singleton, ← h.modules, ← hmodules, ← List.map_append]
      exact List.mem_map.mpr ⟨o, ho, rfl⟩
    have hmem : o.module ∈ modules := (hlevels.mem_iff _).mp (by
      rw [List.append_cons, List.flatten_append]
      exact List.mem_append_left _ hm)
    exact ⟨hlists _ hmem, fun dep hdep => hids ▸ hlevels.notMem_of_loads hm hdep⟩

end ProgramReport

/-- Without a cache, and unless it is cancelled, a check succeeds and its report is settled. -/
theorem ProgramSetup.isSettled_checkLevels {σ : Type} {p : ProgramSetup σ} (hgo : ∀ poll, p.isCancelled poll = false)
    {modules : List SourceModule} {before rest : List (List SourceModule)} (hlevels : Levelled modules (before ++ rest))
    (hlists : ∀ m ∈ modules, m.ListsLoads) {r : ProgramReport} (h : r.IsSettled p before) (state : σ) (poll : Nat) :
    ∃ r', p.uncached.checkLevels state r poll rest = (.ok (), r', state) ∧ r'.IsSettled p (before ++ rest) := by
  induction rest generalizing before r poll with
  | nil => exact ⟨r, rfl, (List.append_nil before).symm ▸ h⟩
  | cons level rest ih =>
      have hgo' : ¬(p.isCancelled poll || p.isCancelled (poll + 1)) = true := by
        rw [hgo, hgo]
        exact Bool.false_ne_true
      have hadd := h.add hlevels hlists
      rw [checkLevels_uncached state r hgo' level rest, List.append_cons]
      rw [List.append_cons] at hlevels
      exact ih hlevels hadd (poll + 2)

end Gradual
