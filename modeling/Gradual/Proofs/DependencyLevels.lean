import Gradual.Program.Levels
import Gradual.Proofs.Ensures
import Gradual.Proofs.NameMaps
import Mathlib.Data.List.Nodup

/-! The levels of a program. A module's depth is greater than the depths of its loads that are in the program,
so these lie in earlier levels. Modules that are listed after all that they load can be put into levels. -/

namespace Gradual

theorem mem_of_find? {modules : List SourceModule} {id : Text} {m : SourceModule}
    (h : modules.find? (·.id == id) = some m) : m ∈ modules ∧ m.id = id := by
  have hid : (m.id == id) = true := List.find?_some (p := fun m : SourceModule => m.id == id) h
  exact ⟨List.mem_of_find?_eq_some h, beq_iff_eq.mp hid⟩

namespace Levels

/-! ### Faults -/

theorem firstFault_eq_none_iff {seen : List Text} {modules : List SourceModule} :
    firstFault seen modules = none ↔ (∀ m ∈ modules, m.tree.isSome = true) ∧
      (modules.map SourceModule.id).Nodup ∧ ∀ m ∈ modules, m.id ∉ seen := by
  induction modules generalizing seen with
  | nil => simp [firstFault]
  | cons m modules ih =>
      rw [firstFault]
      split
      · next htree =>
        have hsome : ¬m.tree.isSome = true := by
          rw [Option.isNone_iff_eq_none.mp htree]
          exact Bool.false_ne_true
        simp [hsome]
      · next htree =>
        have hsome : m.tree.isSome = true := Option.isSome_iff_ne_none.mpr fun h => htree (by rw [h]; rfl)
        split
        · next hseen => simp [List.contains_iff_mem.mp hseen]
        · next hseen =>
          have hseen : m.id ∉ seen := fun h => hseen (List.contains_iff_mem.mpr h)
          have hids : m.id ∉ modules.map SourceModule.id ↔ ∀ n ∈ modules, n.id ≠ m.id := by simp
          rw [ih, List.forall_mem_cons, List.forall_mem_cons, List.map_cons, List.nodup_cons, hids]
          constructor
          · rintro ⟨htrees, hnodup, hfresh⟩
            exact ⟨⟨hsome, htrees⟩, ⟨fun n hn heq => hfresh n hn (heq ▸ List.mem_cons_self), hnodup⟩, hseen,
              fun n hn hmem => hfresh n hn (List.mem_cons_of_mem _ hmem)⟩
          · rintro ⟨⟨-, htrees⟩, ⟨hne, hnodup⟩, -, hfresh⟩
            exact ⟨htrees, hnodup, fun n hn hmem => (List.mem_cons.mp hmem).elim (hne n hn) (hfresh n hn)⟩

/-! ### Depths -/

section Depth

variable {deps : Text → List Text} {known known' : Depths}

/-- A number just above the depths of some modules, all of which are known. -/
structure IsJustAbove (known : Depths) (ids : List Text) (d : Nat) : Prop where
  above : ∀ id ∈ ids, ∃ e, known.get? id = some e ∧ e < d
  attained : d = 0 ∨ ∃ id ∈ ids, ∃ e, known.get? id = some e ∧ d = e + 1

theorem IsJustAbove.mono {ids : List Text} {d : Nat} (h : IsJustAbove known ids d)
    (hkeeps : ∀ id e, known.get? id = some e → known'.get? id = some e) : IsJustAbove known' ids d where
  above id hid := by
    obtain ⟨e, he, hlt⟩ := h.above id hid
    exact ⟨e, hkeeps id e he, hlt⟩
  attained := h.attained.imp_right fun ⟨id, hid, e, he, heq⟩ => ⟨id, hid, e, hkeeps id e he, heq⟩

theorem IsJustAbove.append {ids : List Text} {d e : Nat} {id : Text} (h : IsJustAbove known ids d)
    (hid : known.get? id = some e) : IsJustAbove known (ids ++ [id]) (max d (e + 1)) where
  above := by
    refine List.forall_mem_append.mpr ⟨fun other hother => ?_, List.forall_mem_singleton.mpr ⟨e, hid, by omega⟩⟩
    obtain ⟨below, hbelow, hlt⟩ := h.above other hother
    exact ⟨below, hbelow, by omega⟩
  attained := by
    rcases Nat.lt_or_ge (e + 1) d with hlt | hle
    · rw [Nat.max_eq_left (Nat.le_of_lt hlt)]
      exact h.attained.imp_right fun ⟨other, hother, hattained⟩ =>
        ⟨other, List.mem_append_left [id] hother, hattained⟩
    · exact Or.inr ⟨id, List.mem_append_right ids List.mem_cons_self, e, hid, Nat.max_eq_right hle⟩

/-- The depth of every module of known depth is just above those of its loads, which are known. -/
def IsSound (deps : Text → List Text) (known : Depths) : Prop :=
  ∀ id d, known.get? id = some d → IsJustAbove known (deps id) d

theorem isSound_empty {deps : Text → List Text} : IsSound deps .empty := by
  intro _ _ h
  cases h

/-- Depths that are known stay as they are, and those of pending modules are not found on the way. -/
structure Grows (pending : List Text) (known known' : Depths) : Prop where
  keeps : ∀ id d, known.get? id = some d → known'.get? id = some d
  fresh : ∀ id ∈ pending, known.get? id = none → known'.get? id = none

theorem Grows.refl (pending : List Text) (known : Depths) : Grows pending known known :=
  ⟨fun _ _ h => h, fun _ _ h => h⟩

theorem Grows.trans {pending : List Text} {known'' : Depths} (h : Grows pending known known')
    (h' : Grows pending known' known'') : Grows pending known known'' :=
  ⟨fun id d hd => h'.keeps id d (h.keeps id d hd), fun id hid hnone => h'.fresh id hid (h.fresh id hid hnone)⟩

/-- What finding a depth does to the known ones. -/
def Finds (deps : Text → List Text) (pending : List Text) (known : Depths) (id : Text) (r : Nat × Depths) : Prop :=
  IsSound deps r.2 ∧ Grows pending known r.2 ∧ r.2.get? id = some r.1

theorem IsSound.insert {id : Text} {d : Nat} (h : IsSound deps known) (hfresh : known.get? id = none)
    (hdeps : IsJustAbove known (deps id) d) : IsSound deps (known.insert id d) := by
  have hkept : ∀ dep e, known.get? dep = some e → (known.insert id d).get? dep = some e := by
    intro dep e hdep
    have hne : dep ≠ id := by
      rintro rfl
      cases hfresh.symm.trans hdep
    rw [NameMap.get?_insert, if_neg hne, hdep]
  intro other e hother
  rw [NameMap.get?_insert] at hother
  split at hother
  · next heq =>
    cases hother
    exact heq ▸ hdeps.mono hkept
  · exact (h other e hother).mono hkept

theorem Grows.insert {pending : List Text} {id : Text} (h : Grows (id :: pending) known known')
    (hnone : known.get? id = none) (hpending : id ∉ pending) (d : Nat) :
    Grows pending known (known'.insert id d) where
  keeps other e hother := by
    have hne : other ≠ id := by
      rintro rfl
      cases hnone.symm.trans hother
    rw [NameMap.get?_insert, if_neg hne, h.keeps other e hother]
  fresh other hother hnone' := by
    have hne : other ≠ id := fun heq => hpending (heq ▸ hother)
    rw [NameMap.get?_insert, if_neg hne, h.fresh other (List.mem_cons_of_mem id hother) hnone']

theorem ensures_depth (fuel : Nat) {pending : List Text} (h : IsSound deps known) (id : Text) :
    Ensures (depth deps fuel pending known id) (Finds deps pending known id) := by
  induction fuel generalizing pending known id with
  | zero => exact .error _
  | succ fuel ih =>
      rw [depth]
      split
      · next d hd => exact .ok ⟨h, .refl pending known, hd⟩
      · next hnone =>
        split
        · exact .error _
        · next hpending =>
          have hpending : id ∉ pending := fun hmem => hpending (List.contains_iff_mem.mpr hmem)
          -- After some of the loads, the depths of these are known, and the number found is just above them.
          let Passed (done : List Text) (r : Nat × Depths) : Prop := IsSound deps r.2 ∧
            Grows (id :: pending) known r.2 ∧ IsJustAbove r.2 done r.1
          have hstart : Passed [] (0, known) :=
            ⟨h, .refl _ known, List.forall_mem_nil _, Or.inl rfl⟩
          have hstep : ∀ dep ∈ deps id, ∀ done r, Passed done r → Ensures (do
              let found ← depth deps fuel (id :: pending) r.2 dep
              return (max r.1 (found.1 + 1), found.2)) (Passed (done ++ [dep])) := by
            rintro dep - done ⟨d, known₁⟩ ⟨hsound, hgrows, hdone⟩
            refine (ih hsound dep).bind fun r hr => .pure ?_
            obtain ⟨hsound', hgrows', hdep⟩ := hr
            exact ⟨hsound', hgrows.trans hgrows', (hdone.mono hgrows'.keeps).append hdep⟩
          refine (Ensures.foldlM hstart hstep).bind fun r hr => .pure ?_
          obtain ⟨hsound, hgrows, hdeps⟩ := hr
          have hfresh := hgrows.fresh id List.mem_cons_self hnone
          refine ⟨hsound.insert hfresh hdeps, hgrows.insert hnone hpending r.1, ?_⟩
          rw [NameMap.get?_insert, if_pos rfl]

end Depth

theorem mem_within {modules : List SourceModule} (hids : (modules.map SourceModule.id).Nodup) {m : SourceModule}
    (hm : m ∈ modules) {dep : Text} :
    dep ∈ within modules m.id ↔ dep ∈ m.loads ∧ dep ∈ modules.map SourceModule.id := by
  have hfind : modules.find? (·.id == m.id) = some m := by
    cases hfound : modules.find? (·.id == m.id) with
    | none => exact absurd (beq_self_eq_true m.id) (List.find?_eq_none.mp hfound m hm)
    | some n =>
        obtain ⟨hn, hid⟩ := mem_of_find? hfound
        rw [List.inj_on_of_nodup_map hids hn hm hid]
  have hany : modules.any (·.id == dep) = true ↔ dep ∈ modules.map SourceModule.id := by
    simp [List.any_eq_true]
  rw [within, hfind]
  show dep ∈ m.loads.filter _ ↔ _
  rw [List.mem_filter, hany]

theorem ensures_depths (modules : List SourceModule) :
    Ensures (depths modules) fun known => IsSound (within modules) known ∧
      ∀ m ∈ modules, ∃ d, known.get? m.id = some d := by
  let Passed (done : List SourceModule) (known : Depths) : Prop := IsSound (within modules) known ∧
    ∀ m ∈ done, ∃ d, known.get? m.id = some d
  have hstart : Passed [] .empty := ⟨isSound_empty, List.forall_mem_nil _⟩
  have hstep : ∀ m ∈ modules, ∀ done known, Passed done known → Ensures (do
      let found ← depth (within modules) (modules.length + 1) [] known m.id
      return found.2) (Passed (done ++ [m])) := by
    rintro m - done known ⟨hsound, hdone⟩
    refine (ensures_depth _ hsound m.id).bind fun r hr => .pure ?_
    obtain ⟨hsound', hgrows, hm⟩ := hr
    refine ⟨hsound', List.forall_mem_append.mpr ⟨fun n hn => ?_, List.forall_mem_singleton.mpr ⟨r.1, hm⟩⟩⟩
    obtain ⟨d, hd⟩ := hdone n hn
    exact ⟨d, hgrows.keeps n.id d hd⟩
  exact Ensures.foldlM hstart hstep

/-! ### Levels -/

theorem le_foldl_max {α : Type} (f : α → Nat) (as : List α) (n : Nat) :
    n ≤ as.foldl (fun h a => max h (f a)) n ∧ ∀ a ∈ as, f a ≤ as.foldl (fun h a => max h (f a)) n := by
  induction as generalizing n with
  | nil => exact ⟨Nat.le_refl n, List.forall_mem_nil _⟩
  | cons a as ih =>
      obtain ⟨hstart, hrest⟩ := ih (max n (f a))
      exact ⟨Nat.le_trans (Nat.le_max_left _ _) hstart,
        List.forall_mem_cons.mpr ⟨Nat.le_trans (Nat.le_max_right _ _) hstart, hrest⟩⟩

section ByDepth

variable {modules : List SourceModule} {known : Depths}

def height (modules : List SourceModule) (known : Depths) : Nat :=
  modules.foldl (fun h m => max h (depthOf known m + 1)) 0

theorem depthOf_of_get? {m : SourceModule} {d : Nat} (h : known.get? m.id = some d) : depthOf known m = d := by
  rw [depthOf, h, Option.getD_some]

theorem depthOf_lt_height {m : SourceModule} (hm : m ∈ modules) : depthOf known m < height modules known :=
  (le_foldl_max (fun m => depthOf known m + 1) modules 0).2 m hm

theorem getElem?_byDepth (k : Nat) : (byDepth modules known)[k]? =
    if k < height modules known then some (modules.filter fun m => depthOf known m == k) else none := by
  show ((List.range (height modules known)).map _)[k]? = _
  rw [List.getElem?_map]
  split
  · next hlt => rw [List.getElem?_range hlt, Option.map_some]
  · next hge => rw [List.getElem?_eq_none (by rw [List.length_range]; omega), Option.map_none]

theorem mem_of_getElem?_byDepth {k : Nat} {level : List SourceModule} (h : (byDepth modules known)[k]? = some level)
    {m : SourceModule} : m ∈ level ↔ m ∈ modules ∧ depthOf known m = k := by
  rw [getElem?_byDepth] at h
  split at h
  · cases h
    rw [List.mem_filter, beq_iff_eq]
  · cases h

theorem mem_flatten_byDepth {m : SourceModule} : m ∈ (byDepth modules known).flatten ↔ m ∈ modules := by
  rw [List.mem_flatten]
  constructor
  · rintro ⟨level, hlevel, hm⟩
    obtain ⟨k, hk⟩ := List.mem_iff_getElem?.mp hlevel
    exact ((mem_of_getElem?_byDepth hk).mp hm).1
  · intro hm
    have hget : (byDepth modules known)[depthOf known m]? = some _ :=
      (getElem?_byDepth _).trans (if_pos (depthOf_lt_height hm))
    exact ⟨_, List.mem_of_getElem? hget, (mem_of_getElem?_byDepth hget).mpr ⟨hm, rfl⟩⟩

theorem nodup_flatten_byDepth (h : modules.Nodup) : (byDepth modules known).flatten.Nodup := by
  refine List.nodup_flatten.mpr ⟨fun level hlevel => ?_, ?_⟩
  · obtain ⟨d, -, rfl⟩ := List.mem_map.mp hlevel
    exact h.filter _
  · refine List.pairwise_map.mpr ((List.nodup_range).imp fun {d e} hne => ?_)
    intro m hd he
    have hd : depthOf known m = d := beq_iff_eq.mp (List.mem_filter.mp hd).2
    have he : depthOf known m = e := beq_iff_eq.mp (List.mem_filter.mp he).2
    exact hne (hd.symm.trans he)

end ByDepth

end Levels

/-- What is known of modules that were put into levels. -/
structure Levelled (modules : List SourceModule) (levels : List (List SourceModule)) : Prop where
  trees : ∀ m ∈ modules, m.tree.isSome = true
  ids : (modules.map SourceModule.id).Nodup
  mem_iff : ∀ m, m ∈ levels.flatten ↔ m ∈ modules
  distinct : (levels.flatten.map SourceModule.id).Nodup
  earlier : ∀ before level after, levels = before ++ level :: after → ∀ m ∈ level, ∀ n ∈ modules,
    n.id ∈ m.loads → n ∈ before.flatten

open Levels in
theorem levelled_of_dependencyLevels {modules : List SourceModule} {levels : List (List SourceModule)}
    (h : dependencyLevels modules = .ok levels) : Levelled modules levels := by
  rw [dependencyLevels] at h
  split at h
  · cases h
  · next hfault =>
    obtain ⟨htrees, hids, -⟩ := firstFault_eq_none_iff.mp hfault
    cases hdepths : depths modules with
    | error e =>
        rw [hdepths] at h
        cases h
    | ok known =>
        rw [hdepths] at h
        cases h
        obtain ⟨hsound, hknown⟩ := ensures_depths modules known hdepths
        have hmem : ∀ m, m ∈ (byDepth modules known).flatten ↔ m ∈ modules := fun _ => mem_flatten_byDepth
        refine ⟨htrees, hids, hmem, ?_, ?_⟩
        · refine List.Nodup.map_on (fun m hm n hn heq => ?_) (nodup_flatten_byDepth hids.of_map)
          exact List.inj_on_of_nodup_map hids ((hmem m).mp hm) ((hmem n).mp hn) heq
        · intro before level after hsplit m hm n hn hload
          have hlevel : (byDepth modules known)[before.length]? = some level := by
            rw [hsplit, List.getElem?_append_right (Nat.le_refl _), Nat.sub_self, List.getElem?_cons_zero]
          obtain ⟨hm, hdepth⟩ := (mem_of_getElem?_byDepth hlevel).mp hm
          obtain ⟨d, hd⟩ := hknown m hm
          have hdep := (mem_within hids hm).mpr ⟨hload, List.mem_map_of_mem hn⟩
          obtain ⟨e, he, hlt⟩ := (hsound m.id d hd).above n.id hdep
          have hmd : depthOf known m = d := depthOf_of_get? hd
          have hne : depthOf known n = e := depthOf_of_get? he
          have hbefore : e < before.length := by omega
          have hget : (byDepth modules known)[e]? = some _ :=
            (getElem?_byDepth e).trans (if_pos (hne ▸ depthOf_lt_height hn))
          refine List.mem_flatten.mpr ⟨_, ?_, (mem_of_getElem?_byDepth hget).mpr ⟨hn, hne⟩⟩
          rw [hsplit, List.getElem?_append_left hbefore] at hget
          exact List.mem_of_getElem? hget

/-! ### Modules in the order of their loads -/

theorem Levelled.notMem_of_loads {modules : List SourceModule} {before after : List (List SourceModule)}
    {level : List SourceModule} (h : Levelled modules (before ++ level :: after)) {m : SourceModule}
    (hm : m ∈ (before ++ [level]).flatten) {dep : Text} (hdep : dep ∈ m.loads) : dep ∉ level.map SourceModule.id := by
  intro hlevel
  obtain ⟨n, hn, rfl⟩ := List.mem_map.mp hlevel
  have hmem : n ∈ modules := (h.mem_iff n).mp (by
    rw [List.flatten_append, List.flatten_cons]
    exact List.mem_append_right _ (List.mem_append_left _ hn))
  have hdistinct := h.distinct
  rw [List.flatten_append, List.map_append] at hdistinct
  suffices hbefore : n ∈ before.flatten by
    refine List.disjoint_of_nodup_append hdistinct (List.mem_map.mpr ⟨n, hbefore, rfl⟩) ?_
    rw [List.flatten_cons, List.map_append]
    exact List.mem_append_left _ hlevel
  -- The level of a module has only earlier levels before it, and those are before this one.
  obtain ⟨level', hlevel', hmlevel⟩ := List.mem_flatten.mp hm
  rcases List.mem_append.mp hlevel' with hlevel' | hlevel'
  · obtain ⟨first, last, rfl⟩ := List.append_of_mem hlevel'
    have hfirst := h.earlier first level' (last ++ level :: after) (List.append_assoc first _ _) m hmlevel n hmem hdep
    rw [List.flatten_append]
    exact List.mem_append_left _ hfirst
  · cases List.mem_singleton.mp hlevel'
    exact h.earlier before _ after rfl m hmlevel n hmem hdep

/-- Every module is listed after its loads that are listed. -/
def LoadsFirst (modules : List SourceModule) : Prop :=
  ∀ before m after, modules = before ++ m :: after →
    ∀ dep ∈ m.loads, dep ∈ modules.map SourceModule.id → dep ∈ before.map SourceModule.id

namespace Levels

theorem depth_of_known {deps : Text → List Text} {known : Depths} {id : Text}
    (h : ∀ dep ∈ deps id, ∃ e, known.get? dep = some e) (fuel : Nat) :
    ∃ r, depth deps (fuel + 2) [] known id = .ok r := by
  have hdep : ∀ {dep e}, known.get? dep = some e → depth deps (fuel + 1) [id] known dep = .ok (e, known) := by
    intro dep e he
    rw [depth, he]
  have hfold : ∀ (ds : List Text) (d : Nat), (∀ dep ∈ ds, ∃ e, known.get? dep = some e) →
      ∃ d', ds.foldlM (fun (r : Nat × Depths) dep => do
        let found ← depth deps (fuel + 1) [id] r.2 dep
        return (max r.1 (found.1 + 1), found.2)) (d, known) = .ok (d', known) := by
    intro ds
    induction ds with
    | nil => exact fun d _ => ⟨d, rfl⟩
    | cons dep ds ih =>
        intro d hds
        obtain ⟨⟨e, he⟩, hds⟩ := List.forall_mem_cons.mp hds
        obtain ⟨d', hd'⟩ := ih (max d (e + 1)) hds
        refine ⟨d', ?_⟩
        rw [List.foldlM_cons]
        simp only [hdep he]
        exact hd'
  rw [depth]
  split
  · exact ⟨_, rfl⟩
  · obtain ⟨d', hd'⟩ := hfold (deps id) 0 h
    refine ⟨(d', known.insert id d'), ?_⟩
    show (List.foldlM _ (0, known) (deps id) >>= fun r => pure (r.1, r.2.insert id r.1)) = _
    rw [hd']
    rfl

theorem exists_depths {modules : List SourceModule} (hids : (modules.map SourceModule.id).Nodup)
    (h : LoadsFirst modules) : ∃ known, depths modules = .ok known := by
  have hrest : ∀ (rest done : List SourceModule) (known : Depths), modules = done ++ rest →
      IsSound (within modules) known → (∀ m ∈ done, ∃ d, known.get? m.id = some d) →
      ∃ known', rest.foldlM (fun known m => do
        let found ← depth (within modules) (modules.length + 1) [] known m.id
        return found.2) known = .ok known' := by
    intro rest
    induction rest with
    | nil => exact fun _ known _ _ _ => ⟨known, rfl⟩
    | cons m rest ih =>
        intro done known hsplit hsound hdone
        have hm : m ∈ modules := hsplit ▸ List.mem_append_right done List.mem_cons_self
        have hdeps : ∀ dep ∈ within modules m.id, ∃ e, known.get? dep = some e := by
          intro dep hdep
          obtain ⟨hload, hin⟩ := (mem_within hids hm).mp hdep
          obtain ⟨n, hn, rfl⟩ := List.mem_map.mp (h done m rest hsplit dep hload hin)
          exact hdone n hn
        obtain ⟨fuel, hfuel⟩ : ∃ fuel, modules.length = fuel + 1 :=
          Nat.exists_eq_succ_of_ne_zero (Nat.ne_of_gt (List.length_pos_of_mem hm))
        obtain ⟨r, hr⟩ := depth_of_known hdeps fuel
        rw [← Nat.succ_eq_add_one (fuel + 1), ← hfuel] at hr
        obtain ⟨hsound', hgrows, hfound⟩ := ensures_depth _ hsound m.id r hr
        obtain ⟨known', hknown'⟩ := ih (done ++ [m]) r.2 (by rw [hsplit, List.append_cons]) hsound'
          (List.forall_mem_append.mpr ⟨fun n hn => by
            obtain ⟨d, hd⟩ := hdone n hn
            exact ⟨d, hgrows.keeps n.id d hd⟩, List.forall_mem_singleton.mpr ⟨r.1, hfound⟩⟩)
        refine ⟨known', ?_⟩
        rw [List.foldlM_cons]
        simp only [hr]
        exact hknown'
  exact hrest modules [] .empty rfl isSound_empty (List.forall_mem_nil _)

end Levels

theorem exists_dependencyLevels {modules : List SourceModule} (htrees : ∀ m ∈ modules, m.tree.isSome = true)
    (hids : (modules.map SourceModule.id).Nodup) (h : LoadsFirst modules) :
    ∃ levels, dependencyLevels modules = .ok levels := by
  obtain ⟨known, hknown⟩ := Levels.exists_depths hids h
  refine ⟨Levels.byDepth modules known, ?_⟩
  rw [dependencyLevels, Levels.firstFault_eq_none_iff.mpr ⟨htrees, hids, fun _ _ => List.not_mem_nil⟩, hknown]
  rfl

end Gradual
