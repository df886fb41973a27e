import Gradual.Program.Load
import Gradual.Proofs.DependencyLevels
import Gradual.Proofs.NameMaps

/-! Loaded programs. A module is put after those that it loads, each once, and a name without a file is never
the name of a module. So the modules of a loaded program can be put into levels. -/

namespace Gradual

namespace ModuleRoot

variable {r : ModuleRoot} {d : Disk}

/-- A module as its file has it: what it loads are the names that its tree loads. -/
def IsRead (m : SourceModule) : Prop := ∃ t, m.tree = some t ∧ m.loads = loadsOf t

theorem isRead_of_readModule {id : Text} {m : SourceModule} (h : r.readModule d id = .ok (some m)) :
    m.id = id ∧ IsRead m := by
  simp only [readModule] at h
  split at h
  · split at h <;> cases h
  · split at h
    · cases h
    · next t _ =>
      cases h
      exact ⟨rfl, t, rfl, rfl⟩

namespace Loaded

variable {l l' : Loaded}

theorem isDone_iff {id : Text} :
    l.isDone id = true ↔ id ∈ l.modules.map SourceModule.id ∨ l.missing.contains id = true := by
  rw [isDone, Bool.or_eq_true, List.any_eq_true, List.mem_map]
  simp only [beq_iff_eq]

/-- What is known of the modules loaded so far. -/
structure IsSound (l : Loaded) : Prop where
  read : ∀ m ∈ l.modules, IsRead m
  ids : (l.modules.map SourceModule.id).Nodup
  found : ∀ id ∈ l.modules.map SourceModule.id, ¬l.missing.contains id = true
  first : ∀ before m after, l.modules = before ++ m :: after → ∀ dep ∈ m.loads,
    dep ∈ before.map SourceModule.id ∨ l.missing.contains dep = true

theorem isSound_empty : IsSound {} where
  read _ h := absurd h List.not_mem_nil
  ids := List.nodup_nil
  found _ h := absurd h List.not_mem_nil
  first before m after h := by cases before <;> cases h

/-- What is done stays done, and pending modules are not done on the way. -/
structure Grows (pending : List Text) (l l' : Loaded) : Prop where
  keeps : ∀ id, l.isDone id = true → l'.isDone id = true
  fresh : ∀ id ∈ pending, ¬l.isDone id = true → ¬l'.isDone id = true

theorem Grows.refl (pending : List Text) (l : Loaded) : Grows pending l l := ⟨fun _ h => h, fun _ _ h => h⟩

theorem Grows.trans {pending : List Text} {l'' : Loaded} (h : Grows pending l l') (h' : Grows pending l' l'') :
    Grows pending l l'' :=
  ⟨fun id hid => h'.keeps id (h.keeps id hid), fun id hid hdone => h'.fresh id hid (h.fresh id hid hdone)⟩

theorem Grows.add {pending : List Text} {id : Text} {l'' : Loaded} (h : Grows (id :: pending) l l')
    (hid : id ∉ pending) (hdone : ∀ other, l''.isDone other = true ↔ other = id ∨ l'.isDone other = true) :
    Grows pending l l'' where
  keeps other hother := (hdone other).mpr (Or.inr (h.keeps other hother))
  fresh other hother hnot hdone' := by
    rcases (hdone other).mp hdone' with rfl | hdone'
    · exact hid hother
    · exact h.fresh other (List.mem_cons_of_mem id hother) hnot hdone'

theorem IsSound.addMissing {id : Text} (h : l.IsSound) (hid : ¬l.isDone id = true) :
    IsSound { l with missing := l.missing.insert id () } where
  read := h.read
  ids := h.ids
  found other hother hcontains := by
    rcases (NameMap.contains_insert l.missing id () other).mp hcontains with rfl | hcontains
    · exact hid (isDone_iff.mpr (Or.inl hother))
    · exact h.found other hother hcontains
  first before m after hsplit dep hdep :=
    (h.first before m after hsplit dep hdep).imp_right fun hcontains =>
      (NameMap.contains_insert l.missing id () dep).mpr (Or.inr hcontains)

theorem isDone_addMissing (l : Loaded) (id other : Text) :
    isDone { l with missing := l.missing.insert id () } other = true ↔ other = id ∨ l.isDone other = true := by
  rw [isDone_iff, isDone_iff, NameMap.contains_insert]
  exact or_left_comm

theorem IsSound.addModule {m : SourceModule} (h : l.IsSound) (hm : ¬l.isDone m.id = true) (hread : IsRead m)
    (hloads : ∀ dep ∈ m.loads, l.isDone dep = true) : IsSound { l with modules := l.modules ++ [m] } where
  read := List.forall_mem_append.mpr ⟨h.read, List.forall_mem_singleton.mpr hread⟩
  ids := by
    rw [List.map_append]
    refine List.nodup_append.mpr ⟨h.ids, List.nodup_singleton _, ?_⟩
    rintro id hid _ hsingle rfl
    rw [List.mem_singleton.mp hsingle] at hid
    exact hm (isDone_iff.mpr (Or.inl hid))
  found := by
    rw [List.map_append]
    refine List.forall_mem_append.mpr ⟨h.found, List.forall_mem_singleton.mpr fun hcontains => ?_⟩
    exact hm (isDone_iff.mpr (Or.inr hcontains))
  first before n after hsplit dep hdep := by
    rcases List.eq_nil_or_concat after with rfl | ⟨after, last, rfl⟩
    · obtain ⟨rfl, hlast⟩ := List.append_inj' hsplit rfl
      cases hlast
      exact isDone_iff.mp (hloads dep hdep)
    · rw [List.concat_eq_append, ← List.cons_append, ← List.append_assoc] at hsplit
      exact h.first before n after (List.append_inj' hsplit rfl).1 dep hdep

theorem isDone_addModule (l : Loaded) (m : SourceModule) (other : Text) :
    isDone { l with modules := l.modules ++ [m] } other = true ↔ other = m.id ∨ l.isDone other = true := by
  rw [isDone_iff, isDone_iff, List.map_append, List.mem_append, List.map_singleton, List.mem_singleton, or_right_comm]
  exact or_comm

/-- What is kept when a name without a file is added, and when a module is added after those that it loads, as long
as only names are sought that are asked for, and with a module all that it loads is. -/
structure Kept (r : ModuleRoot) (d : Disk) (asked : Text → Prop) (I : Loaded → Prop) : Prop where
  asks : ∀ m, asked m.id → r.readModule d m.id = .ok (some m) → ∀ dep ∈ m.loads, asked dep
  missing : ∀ l id, I l → asked id → ¬l.isDone id = true → r.readModule d id = .ok none →
    I { l with missing := l.missing.insert id () }
  module : ∀ l m, I l → asked m.id → ¬l.isDone m.id = true → r.readModule d m.id = .ok (some m) →
    (∀ dep ∈ m.loads, l.isDone dep = true) → I { l with modules := l.modules ++ [m] }

theorem kept_isSound (r : ModuleRoot) (d : Disk) : Kept r d (fun _ => True) IsSound where
  asks _ _ _ _ _ := trivial
  missing _ _ h _ hid _ := h.addMissing hid
  module _ _ h _ hm hread hloads := h.addModule hm (isRead_of_readModule hread).2 hloads

end Loaded

section Kept

variable {asked : Text → Prop} {I : Loaded → Prop}

theorem ensures_load (hkept : Loaded.Kept r d asked I) (fuel : Nat) {pending : List Text} {l : Loaded} (h : I l)
    {id : Text} (hid : asked id) :
    Ensures (r.load d fuel pending l id) fun l' => I l' ∧ l.Grows pending l' ∧ l'.isDone id = true := by
  induction fuel generalizing pending l id with
  | zero => exact .error _
  | succ fuel ih =>
      rw [load]
      split
      · next hdone => exact .ok ⟨h, .refl pending l, hdone⟩
      · next hdone =>
        split
        · exact .error _
        · next hpending =>
          have hpending : id ∉ pending := fun hmem => hpending (List.contains_iff_mem.mpr hmem)
          split
          · exact .error _
          · next hread =>
            have hadd := Loaded.isDone_addMissing l id
            exact .ok ⟨hkept.missing l id h hid hdone hread, (Loaded.Grows.refl _ l).add hpending hadd,
              (hadd id).mpr (Or.inl rfl)⟩
          · next m hread =>
            obtain ⟨rfl, -⟩ := isRead_of_readModule hread
            -- After some of its loads, each of those is done.
            let Passed (done : List Text) (l' : Loaded) : Prop := I l' ∧ l.Grows (m.id :: pending) l' ∧
              ∀ dep ∈ done, l'.isDone dep = true
            have hstart : Passed [] l := ⟨h, .refl _ l, List.forall_mem_nil _⟩
            have hstep : ∀ dep ∈ m.loads, ∀ done l', Passed done l' → Ensures
                (if dep = m.id then .error (.selfLoad m.id) else r.load d fuel (m.id :: pending) l' dep)
                (Passed (done ++ [dep])) := by
              rintro dep hdep done l' ⟨hl', hgrows, hdone⟩
              split
              · exact .error _
              · intro l'' hload
                obtain ⟨hl'', hgrows', hdone'⟩ := ih hl' (hkept.asks m hid hread dep hdep) l'' hload
                exact ⟨hl'', hgrows.trans hgrows', List.forall_mem_append.mpr
                  ⟨fun other hother => hgrows'.keeps other (hdone other hother),
                    List.forall_mem_singleton.mpr hdone'⟩⟩
            refine (Ensures.foldlM hstart hstep).bind fun l' hl' => .pure ?_
            obtain ⟨hl', hgrows, hloads⟩ := hl'
            have hfresh := hgrows.fresh m.id List.mem_cons_self hdone
            have hadd := Loaded.isDone_addModule l' m
            exact ⟨hkept.module l' m hl' hid hfresh hread hloads, hgrows.add hpending hadd,
              (hadd m.id).mpr (Or.inl rfl)⟩

theorem ensures_loadEach (hkept : Loaded.Kept r d asked I) (hempty : I {}) {ids : List Text}
    (hids : ∀ id ∈ ids, asked id) :
    Ensures (r.loadEach d ids) fun l => I l ∧ ∀ id ∈ ids, l.isDone id = true := by
  let Passed (done : List Text) (l : Loaded) : Prop := I l ∧ ∀ id ∈ done, l.isDone id = true
  have hstart : Passed [] {} := ⟨hempty, List.forall_mem_nil _⟩
  have hstep : ∀ id ∈ ids, ∀ done l, Passed done l →
      Ensures (r.load d (loadCount d + 2) [] l id) (Passed (done ++ [id])) := by
    rintro id hid done l ⟨hl, hdone⟩ l' hload
    obtain ⟨hl', hgrows, hdone'⟩ := ensures_load hkept _ hl (hids id hid) l' hload
    exact ⟨hl', List.forall_mem_append.mpr ⟨fun other hother => hgrows.keeps other (hdone other hother),
      List.forall_mem_singleton.mpr hdone'⟩⟩
  exact Ensures.foldlM hstart hstep

end Kept

theorem isSound_of_loadEach {ids : List Text} {l : Loaded} (h : r.loadEach d ids = .ok l) : l.IsSound :=
  (ensures_loadEach (Loaded.kept_isSound r d) Loaded.isSound_empty (fun _ _ => trivial) l h).1

/-- A program of what was loaded soundly. -/
def IsSoundProgram (p : Program) : Prop := ∃ l : Loaded, l.IsSound ∧ p.modules = l.modules

theorem ensures_program (entry : Text) : Ensures (r.program d entry) IsSoundProgram := by
  rw [program]
  split
  · exact .error _
  · refine Ensures.bind (fun _ => isSound_of_loadEach) fun l hl => ?_
    split
    · exact .pure ⟨l, hl, rfl⟩
    · exact .error _

theorem ensures_wholeProgram : Ensures (r.wholeProgram d) IsSoundProgram :=
  Ensures.bind (fun _ => isSound_of_loadEach) fun l hl => .pure ⟨l, hl, rfl⟩

end ModuleRoot

/-- A program that was loaded: that of a module and what it needs, or that of all modules below a root. -/
inductive Program.IsLoaded (r : ModuleRoot) (d : Disk) (p : Program) : Prop
  | entry (entry : Text) (h : r.program d entry = .ok p)
  | whole (h : r.wholeProgram d = .ok p)

namespace Program.IsLoaded

variable {r : ModuleRoot} {d : Disk} {p : Program}

theorem isSoundProgram (h : p.IsLoaded r d) : ModuleRoot.IsSoundProgram p := by
  cases h with
  | entry entry h => exact ModuleRoot.ensures_program entry p h
  | whole h => exact ModuleRoot.ensures_wholeProgram p h

theorem levels (h : p.IsLoaded r d) :
    (∃ levels, dependencyLevels p.modules = .ok levels) ∧ ∀ m ∈ p.modules, ModuleRoot.IsRead m := by
  obtain ⟨l, hl, hmodules⟩ := h.isSoundProgram
  rw [hmodules]
  refine ⟨exists_dependencyLevels (fun m hm => ?_) hl.ids fun before m after hsplit dep hdep hin => ?_, hl.read⟩
  · obtain ⟨t, ht, -⟩ := hl.read m hm
    rw [ht]
    rfl
  · exact (hl.first before m after hsplit dep hdep).resolve_right (hl.found dep hin)

end Program.IsLoaded

end Gradual
