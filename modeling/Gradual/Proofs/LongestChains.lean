import Gradual.Proofs.DependencyLevels
import Gradual.Proofs.SearchPaths
import Mathlib.Order.Bounds.Defs

/-! The levels of a program are exact. The level of a module is the length of the longest chain of loads within the
program that starts at it. Modules can be put into levels unless one has no tree, two have one name, or a chain of
loads comes back to its start, and a cycle that is reported goes through the module that it names. The search for a
depth never comes to the bound on its steps down, since the modules on its way are distinct. -/

namespace Gradual

open Relation

/-- One module of a program loads another one. -/
def LoadsWithin (modules : List SourceModule) (id dep : Text) : Prop :=
  ∃ m ∈ modules, m.id = id ∧ dep ∈ m.loads ∧ dep ∈ modules.map SourceModule.id

namespace LoadsWithin

variable {modules : List SourceModule} {id dep : Text}

theorem mem_left (h : LoadsWithin modules id dep) : id ∈ modules.map SourceModule.id := by
  obtain ⟨m, hm, rfl, -⟩ := h
  exact List.mem_map_of_mem hm

theorem mem_right (h : LoadsWithin modules id dep) : dep ∈ modules.map SourceModule.id := by
  obtain ⟨-, -, -, -, hin⟩ := h
  exact hin

end LoadsWithin

namespace Levels

theorem loadsWithin_of_mem_within {modules : List SourceModule} {id dep : Text} (h : dep ∈ within modules id) :
    LoadsWithin modules id dep := by
  unfold within at h
  split at h
  · next m hm =>
    obtain ⟨hload, hin⟩ := List.mem_filter.mp h
    obtain ⟨hmem, hid⟩ := mem_of_find? hm
    obtain ⟨n, hn, hdep⟩ := List.any_eq_true.mp hin
    exact ⟨m, hmem, hid, hload, List.mem_map.mpr ⟨n, hn, beq_iff_eq.mp hdep⟩⟩
  · cases h

theorem within_eq_loadsWithin {modules : List SourceModule} (hids : (modules.map SourceModule.id).Nodup) :
    (fun id dep => dep ∈ within modules id) = LoadsWithin modules := by
  funext id dep
  refine propext ⟨loadsWithin_of_mem_within, ?_⟩
  rintro ⟨m, hm, rfl, hload, hin⟩
  exact (mem_within hids hm).mpr ⟨hload, hin⟩

/-! ### The search -/

section Search

variable {deps : Text → List Text} {names pending : List Text} {fuel : Nat} {id : Text}

theorem failsWith_depth (hnames : ∀ id dep, dep ∈ deps id → id ∈ names)
    (h : SearchPath (fun id dep => dep ∈ deps id) names fuel pending id) (known : Depths) :
    FailsWith (depth deps fuel pending known id) fun e =>
      ∃ c, e = .cycle c ∧ TransGen (fun id dep => dep ∈ deps id) c c := by
  induction fuel generalizing pending known id with
  | zero => exact absurd rfl h.fuel_ne_zero
  | succ fuel ih =>
      rw [depth]
      split
      · exact .ok _
      · split
        · next hpending => exact .error ⟨id, rfl, h.leads id (List.contains_iff_mem.mp hpending)⟩
        · next hpending =>
          have hpending : id ∉ pending := fun hmem => hpending (List.contains_iff_mem.mpr hmem)
          refine (FailsWith.foldlM (fun dep hdep r => ?_) _).bind fun _ => .ok _
          exact (ih (h.down hpending (hnames id dep hdep) hdep) r.2).bind fun _ => .ok _

theorem foldlM_congr_of_mem {ε α β : Type} {f g : β → α → Except ε β} {as : List α}
    (h : ∀ a ∈ as, ∀ b, f b a = g b a) (b : β) : as.foldlM f b = as.foldlM g b := by
  induction as generalizing b with
  | nil => rfl
  | cons a as ih =>
      obtain ⟨ha, has⟩ := List.forall_mem_cons.mp h
      rw [List.foldlM_cons, List.foldlM_cons, ha b]
      exact congrArg _ (funext (ih has))

/-- Room for another step down changes nothing. -/
theorem depth_more (hnames : ∀ id dep, dep ∈ deps id → id ∈ names)
    (h : SearchPath (fun id dep => dep ∈ deps id) names fuel pending id) (known : Depths) :
    depth deps (fuel + 1) pending known id = depth deps fuel pending known id := by
  induction fuel generalizing pending known id with
  | zero => exact absurd rfl h.fuel_ne_zero
  | succ fuel ih =>
      rw [depth, depth]
      split
      · rfl
      · split
        · rfl
        · next hpending =>
          have hpending : id ∉ pending := fun hmem => hpending (List.contains_iff_mem.mpr hmem)
          refine congrArg (· >>= _) (foldlM_congr_of_mem (fun dep hdep r => ?_) _)
          exact congrArg (· >>= _) (ih (h.down hpending (hnames id dep hdep) hdep) r.2)

theorem depth_add (hnames : ∀ id dep, dep ∈ deps id → id ∈ names)
    (h : SearchPath (fun id dep => dep ∈ deps id) names fuel pending id) (known : Depths) (extra : Nat) :
    depth deps (fuel + extra) pending known id = depth deps fuel pending known id := by
  induction extra generalizing fuel with
  | zero => rfl
  | succ extra ih =>
      rw [Nat.add_succ, ← Nat.succ_add, ih h.more, depth_more hnames h known]

end Search

/-! ### Chains -/

section Chains

variable {deps : Text → List Text} {known : Depths}

theorem IsSound.lt_of_transGen (h : IsSound deps known) {id dep : Text} {d : Nat}
    (hway : TransGen (fun id dep => dep ∈ deps id) id dep) (hd : known.get? id = some d) :
    ∃ e, known.get? dep = some e ∧ e < d := by
  induction hway with
  | single hdep => exact (h id d hd).above _ hdep
  | tail _ hdep ih =>
      obtain ⟨e, he, hlt⟩ := ih
      obtain ⟨below, hbelow, hlt'⟩ := (h _ e he).above _ hdep
      exact ⟨below, hbelow, Nat.lt_trans hlt' hlt⟩

theorem IsSound.length_le (h : IsSound deps known) {rest : List Text} {id : Text} {d : Nat}
    (hchain : List.IsChain (fun id dep => dep ∈ deps id) (id :: rest)) (hd : known.get? id = some d) :
    rest.length ≤ d := by
  induction rest generalizing id d with
  | nil => exact Nat.zero_le d
  | cons dep rest ih =>
      obtain ⟨hdep, hrest⟩ := List.isChain_cons_cons.mp hchain
      obtain ⟨e, he, hlt⟩ := (h id d hd).above dep hdep
      exact Nat.lt_of_le_of_lt (ih hrest he) hlt

/-- Some chain is as long as the depth: from each module on it goes to the deepest load. -/
theorem IsSound.exists_chain (h : IsSound deps known) {d : Nat} {id : Text} (hd : known.get? id = some d) :
    ∃ rest, List.IsChain (fun id dep => dep ∈ deps id) (id :: rest) ∧ rest.length = d := by
  induction d generalizing id with
  | zero => exact ⟨[], List.IsChain.singleton id, rfl⟩
  | succ d ih =>
      rcases (h id (d + 1) hd).attained with hzero | ⟨dep, hdep, e, he, heq⟩
      · cases hzero
      · cases heq
        obtain ⟨rest, hchain, hlength⟩ := ih he
        exact ⟨dep :: rest, List.isChain_cons_cons.mpr ⟨hdep, hchain⟩, congrArg (· + 1) hlength⟩

/-- No depth is left out below one that is found. -/
theorem IsSound.exists_of_le (h : IsSound deps known) {d k : Nat} {id : Text} (hd : known.get? id = some d)
    (hle : k ≤ d) : ∃ other, ReflTransGen (fun id dep => dep ∈ deps id) id other ∧ known.get? other = some k := by
  induction d generalizing id with
  | zero =>
      cases Nat.le_zero.mp hle
      exact ⟨id, .refl, hd⟩
  | succ d ih =>
      rcases Nat.le_succ_iff.mp hle with hle | rfl
      · rcases (h id (d + 1) hd).attained with hzero | ⟨dep, hdep, e, he, heq⟩
        · cases hzero
        · cases heq
          obtain ⟨other, hway, hother⟩ := ih he hle
          exact ⟨other, .head hdep hway, hother⟩
      · exact ⟨id, .refl, hd⟩

end Chains

/-! ### All modules -/

section Modules

variable {modules : List SourceModule} {known : Depths}

theorem searchPath_start (modules : List SourceModule) (id : Text) :
    SearchPath (fun id dep => dep ∈ within modules id) (modules.map SourceModule.id) (modules.length + 1) [] id :=
  .start _ (by rw [List.length_map]; omega) id

theorem mem_names_of_mem_within (id dep : Text) (h : dep ∈ within modules id) : id ∈ modules.map SourceModule.id :=
  (loadsWithin_of_mem_within h).mem_left

theorem failsWith_depths (modules : List SourceModule) :
    FailsWith (depths modules) fun e => ∃ c, e = .cycle c ∧ TransGen (LoadsWithin modules) c c := by
  refine FailsWith.foldlM (fun m _ known => FailsWith.bind (fun e he => ?_) fun _ => .ok _) _
  obtain ⟨c, rfl, hcycle⟩ := failsWith_depth mem_names_of_mem_within (searchPath_start modules m.id) known e he
  exact ⟨c, rfl, TransGen.mono (fun _ _ => loadsWithin_of_mem_within) c c hcycle⟩

theorem firstFault_ne_cycle (seen : List Text) (modules : List SourceModule) (id : Text) :
    firstFault seen modules ≠ some (.cycle id) := by
  induction modules generalizing seen with
  | nil => rintro ⟨⟩
  | cons m modules ih =>
      rw [firstFault]
      split
      · rintro ⟨⟩
      · split
        · rintro ⟨⟩
        · exact ih _

theorem exists_of_lt_foldl_max {α : Type} (f : α → Nat) {as : List α} {n k : Nat}
    (h : k < as.foldl (fun h a => max h (f a)) n) : k < n ∨ ∃ a ∈ as, k < f a := by
  induction as generalizing n with
  | nil => exact Or.inl h
  | cons a as ih =>
      rcases ih (n := max n (f a)) h with hlt | ⟨b, hb, hlt⟩
      · have hlt : k < n ∨ k < f a := by omega
        exact hlt.imp_right fun hlt => ⟨a, List.mem_cons_self, hlt⟩
      · exact Or.inr ⟨b, List.mem_cons_of_mem a hb, hlt⟩

theorem not_transGen_self (hids : (modules.map SourceModule.id).Nodup) (hsound : IsSound (within modules) known)
    (hknown : ∀ m ∈ modules, ∃ d, known.get? m.id = some d) (id : Text) : ¬TransGen (LoadsWithin modules) id id := by
  intro hcycle
  obtain ⟨dep, hdep, -⟩ := TransGen.head'_iff.mp hcycle
  obtain ⟨m, hm, rfl⟩ := List.mem_map.mp hdep.mem_left
  obtain ⟨d, hd⟩ := hknown m hm
  rw [← within_eq_loadsWithin hids] at hcycle
  obtain ⟨e, he, hlt⟩ := hsound.lt_of_transGen hcycle hd
  cases hd.symm.trans he
  exact Nat.lt_irrefl d hlt

theorem exists_depthOf_eq (hsound : IsSound (within modules) known)
    (hknown : ∀ m ∈ modules, ∃ d, known.get? m.id = some d) {k : Nat} (hk : k < height modules known) :
    ∃ m ∈ modules, depthOf known m = k := by
  rcases exists_of_lt_foldl_max (fun m => depthOf known m + 1) hk with hzero | ⟨m, hm, hlt⟩
  · cases hzero
  · obtain ⟨d, hd⟩ := hknown m hm
    rw [depthOf_of_get? hd] at hlt
    obtain ⟨id, hway, hid⟩ := hsound.exists_of_le hd (Nat.le_of_lt_succ hlt)
    have hmem : id ∈ modules.map SourceModule.id := by
      rcases ReflTransGen.cases_tail hway with rfl | ⟨_, _, hstep⟩
      · exact List.mem_map_of_mem hm
      · exact (loadsWithin_of_mem_within hstep).mem_right
    obtain ⟨n, hn, rfl⟩ := List.mem_map.mp hmem
    exact ⟨n, hn, depthOf_of_get? hid⟩

end Modules

end Levels

/-- Levels that are exact: every module is in one of them, in the order of the modules, and its level is the greatest
length of a chain of loads that starts at it. -/
structure ExactLevels (modules : List SourceModule) (levels : List (List SourceModule)) : Prop where
  once : ∀ m ∈ modules, ∃! k : Nat, ∃ level, levels[k]? = some level ∧ m ∈ level
  ordered : ∀ level ∈ levels, level.Sublist modules
  inhabited : ∀ level ∈ levels, level ≠ []
  longest : ∀ (k : Nat) level, levels[k]? = some level → ∀ m ∈ level,
    IsGreatest {n | ∃ rest, List.IsChain (LoadsWithin modules) (m.id :: rest) ∧ rest.length = n} k
  earlier : ∀ (j k : Nat) level level', levels[j]? = some level → levels[k]? = some level' →
    ∀ m ∈ level, ∀ n ∈ level', LoadsWithin modules m.id n.id → k < j

namespace Levels

variable {modules : List SourceModule} {known : Depths}

theorem exactLevels_byDepth (hids : (modules.map SourceModule.id).Nodup) (hsound : IsSound (within modules) known)
    (hknown : ∀ m ∈ modules, ∃ d, known.get? m.id = some d) : ExactLevels modules (byDepth modules known) where
  once m hm := by
    have hget : (byDepth modules known)[depthOf known m]? = some _ :=
      (getElem?_byDepth _).trans (if_pos (depthOf_lt_height hm))
    refine ⟨depthOf known m, ⟨_, hget, (mem_of_getElem?_byDepth hget).mpr ⟨hm, rfl⟩⟩, ?_⟩
    rintro k ⟨level, hlevel, hmem⟩
    exact ((mem_of_getElem?_byDepth hlevel).mp hmem).2.symm
  ordered level hlevel := by
    obtain ⟨d, -, rfl⟩ := List.mem_map.mp hlevel
    exact List.filter_sublist
  inhabited level hlevel := by
    obtain ⟨k, hk⟩ := List.mem_iff_getElem?.mp hlevel
    have hlt : k < height modules known := by
      by_contra hge
      rw [getElem?_byDepth, if_neg hge] at hk
      cases hk
    obtain ⟨m, hm, hdepth⟩ := exists_depthOf_eq hsound hknown hlt
    exact List.ne_nil_of_mem ((mem_of_getElem?_byDepth hk).mpr ⟨hm, hdepth⟩)
  longest k level hk m hm := by
    obtain ⟨hm, rfl⟩ := (mem_of_getElem?_byDepth hk).mp hm
    obtain ⟨d, hd⟩ := hknown m hm
    rw [depthOf_of_get? hd, ← within_eq_loadsWithin hids]
    refine ⟨hsound.exists_chain hd, ?_⟩
    rintro n ⟨rest, hchain, rfl⟩
    exact hsound.length_le hchain hd
  earlier j k level level' hj hk m hm n hn hload := by
    obtain ⟨hm, rfl⟩ := (mem_of_getElem?_byDepth hj).mp hm
    obtain ⟨-, rfl⟩ := (mem_of_getElem?_byDepth hk).mp hn
    obtain ⟨d, hd⟩ := hknown m hm
    rw [← within_eq_loadsWithin hids] at hload
    obtain ⟨e, he, hlt⟩ := (hsound m.id d hd).above n.id hload
    rwa [depthOf_of_get? hd, depthOf_of_get? he]

/-- What putting modules into levels can come to: a fault of one module or two, a cycle, or the depths of all. -/
theorem dependencyLevels_cases (modules : List SourceModule) :
    (∃ e, dependencyLevels modules = .error e ∧ (∀ id, e ≠ .cycle id) ∧
      ((∃ m ∈ modules, m.tree = none) ∨ ¬(modules.map SourceModule.id).Nodup)) ∨
    (∃ id, dependencyLevels modules = .error (.cycle id) ∧ TransGen (LoadsWithin modules) id id) ∨
    ∃ known, dependencyLevels modules = .ok (byDepth modules known) ∧ (∀ m ∈ modules, m.tree ≠ none) ∧
      (modules.map SourceModule.id).Nodup ∧ IsSound (within modules) known ∧
      ∀ m ∈ modules, ∃ d, known.get? m.id = some d := by
  rw [dependencyLevels]
  cases hfault : firstFault [] modules with
  | some e =>
      refine Or.inl ⟨e, rfl, fun id heq => firstFault_ne_cycle [] modules id (heq ▸ hfault), ?_⟩
      by_contra hnone
      simp only [not_or, not_exists, not_and, not_not] at hnone
      obtain ⟨htrees, hids⟩ := hnone
      have hclear := firstFault_eq_none_iff.mpr
        ⟨fun m hm => Option.isSome_iff_ne_none.mpr (htrees m hm), hids, fun m _ => List.not_mem_nil⟩
      cases hclear.symm.trans hfault
  | none =>
      obtain ⟨htrees, hids, -⟩ := firstFault_eq_none_iff.mp hfault
      cases hdepths : depths modules with
      | error e =>
          obtain ⟨c, rfl, hcycle⟩ := failsWith_depths modules e hdepths
          exact Or.inr (Or.inl ⟨c, rfl, hcycle⟩)
      | ok known =>
          obtain ⟨hsound, hknown⟩ := ensures_depths modules known hdepths
          exact Or.inr (Or.inr ⟨known, rfl, fun m hm => Option.isSome_iff_ne_none.mp (htrees m hm), hids, hsound,
            hknown⟩)

end Levels

open Levels in
/-- Dependency levels are exact. The search for a depth gives the same with any greater bound on its steps, so the
bound never cuts it off. -/
theorem dependencyLevels_exact (modules : List SourceModule) :
    (∀ extra known id, depth (within modules) (modules.length + 1 + extra) [] known id =
      depth (within modules) (modules.length + 1) [] known id) ∧
    ((∃ e, dependencyLevels modules = .error e) ↔ (∃ m ∈ modules, m.tree = none) ∨
      ¬(modules.map SourceModule.id).Nodup ∨ ∃ id, TransGen (LoadsWithin modules) id id) ∧
    (∀ id, dependencyLevels modules = .error (.cycle id) → TransGen (LoadsWithin modules) id id) ∧
    (∀ levels, dependencyLevels modules = .ok levels → ExactLevels modules levels) := by
  refine ⟨fun extra known id => depth_add mem_names_of_mem_within (searchPath_start modules id) known extra, ?_⟩
  rcases dependencyLevels_cases modules with ⟨e, he, hne, hfault⟩ | ⟨c, hc, hcycle⟩ |
    ⟨known, hok, htrees, hids, hsound, hknown⟩
  · rw [he]
    refine ⟨⟨fun _ => hfault.imp_right Or.inl, fun _ => ⟨e, rfl⟩⟩, ?_, ?_⟩
    · rintro id ⟨⟩
      exact absurd rfl (hne id)
    · rintro levels ⟨⟩
  · rw [hc]
    refine ⟨⟨fun _ => Or.inr (Or.inr ⟨c, hcycle⟩), fun _ => ⟨_, rfl⟩⟩, ?_, ?_⟩
    · rintro id ⟨⟩
      exact hcycle
    · rintro levels ⟨⟩
  · rw [hok]
    refine ⟨⟨?_, ?_⟩, ?_, ?_⟩
    · rintro ⟨e, ⟨⟩⟩
    · rintro (⟨m, hm, htree⟩ | hdup | ⟨id, hcycle⟩)
      · exact absurd htree (htrees m hm)
      · exact absurd hids hdup
      · exact absurd hcycle (not_transGen_self hids hsound hknown id)
    · rintro id ⟨⟩
    · rintro levels ⟨⟩
      exact exactLevels_byDepth hids hsound hknown

end Gradual
