import Gradual.NameMap
import Mathlib.Data.List.Induction
import Mathlib.Data.List.Sort

/-! Maps from names. The entries of a map that was built by insertion stand in strictly increasing order of
name; such a list of entries is the map of itself. What holds of all entries of a map is kept by insertion,
and holds of whatever is found in it. Sorting forgets the order of a list, as long as names tell its entries
apart. -/

namespace Gradual

theorem Text.lt_of_not_lt_of_ne {s t : Text} (h : ¬s < t) (hne : s ≠ t) : t < s := by
  rcases String.le_total s t with hle | hle
  · exact absurd (String.le_antisymm hle (String.not_lt.mp h)) hne
  · exact String.not_le.mp fun hst => hne (String.le_antisymm hst hle)

namespace NameMap

variable {α : Type}

/-- The entries of a map stand in strictly increasing order of name. -/
def IsSorted (m : NameMap α) : Prop := m.entries.Pairwise fun e f => e.1 < f.1

theorem insertEntry_of_forall_lt {name : Text} {value : α} {entries : List (Text × α)}
    (h : ∀ e ∈ entries, e.1 < name) : insertEntry name value entries = entries ++ [(name, value)] := by
  induction entries with
  | nil => rfl
  | cons e entries ih =>
      have he := h e List.mem_cons_self
      rw [insertEntry, if_neg (String.lt_asymm he), if_neg (String.ne_of_lt he).symm,
        ih fun f hf => h f (List.mem_cons_of_mem e hf)]
      rfl

theorem foldl_insert_of_sorted {entries : List (Text × α)} {m : NameMap α}
    (h : IsSorted ⟨m.entries ++ entries⟩) :
    entries.foldl (fun m e => m.insert e.1 e.2) m = ⟨m.entries ++ entries⟩ := by
  induction entries generalizing m with
  | nil => rw [List.foldl_nil, List.append_nil]
  | cons e entries ih =>
      have hbefore : ∀ f ∈ m.entries, f.1 < e.1 := fun f hf =>
        (List.pairwise_append.mp h).2.2 f hf e List.mem_cons_self
      have hinsert : m.insert e.1 e.2 = ⟨m.entries ++ [e]⟩ := congrArg mk (insertEntry_of_forall_lt hbefore)
      have hsplit : m.entries ++ e :: entries = (m.entries ++ [e]) ++ entries := by
        rw [List.append_assoc]
        rfl
      rw [List.foldl_cons, hinsert, hsplit]
      exact ih (hsplit ▸ h)

theorem ofList_of_sorted {entries : List (Text × α)} (h : IsSorted ⟨entries⟩) : ofList entries = ⟨entries⟩ :=
  foldl_insert_of_sorted h

theorem mem_insertEntry {name : Text} {value : α} {entries : List (Text × α)} {e : Text × α}
    (h : e ∈ insertEntry name value entries) : e = (name, value) ∨ e ∈ entries := by
  induction entries with
  | nil => exact Or.inl (List.mem_singleton.mp h)
  | cons f entries ih =>
      rw [insertEntry] at h
      split at h
      · exact List.mem_cons.mp h
      · split at h
        · exact (List.mem_cons.mp h).imp_right (List.mem_cons_of_mem f)
        · rcases List.mem_cons.mp h with rfl | h
          · exact Or.inr List.mem_cons_self
          · exact (ih h).imp_right (List.mem_cons_of_mem f)

theorem isSorted_empty : IsSorted (empty : NameMap α) := List.Pairwise.nil

theorem IsSorted.insert {m : NameMap α} (h : m.IsSorted) (name : Text) (value : α) :
    (m.insert name value).IsSorted := by
  obtain ⟨entries⟩ := m
  show (insertEntry name value entries).Pairwise _
  induction entries with
  | nil => exact List.pairwise_singleton _ _
  | cons e entries ih =>
      obtain ⟨hfirst, hrest⟩ := List.pairwise_cons.mp h
      rw [insertEntry]
      split
      · next hlt =>
        refine List.pairwise_cons.mpr ⟨fun f hf => ?_, h⟩
        rcases List.mem_cons.mp hf with rfl | hf
        · exact hlt
        · exact String.lt_trans hlt (hfirst f hf)
      · next hle =>
        split
        · next heq => exact List.pairwise_cons.mpr ⟨fun f hf => heq ▸ hfirst f hf, hrest⟩
        · next hne =>
          refine List.pairwise_cons.mpr ⟨fun f hf => ?_, ih hrest⟩
          rcases mem_insertEntry hf with rfl | hf
          · exact Text.lt_of_not_lt_of_ne hle hne
          · exact hfirst f hf

theorem isSorted_ofList (entries : List (Text × α)) : (ofList entries).IsSorted :=
  List.foldlRecOn entries _ isSorted_empty fun _ h e _ => h.insert e.1 e.2

theorem lookup_cons_eq (n name : Text) (value : α) (entries : List (Text × α)) :
    ((name, value) :: entries).lookup n = if n = name then some value else entries.lookup n := by
  rw [List.lookup_cons]
  by_cases h : n = name
  · rw [if_pos h, beq_iff_eq.mpr h]
  · rw [if_neg h, beq_eq_false_iff_ne.mpr h]

theorem get?_insert (m : NameMap α) (name : Text) (value : α) (n : Text) :
    (m.insert name value).get? n = if n = name then some value else m.get? n := by
  obtain ⟨entries⟩ := m
  show (insertEntry name value entries).lookup n = if n = name then some value else entries.lookup n
  induction entries with
  | nil => exact lookup_cons_eq n name value []
  | cons e entries ih =>
      obtain ⟨first, old⟩ := e
      rw [insertEntry]
      split
      · exact lookup_cons_eq n name value _
      · split
        · next heq =>
          subst heq
          rw [lookup_cons_eq, lookup_cons_eq]
          split <;> rfl
        · next hne =>
          rw [lookup_cons_eq, lookup_cons_eq, ih]
          by_cases h : n = first
          · rw [if_pos h, if_pos h, if_neg fun h' => hne (h'.symm.trans h)]
          · rw [if_neg h, if_neg h]

theorem contains_insert (m : NameMap α) (name : Text) (value : α) (n : Text) :
    (m.insert name value).contains n = true ↔ n = name ∨ m.contains n = true := by
  rw [contains, contains, get?_insert]
  split
  · next h => exact ⟨fun _ => Or.inl h, fun _ => rfl⟩
  · next h => exact ⟨Or.inr, fun h' => h'.resolve_left h⟩

theorem mem_names {m : NameMap α} {n : Text} : n ∈ m.names ↔ m.contains n = true := by
  obtain ⟨entries⟩ := m
  show n ∈ entries.map (·.1) ↔ (entries.lookup n).isSome = true
  induction entries with
  | nil => exact ⟨fun h => absurd h List.not_mem_nil, fun h => absurd h Bool.false_ne_true⟩
  | cons e entries ih =>
      rw [List.map_cons, List.mem_cons, lookup_cons_eq, ih]
      split
      · next heq => exact ⟨fun _ => rfl, fun _ => Or.inl heq⟩
      · next hne => exact ⟨fun h => h.resolve_left hne, Or.inr⟩

theorem not_contains_iff {m : NameMap α} {n : Text} : ¬m.contains n = true ↔ m.get? n = none := by
  rw [contains, Option.not_isSome_iff_eq_none]

theorem contains_insert_eq (m : NameMap α) (name : Text) (value : α) (n : Text) :
    (m.insert name value).contains n = (n == name || m.contains n) := by
  rw [Bool.eq_iff_iff, contains_insert, Bool.or_eq_true, beq_iff_eq]

theorem get?_filter (m : NameMap α) (p : Text → Bool) (n : Text) :
    (m.filter fun name _ => p name).get? n = if p n then m.get? n else none := by
  obtain ⟨entries⟩ := m
  show (entries.filter fun e => p e.1).lookup n = if p n then entries.lookup n else none
  induction entries with
  | nil => exact (ite_self _).symm
  | cons e entries ih =>
      obtain ⟨name, value⟩ := e
      rw [List.filter_cons, lookup_cons_eq]
      by_cases hname : n = name
      · subst hname
        by_cases hp : p n = true
        · rw [if_pos hp, if_pos hp, if_pos rfl, lookup_cons_eq, if_pos rfl]
        · rw [if_neg hp, ih, if_neg hp, if_neg hp]
      · rw [if_neg hname, ← ih]
        by_cases hp : p name = true
        · rw [if_pos hp, lookup_cons_eq, if_neg hname]
        · rw [if_neg hp]

theorem get?_map {β : Type} (m : NameMap α) (f : α → β) (n : Text) : (m.map f).get? n = (m.get? n).map f := by
  obtain ⟨entries⟩ := m
  show (entries.map fun e => (e.1, f e.2)).lookup n = (entries.lookup n).map f
  induction entries with
  | nil => rfl
  | cons e entries ih =>
      rw [List.map_cons, lookup_cons_eq, lookup_cons_eq, ih]
      split <;> rfl

theorem isSorted_map_iff {β : Type} {m : NameMap α} {f : α → β} : (m.map f).IsSorted ↔ m.IsSorted :=
  List.pairwise_map (f := fun e : Text × α => (e.1, f e.2))

theorem contains_erase (m : NameMap α) (name n : Text) :
    (m.erase name).contains n = (m.contains n && n != name) := by
  rw [contains, contains, show m.erase name = m.filter (fun name' _ => name' != name) from rfl, get?_filter]
  cases n != name with
  | true => exact (Bool.and_true _).symm
  | false => exact (Bool.and_false _).symm

theorem IsSorted.get?_of_mem {m : NameMap α} (h : m.IsSorted) {e : Text × α} (he : e ∈ m.entries) :
    m.get? e.1 = some e.2 := by
  obtain ⟨entries⟩ := m
  show entries.lookup e.1 = some e.2
  induction entries with
  | nil => cases he
  | cons f entries ih =>
      obtain ⟨hfirst, hrest⟩ := List.pairwise_cons.mp h
      rw [lookup_cons_eq]
      rcases List.mem_cons.mp he with rfl | he
      · rw [if_pos rfl]
      · have hne : e.1 ≠ f.1 := fun heq => String.lt_irrefl f.1 (heq ▸ hfirst e he)
        rw [if_neg hne]
        exact ih hrest he

/-- A relation holds of every entry of a map. -/
def All (R : Text → α → Prop) (m : NameMap α) : Prop := ∀ e ∈ m.entries, R e.1 e.2

variable {R : Text → α → Prop} {m : NameMap α}

theorem all_empty : All R (empty : NameMap α) := List.forall_mem_nil _

theorem All.insert (h : m.All R) {name : Text} {value : α} (hnew : R name value) :
    (m.insert name value).All R := by
  intro e he
  rcases mem_insertEntry he with rfl | he
  · exact hnew
  · exact h e he

theorem All.get? (h : m.All R) {name : Text} {value : α} (hget : m.get? name = some value) :
    R name value :=
  h _ (mem_of_lookup_eq_some hget)

theorem All.foldl_insert (h : m.All R) {entries : List (Text × α)} (hnew : ∀ e ∈ entries, R e.1 e.2) :
    (entries.foldl (fun m e => m.insert e.1 e.2) m).All R :=
  List.foldlRecOn entries _ h fun _ hm e he => hm.insert (hnew e he)

theorem all_ofList {entries : List (Text × α)} (h : ∀ e ∈ entries, R e.1 e.2) : (ofList entries).All R :=
  all_empty.foldl_insert h

theorem All.overlay (h : m.All R) {other : NameMap α} (hother : other.All R) : (m.overlay other).All R :=
  h.foldl_insert hother

end NameMap

/-! ### Sorted lists -/

theorem mem_insertAfter {α : Type} {e f : Text × α} {entries : List (Text × α)} :
    f ∈ insertAfter e entries ↔ f = e ∨ f ∈ entries := by
  induction entries with
  | nil => simp [insertAfter]
  | cons g entries ih =>
      rw [insertAfter]
      split
      · exact List.mem_cons
      · rw [List.mem_cons, ih, List.mem_cons]
        exact or_left_comm

theorem mem_sortByName {α : Type} {f : Text × α} {entries : List (Text × α)} :
    f ∈ sortByName entries ↔ f ∈ entries := by
  induction entries using List.reverseRecOn with
  | nil => rfl
  | append_singleton entries e ih =>
      rw [sortByName, List.foldl_append, List.foldl_cons, List.foldl_nil, mem_insertAfter, List.mem_append,
        List.mem_singleton, or_comm]
      exact or_congr_left ih

theorem NameSet.contains_ofList {name : Text} {names : List Text} :
    (NameSet.ofList names).contains name = true ↔ name ∈ names := by
  induction names using List.reverseRecOn with
  | nil => exact ⟨fun h => absurd h Bool.false_ne_true, fun h => absurd h List.not_mem_nil⟩
  | append_singleton names last ih =>
      have hlast : ofList (names ++ [last]) = (ofList names).insert last () := by
        rw [ofList, List.map_append, NameMap.ofList, List.foldl_append]
        rfl
      rw [hlast, NameMap.contains_insert, ih, List.mem_append, List.mem_singleton, or_comm]

theorem mem_sortedDistinct {name : Text} {names : List Text} : name ∈ sortedDistinct names ↔ name ∈ names :=
  NameMap.mem_names.trans NameSet.contains_ofList

theorem eq_of_sorted_of_mem_iff {α : Type} {entries entries' : List (Text × α)}
    (h : entries.Pairwise fun e f => e.1 < f.1) (h' : entries'.Pairwise fun e f => e.1 < f.1)
    (hmem : ∀ e, e ∈ entries ↔ e ∈ entries') : entries = entries' := by
  have : Std.Irrefl fun e f : Text × α => e.1 < f.1 := ⟨fun e => String.lt_irrefl e.1⟩
  have : Std.Antisymm fun e f : Text × α => e.1 < f.1 := ⟨fun _ _ hef hfe => absurd hfe (String.lt_asymm hef)⟩
  exact h.eq_of_mem_iff h' hmem

theorem pairwise_insertAfter {α : Type} {e : Text × α} {entries : List (Text × α)}
    (h : entries.Pairwise fun e f => e.1 < f.1) (hnew : ∀ f ∈ entries, f.1 ≠ e.1) :
    (insertAfter e entries).Pairwise fun e f => e.1 < f.1 := by
  induction entries with
  | nil => exact List.pairwise_singleton _ _
  | cons f entries ih =>
      obtain ⟨hfirst, hrest⟩ := List.pairwise_cons.mp h
      obtain ⟨hne, hnew⟩ := List.forall_mem_cons.mp hnew
      rw [insertAfter]
      split
      · next hlt =>
        refine List.pairwise_cons.mpr ⟨List.forall_mem_cons.mpr ⟨hlt, fun g hg => ?_⟩, h⟩
        exact String.lt_trans hlt (hfirst g hg)
      · next hle =>
        refine List.pairwise_cons.mpr ⟨fun g hg => ?_, ih hrest hnew⟩
        rcases mem_insertAfter.mp hg with rfl | hg
        · exact Text.lt_of_not_lt_of_ne hle hne.symm
        · exact hfirst g hg

theorem pairwise_sortByName {α : Type} {entries : List (Text × α)} (h : (entries.map (·.1)).Nodup) :
    (sortByName entries).Pairwise fun e f => e.1 < f.1 := by
  induction entries using List.reverseRecOn with
  | nil => exact List.Pairwise.nil
  | append_singleton entries e ih =>
      rw [List.map_append, List.nodup_append] at h
      rw [sortByName, List.foldl_append]
      refine pairwise_insertAfter (ih h.1) fun f hf => ?_
      exact h.2.2 f.1 (List.mem_map_of_mem (mem_sortByName.mp hf)) e.1 List.mem_cons_self

theorem sortByName_eq_of_perm {α : Type} {entries entries' : List (Text × α)} (h : entries.Perm entries')
    (hdistinct : (entries.map (·.1)).Nodup) : sortByName entries = sortByName entries' := by
  refine eq_of_sorted_of_mem_iff (pairwise_sortByName hdistinct)
    (pairwise_sortByName ((h.map _).nodup_iff.mp hdistinct)) fun e => ?_
  rw [mem_sortByName, mem_sortByName, h.mem_iff]

theorem sortedDistinct_eq_of_perm {names names' : List Text} (h : names.Perm names') :
    sortedDistinct names = sortedDistinct names' := by
  have hsorted (names : List Text) : (sortedDistinct names).Pairwise (· < ·) :=
    List.pairwise_map.mpr (NameMap.isSorted_ofList _)
  refine (hsorted names).eq_of_mem_iff (hsorted names') fun name => ?_
  rw [mem_sortedDistinct, mem_sortedDistinct, h.mem_iff]

end Gradual
