import Gradual.Proofs.NameMaps
import Gradual.Ty.Normal

/-! The fields of struct types. A struct type keeps one field for each name it is built from, in increasing order
of name, and the last entry of a name decides its type. What stands under a name can then be found by bisection,
and a struct type depends on no more than the order of the entries of each name. -/

namespace Gradual

namespace NameMap

variable {α : Type}

theorem get?_ofList (entries : List (Text × α)) (name : Text) :
    (ofList entries).get? name = ((entries.filter (·.1 == name)).getLast?).map (·.2) := by
  induction entries using List.reverseRecOn with
  | nil => rfl
  | append_singleton entries e ih =>
      rw [ofList, List.foldl_append, List.foldl_cons, List.foldl_nil, get?_insert, List.filter_append]
      by_cases h : name = e.1
      · simp [h]
      · have hnot : [e].filter (·.1 == name) = [] := by simp [Ne.symm h]
        rw [if_neg h, hnot, List.append_nil]
        exact ih

theorem IsSorted.eq_of_get?_eq {m m' : NameMap α} (h : m.IsSorted) (h' : m'.IsSorted)
    (hget : ∀ name, m.get? name = m'.get? name) : m = m' := by
  have hmem {m : NameMap α} (h : m.IsSorted) (e : Text × α) : e ∈ m.entries ↔ m.get? e.1 = some e.2 :=
    ⟨h.get?_of_mem, mem_of_lookup_eq_some⟩
  refine congrArg mk (eq_of_sorted_of_mem_iff h h' fun e => ?_)
  rw [hmem h, hmem h', hget]

/-! ### Bisection -/

theorem lookup_eq_none {entries : List (Text × α)} {name : Text} (h : ∀ e ∈ entries, e.1 ≠ name) :
    entries.lookup name = none :=
  List.lookup_eq_none_iff.mpr fun e he => bne_iff_ne.mpr (h e he).symm

theorem IsSorted.halves {entries after : List (Text × α)} {n : Text} {value : α} (h : IsSorted ⟨entries⟩)
    (hdrop : entries.drop (entries.length / 2) = (n, value) :: after) (name : Text) :
    (IsSorted ⟨entries.take (entries.length / 2)⟩ ∧ ∀ e ∈ entries.take (entries.length / 2), e.1 < n) ∧
      (IsSorted ⟨after⟩ ∧ ∀ e ∈ after, n < e.1) ∧
      entries.lookup name = ((entries.take (entries.length / 2)).lookup name).or
        (if name = n then some value else after.lookup name) := by
  have heq := List.take_append_drop (entries.length / 2) entries
  rw [hdrop] at heq
  obtain ⟨hbefore, hrest, hacross⟩ := List.pairwise_append.mp (heq ▸ h : List.Pairwise _ (_ ++ _))
  obtain ⟨hfirst, hafter⟩ := List.pairwise_cons.mp hrest
  refine ⟨⟨hbefore, fun e he => hacross e he _ List.mem_cons_self⟩, ⟨hafter, hfirst⟩, ?_⟩
  rw [← lookup_cons_eq, ← List.lookup_append, heq]

theorem IsSorted.bisect_eq {entries : List (Text × α)} (h : IsSorted ⟨entries⟩) (name : Text) :
    bisect name entries = entries.lookup name := by
  fun_induction bisect name entries with
  | case1 entries hdrop =>
      have hlength := List.drop_eq_nil_iff.mp hdrop
      have hnil : entries = [] := List.eq_nil_of_length_eq_zero (by omega)
      rw [hnil, List.lookup_nil]
  | case2 entries n value after hdrop hlt ih =>
      obtain ⟨⟨-, hless⟩, ⟨hafter, -⟩, hlookup⟩ := h.halves hdrop name
      rw [hlookup, lookup_eq_none fun e he => String.ne_of_lt (String.lt_trans (hless e he) hlt),
        if_neg (String.ne_of_lt hlt).symm, ih hafter, Option.none_or]
  | case3 entries value after hdrop hlt =>
      obtain ⟨⟨-, hless⟩, -, hlookup⟩ := h.halves hdrop name
      rw [hlookup, lookup_eq_none fun e he => String.ne_of_lt (hless e he), if_pos rfl, Option.none_or]
  | case4 entries n value after hdrop hle hne ih =>
      obtain ⟨⟨hbefore, -⟩, ⟨-, hmore⟩, hlookup⟩ := h.halves hdrop name
      have hlt : name < n := Text.lt_of_not_lt_of_ne hle hne
      rw [hlookup, if_neg (String.ne_of_lt hlt), lookup_eq_none fun e he =>
        (String.ne_of_lt (String.lt_trans hlt (hmore e he))).symm, ih hbefore, Option.or_none]

end NameMap

/-! ### Struct types -/

/-- Of a list of fields, a struct type keeps for each name the last entry, and these in strictly increasing order
of name. So a field is found exactly if some entry has its name, the same by bisection and from the front;
building the type anew from its own fields changes nothing, nor does a reordering that keeps the entries of each
name in their order. -/
theorem Ty.struct_last_entry_counts (fields : List (Text × Ty)) (isOpen : Bool) :
    ∃ kept, struct fields isOpen = only (.struct kept isOpen) ∧ kept.Pairwise (fun f g => f.1 < g.1) ∧
      (∀ name, (Alt.struct kept isOpen).field? name = ((fields.filter (·.1 == name)).getLast?).map (·.2)) ∧
      (∀ name, (Alt.struct kept isOpen).field? name = Option.none ↔ ∀ f ∈ fields, f.1 ≠ name) ∧
      (∀ name, (Alt.struct kept isOpen).field? name = kept.lookup name) ∧
      struct kept isOpen = struct fields isOpen ∧
      ∀ fields', (∀ name, fields'.filter (·.1 == name) = fields.filter (·.1 == name)) →
        struct fields' isOpen = struct fields isOpen := by
  have hsorted := NameMap.isSorted_ofList fields
  have hlookup (name : Text) :
      (Alt.struct (NameMap.ofList fields).entries isOpen).field? name = (NameMap.ofList fields).get? name :=
    hsorted.bisect_eq name
  have hlast (name : Text) := (hlookup name).trans (NameMap.get?_ofList fields name)
  refine ⟨_, rfl, hsorted, hlast, fun name => ?_, hlookup, ?_, fun fields' hfields => ?_⟩
  · rw [hlast, Option.map_eq_none_iff, List.getLast?_eq_none_iff, List.filter_eq_nil_iff]
    simp only [beq_iff_eq, ne_eq]
  · exact congrArg (fun m => only (.struct m.entries isOpen)) (NameMap.ofList_of_sorted hsorted)
  · have heq : NameMap.ofList fields' = NameMap.ofList fields := by
      refine (NameMap.isSorted_ofList fields').eq_of_get?_eq hsorted fun name => ?_
      rw [NameMap.get?_ofList, NameMap.get?_ofList, hfields]
    rw [struct, heq, struct]

/-- The entries of `b` keep their order, and the last one counts. -/
theorem Ty.struct_last_entry_counts_reordered :
    let fields := [("b", int), ("a", str), ("b", bool)]
    let fields' := [("a", str), ("b", int), ("b", bool)]
    (∀ name, fields'.filter (·.1 == name) = fields.filter (·.1 == name)) ∧
      struct fields' true = struct fields true := by
  intro fields fields'
  have hfields : ∀ name, fields'.filter (·.1 == name) = fields.filter (·.1 == name) := by
    intro name
    by_cases ha : "a" = name
    · subst ha
      rfl
    · have ha : ("a" == name) = false := beq_eq_false_iff_ne.mpr ha
      simp [fields, fields', List.filter_cons, ha]
  obtain ⟨_, -, -, -, -, -, -, hreordered⟩ := struct_last_entry_counts fields true
  exact ⟨hfields, hreordered fields' hfields⟩

end Gradual
