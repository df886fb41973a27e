import Gradual.Text.Bytes
import Mathlib.Data.List.Perm.Subperm
import Mathlib.Logic.Relation

/-! The way of a depth-first search. A search goes from a name to the names it leads to and keeps those on its way;
meeting one of them again is a cycle. As long as it meets none again, the names on the way are distinct, and if they
are taken from a list, the way is no longer than that. So a bound on the steps down that exceeds the length of the
list is never reached. -/

namespace Gradual

open Relation

/-- The names on the way of a search to a name: each leads there, they are distinct and taken from a list, and `fuel`
is left for more of them than the list has. -/
structure SearchPath (leads : Text → Text → Prop) (names : List Text) (fuel : Nat) (way : List Text) (id : Text) :
    Prop where
  leads : ∀ other ∈ way, TransGen leads other id
  distinct : way.Nodup
  subset : way ⊆ names
  enough : names.length < fuel + way.length

namespace SearchPath

variable {leads : Text → Text → Prop} {names way : List Text} {fuel : Nat} {id dep : Text}

theorem start (leads : Text → Text → Prop) (h : names.length < fuel) (id : Text) :
    SearchPath leads names fuel [] id where
  leads _ h := absurd h List.not_mem_nil
  distinct := List.nodup_nil
  subset := List.nil_subset names
  enough := h

/-- The bound is never reached. -/
theorem fuel_ne_zero (h : SearchPath leads names fuel way id) : fuel ≠ 0 := by
  rintro rfl
  have hlength := h.distinct.length_le_of_subset h.subset
  have henough := h.enough
  omega

theorem down (h : SearchPath leads names (fuel + 1) way id) (hid : id ∉ way) (hname : id ∈ names)
    (hdep : leads id dep) : SearchPath leads names fuel (id :: way) dep where
  leads := List.forall_mem_cons.mpr ⟨.single hdep, fun other hother => (h.leads other hother).tail hdep⟩
  distinct := List.nodup_cons.mpr ⟨hid, h.distinct⟩
  subset := List.cons_subset.mpr ⟨hname, h.subset⟩
  enough := by
    have henough := h.enough
    rw [List.length_cons]
    omega

/-- Room for one more step changes nothing of what is known of the way. -/
theorem more (h : SearchPath leads names fuel way id) : SearchPath leads names (fuel + 1) way id :=
  ⟨h.leads, h.distinct, h.subset, Nat.lt_of_lt_of_le h.enough (by omega)⟩

end SearchPath

theorem not_transGen_self_of_acc {leads : Text → Text → Prop} {id : Text} (h : Acc (fun dep id => leads id dep) id) :
    ¬TransGen leads id id := by
  induction h with
  | intro id _ ih =>
      intro hcycle
      -- The cycle goes through the next name as well.
      obtain ⟨dep, hdep, hback⟩ := TransGen.head'_iff.mp hcycle
      exact ih dep hdep (.tail' hback hdep)

end Gradual
