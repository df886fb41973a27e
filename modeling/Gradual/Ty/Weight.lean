import Gradual.Ty.Normal

/-! The weight of a type bounds the recursion of the relations on types: every type reached from a type
by its elements, its fields, its result or its iteration weighs less. -/

namespace Gradual

mutual

def Ty.weight : Ty → Nat
  | ⟨alts⟩ => 1 + Alt.weights alts

def Alt.weights : List Alt → Nat
  | [] => 0
  | a :: rest => a.weight + Alt.weights rest

def Alt.weight : Alt → Nat
  | .any => 1
  | .prim _ => 1
  | .list elem | .tupleOf elem | .iterable elem => 1 + elem.weight
  | .tuple elems => 2 + Ty.weights elems
  | .dict key value => 1 + key.weight + value.weight
  | .function none => 1
  | .function (some ⟨_, result⟩) => 1 + result.weight
  | .struct fields _ => 1 + Ty.fieldWeights fields
  | .custom _ (some ⟨_, _, _, some elem⟩) => 1 + elem.weight
  | .custom _ _ => 1

def Ty.weights : List Ty → Nat
  | [] => 0
  | t :: rest => t.weight + Ty.weights rest

def Ty.fieldWeights : List (Text × Ty) → Nat
  | [] => 0
  | (_, t) :: rest => t.weight + Ty.fieldWeights rest

end

theorem Ty.weight_eq (t : Ty) : t.weight = 1 + Alt.weights t.alts := by
  cases t; rw [Ty.weight]

theorem Alt.weight_le_weights {a : Alt} {alts : List Alt} (h : a ∈ alts) :
    a.weight ≤ Alt.weights alts := by
  induction alts with
  | nil => cases h
  | cons b rest ih =>
    rw [Alt.weights]
    cases h with
    | head => omega
    | tail _ h => have := ih h; omega

theorem Ty.weight_alt_lt {a : Alt} {t : Ty} (h : a ∈ t.alts) : a.weight < t.weight := by
  have := Alt.weight_le_weights h
  rw [Ty.weight_eq]; omega

theorem Ty.weight_le_weights {t : Ty} {ts : List Ty} (h : t ∈ ts) : t.weight ≤ Ty.weights ts := by
  induction ts with
  | nil => cases h
  | cons u rest ih =>
    rw [Ty.weights]
    cases h with
    | head => omega
    | tail _ h => have := ih h; omega

theorem Ty.weight_le_fieldWeights {name : Text} {t : Ty} {fields : List (Text × Ty)}
    (h : (name, t) ∈ fields) : t.weight ≤ Ty.fieldWeights fields := by
  induction fields with
  | nil => cases h
  | cons f rest ih =>
    obtain ⟨n, u⟩ := f
    rw [Ty.fieldWeights]
    cases h with
    | head => omega
    | tail _ h => have := ih h; omega

theorem Alt.weights_append (as bs : List Alt) :
    Alt.weights (as ++ bs) = Alt.weights as + Alt.weights bs := by
  induction as with
  | nil => simp [Alt.weights]
  | cons a rest ih => simp [Alt.weights, ih]; omega

theorem Alt.weights_insert_le (a : Alt) (alts : List Alt) :
    Alt.weights (a.insert alts) ≤ a.weight + Alt.weights alts := by
  induction alts with
  | nil => simp [Alt.insert, Alt.weights]
  | cons b rest ih =>
    rw [Alt.insert]
    split
    · simp [Alt.weights]
    · split
      · simp [Alt.weights]
      · simp only [Alt.weights]; omega

theorem Alt.weights_foldl_insert_le (alts sorted : List Alt) :
    Alt.weights (alts.foldl (fun sorted a => a.insert sorted) sorted)
      ≤ Alt.weights alts + Alt.weights sorted := by
  induction alts generalizing sorted with
  | nil => simp [Alt.weights]
  | cons a rest ih =>
    have h₁ := ih (a.insert sorted)
    have h₂ := Alt.weights_insert_le a sorted
    simp only [List.foldl_cons, Alt.weights]
    omega

theorem Alt.weight_pos (a : Alt) : 0 < a.weight := by
  unfold Alt.weight
  split <;> omega

theorem Alt.weights_pos_of_any {alts : List Alt} (h : alts.any Alt.isAny = true) :
    0 < Alt.weights alts := by
  cases alts with
  | nil => simp at h
  | cons a rest => have := a.weight_pos; rw [Alt.weights]; omega

theorem Ty.weight_ofAlts_le (alts : List Alt) : (Ty.ofAlts alts).weight ≤ 1 + Alt.weights alts := by
  rw [Ty.ofAlts]
  split
  · next h =>
    have := Alt.weights_pos_of_any h
    simp only [Ty.any, Ty.only, Ty.weight, Alt.weights, Alt.weight]
    omega
  · have := Alt.weights_foldl_insert_le alts []
    simp only [Alt.weights] at this
    rw [Ty.weight]; omega

theorem Alt.weights_flatMap_alts_le (ts : List Ty) :
    Alt.weights (ts.flatMap Ty.alts) ≤ Ty.weights ts := by
  induction ts with
  | nil => simp [Alt.weights]
  | cons t rest ih =>
    have := Ty.weight_eq t
    simp only [List.flatMap_cons, Alt.weights_append, Ty.weights]
    omega

/-- The union of the elements of a tuple weighs less than the tuple. -/
theorem Ty.weight_union_lt (elems : List Ty) : (Ty.union elems).weight < (Alt.tuple elems).weight := by
  have h₁ := Ty.weight_ofAlts_le (elems.flatMap Ty.alts)
  have h₂ := Alt.weights_flatMap_alts_le elems
  rw [Alt.weight, Ty.union]; omega

end Gradual
