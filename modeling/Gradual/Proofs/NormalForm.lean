import Gradual.Proofs.NameMaps
import Gradual.Ty.Weight

/-! The normal form of types as a predicate, and what the union operations do to it. A property that a
type shares with every type inside it is stated through `Ty.Everywhere`; `Ty.Normal` is one of those.
Unions tell alternatives apart by their texts, so that an alternative of a part may be missing from the
union, but then another one of the same text is there. -/

namespace Gradual

/-- The types that an alternative is directly made of. -/
def Alt.parts : Alt → List Ty
  | .list elem | .tupleOf elem | .iterable elem => [elem]
  | .tuple elems => elems
  | .dict key value => [key, value]
  | .function (some sig) => sig.result :: sig.params.map Param.type
  | .struct fields _ => fields.map (·.2)
  | .any | .prim _ | .function none | .custom _ _ => []

/-- A host whose values have one attribute. -/
def Host.having (name : Text) (t : Ty) : Host := ⟨some fun n => if n = name then some t else none, none, none, none⟩

/-- A property holds of a type and of every type inside it. -/
inductive Ty.Everywhere (P : Ty → Prop) : Ty → Prop
  | intro {t : Ty} (here : P t) (inside : ∀ a ∈ t.alts, ∀ u ∈ a.parts, Ty.Everywhere P u) :
      Ty.Everywhere P t

/-- A property holds of every type inside an alternative. -/
def Alt.Everywhere (P : Ty → Prop) (a : Alt) : Prop := ∀ u ∈ a.parts, u.Everywhere P

namespace Ty.Everywhere

variable {P Q : Ty → Prop} {t u : Ty} {a : Alt}

theorem here (h : t.Everywhere P) : P t := by
  cases h with
  | intro here inside => exact here

theorem alt (h : t.Everywhere P) (ha : a ∈ t.alts) : a.Everywhere P := by
  cases h with
  | intro here inside => exact inside a ha

theorem mono (hPQ : ∀ u, P u → Q u) (h : t.Everywhere P) : t.Everywhere Q := by
  induction h with
  | intro here _ ih => exact .intro (hPQ _ here) ih

theorem and (hP : t.Everywhere P) (hQ : t.Everywhere Q) : t.Everywhere fun u => P u ∧ Q u := by
  induction hP with
  | intro here _ ih => exact .intro ⟨here, hQ.here⟩ fun a ha u hu => ih a ha u hu (hQ.alt ha u hu)

end Ty.Everywhere

theorem Ty.everywhere_mk_iff {P : Ty → Prop} {alts : List Alt} :
    (Ty.mk alts).Everywhere P ↔ P ⟨alts⟩ ∧ ∀ a ∈ alts, a.Everywhere P :=
  ⟨fun h => ⟨h.here, fun _ ha => h.alt ha⟩, fun h => .intro h.1 h.2⟩

theorem Ty.everywhere_only_iff {P : Ty → Prop} {a : Alt} :
    (Ty.only a).Everywhere P ↔ P (.only a) ∧ a.Everywhere P := by
  rw [Ty.only, Ty.everywhere_mk_iff, List.forall_mem_singleton]

/-- Whether a property holds of a type and of the types inside it, which are nested less than `depth`
deep. -/
def Ty.holdsInside (P : Ty → Prop) [DecidablePred P] (depth : Nat) (t : Ty) : Bool :=
  match depth with
  | 0 => false
  | depth + 1 => decide (P t) && t.alts.all fun a => a.parts.all fun u => u.holdsInside P depth

theorem Ty.everywhere_of_holdsInside {P : Ty → Prop} [DecidablePred P] (depth : Nat) {t : Ty}
    (h : t.holdsInside P depth = true) : t.Everywhere P := by
  induction depth generalizing t with
  | zero => cases h
  | succ depth ih =>
      simp only [holdsInside, Bool.and_eq_true, decide_eq_true_eq, List.all_eq_true] at h
      exact .intro h.1 fun a ha u hu => ih (h.2 a ha u hu)

/-- The alternatives of a union are in normal form: they stand in strictly increasing order of their
texts, `Any` stands alone, and the fields of structs stand in strictly increasing order of name. -/
structure Ty.IsNormalUnion (t : Ty) : Prop where
  sorted : t.alts.Pairwise fun a b => a.text < b.text
  alone : .any ∈ t.alts → t = .any
  fields : ∀ fields isOpen, .struct fields isOpen ∈ t.alts → fields.Pairwise fun f g => f.1 < g.1

/-- Whether the fields of an alternative stand in strictly increasing order of name. -/
def Alt.hasSortedFields : Alt → Bool
  | .struct fields _ => decide (fields.Pairwise fun f g => f.1 < g.1)
  | _ => true

theorem Ty.isNormalUnion_iff {t : Ty} :
    t.IsNormalUnion ↔ t.alts.Pairwise (fun a b => a.text < b.text) ∧
      (t.alts.any Alt.isAny = true → t.alts.length = 1) ∧ t.alts.all Alt.hasSortedFields = true := by
  have hany : t.alts.any Alt.isAny = true ↔ .any ∈ t.alts := by
    rw [List.any_eq_true]
    refine ⟨fun ⟨a, ha, h⟩ => ?_, fun h => ⟨.any, h, rfl⟩⟩
    cases a with
    | any => exact ha
    | _ => cases h
  rw [hany, List.all_eq_true]
  obtain ⟨alts⟩ := t
  constructor
  · intro h
    refine ⟨h.sorted, fun h' => by rw [h.alone h']; rfl, fun a ha => ?_⟩
    cases a with
    | struct fields isOpen => exact decide_eq_true (h.fields fields isOpen ha)
    | _ => rfl
  · rintro ⟨hsorted, halone, hfields⟩
    refine ⟨hsorted, fun h => ?_, fun fields isOpen h => of_decide_eq_true (hfields _ h)⟩
    obtain ⟨a, rfl⟩ := List.length_eq_one_iff.mp (halone h)
    exact congrArg Ty.only (List.mem_singleton.mp h).symm

theorem Ty.IsNormalUnion.map {alts : List Alt} (h : (Ty.mk alts).IsNormalUnion) {f : Alt → Alt}
    (htext : ∀ a ∈ alts, (f a).text = a.text) (hany : ∀ a, (f a).isAny = a.isAny)
    (hfields : ∀ a, a.hasSortedFields = true → (f a).hasSortedFields = true) : (Ty.mk (alts.map f)).IsNormalUnion := by
  obtain ⟨hsorted, halone, hall⟩ := isNormalUnion_iff.mp h
  refine isNormalUnion_iff.mpr ⟨List.pairwise_map.mpr ?_, fun hsome => ?_, ?_⟩
  · refine hsorted.imp_of_mem fun ha hb hlt => ?_
    rwa [htext _ ha, htext _ hb]
  · rw [List.any_map] at hsome
    rw [List.length_map]
    exact halone (by simpa only [Function.comp_def, hany] using hsome)
  · rw [List.all_map, List.all_eq_true]
    exact fun a ha => hfields a (List.all_eq_true.mp hall a ha)

instance : DecidablePred Ty.IsNormalUnion := fun _ => decidable_of_iff' _ Ty.isNormalUnion_iff

/-- A type is in normal form, and so is every type inside it. -/
def Ty.Normal : Ty → Prop := Ty.Everywhere Ty.IsNormalUnion

/-! ### Insertion -/

namespace Alt

variable {a b : Alt} {alts sorted : List Alt}

theorem mem_insert (h : b ∈ a.insert alts) : b = a ∨ b ∈ alts := by
  induction alts with
  | nil => exact Or.inl (List.mem_singleton.mp h)
  | cons c rest ih =>
      rw [insert] at h
      split at h
      · exact List.mem_cons.mp h
      · split at h
        · exact Or.inr h
        · rcases List.mem_cons.mp h with rfl | h
          · exact Or.inr List.mem_cons_self
          · exact (ih h).imp_right (List.mem_cons_of_mem c)

theorem mem_insert_of_mem (h : b ∈ alts) : b ∈ a.insert alts := by
  induction alts with
  | nil => cases h
  | cons c rest ih =>
      rw [insert]
      split
      · exact List.mem_cons_of_mem a h
      · split
        · exact h
        · rcases List.mem_cons.mp h with rfl | h
          · exact List.mem_cons_self
          · exact List.mem_cons_of_mem c (ih h)

theorem exists_text_mem_insert (a : Alt) (alts : List Alt) : ∃ b ∈ a.insert alts, b.text = a.text := by
  induction alts with
  | nil => exact ⟨a, List.mem_singleton.mpr rfl, rfl⟩
  | cons c rest ih =>
      rw [insert]
      split
      · exact ⟨a, List.mem_cons_self, rfl⟩
      · split
        · next heq => exact ⟨c, List.mem_cons_self, heq.symm⟩
        · obtain ⟨b, hb, htext⟩ := ih
          exact ⟨b, List.mem_cons_of_mem c hb, htext⟩

theorem pairwise_insert (h : alts.Pairwise fun b c => b.text < c.text) :
    (a.insert alts).Pairwise fun b c => b.text < c.text := by
  induction alts with
  | nil => exact List.pairwise_singleton _ _
  | cons c rest ih =>
      obtain ⟨hfirst, hrest⟩ := List.pairwise_cons.mp h
      rw [insert]
      split
      · next hlt =>
        refine List.pairwise_cons.mpr ⟨fun d hd => ?_, h⟩
        rcases List.mem_cons.mp hd with rfl | hd
        · exact hlt
        · exact String.lt_trans hlt (hfirst d hd)
      · split
        · exact h
        · next hlt hne =>
          refine List.pairwise_cons.mpr ⟨fun d hd => ?_, ih hrest⟩
          rcases mem_insert hd with rfl | hd
          · exact Text.lt_of_not_lt_of_ne hlt hne
          · exact hfirst d hd

theorem insert_of_forall_lt (h : ∀ b ∈ alts, b.text < a.text) : a.insert alts = alts ++ [a] := by
  induction alts with
  | nil => rfl
  | cons c rest ih =>
      have hc := h c List.mem_cons_self
      rw [insert, if_neg (String.lt_asymm hc), if_neg (String.ne_of_lt hc).symm,
        ih fun b hb => h b (List.mem_cons_of_mem c hb)]
      rfl

/-- Alternatives put in one after another. -/
def insertAll (alts sorted : List Alt) : List Alt := alts.foldl (fun sorted a => a.insert sorted) sorted

theorem mem_insertAll (h : b ∈ insertAll alts sorted) : b ∈ alts ∨ b ∈ sorted := by
  induction alts generalizing sorted with
  | nil => exact Or.inr h
  | cons a rest ih =>
      have h : b ∈ insertAll rest (a.insert sorted) := h
      rcases ih h with h | h
      · exact Or.inl (List.mem_cons_of_mem a h)
      · rcases mem_insert h with rfl | h
        · exact Or.inl List.mem_cons_self
        · exact Or.inr h

theorem mem_insertAll_of_mem (h : b ∈ sorted) : b ∈ insertAll alts sorted := by
  induction alts generalizing sorted with
  | nil => exact h
  | cons a rest ih => exact ih (mem_insert_of_mem h)

theorem exists_text_mem_insertAll (sorted : List Alt) (h : a ∈ alts) :
    ∃ b ∈ insertAll alts sorted, b.text = a.text := by
  induction alts generalizing sorted with
  | nil => cases h
  | cons c rest ih =>
      rcases List.mem_cons.mp h with rfl | h
      · obtain ⟨b, hb, htext⟩ := exists_text_mem_insert a sorted
        have hmem : b ∈ insertAll rest (a.insert sorted) := mem_insertAll_of_mem hb
        exact ⟨b, hmem, htext⟩
      · exact ih (c.insert sorted) h

theorem pairwise_insertAll (alts : List Alt) (h : sorted.Pairwise fun b c => b.text < c.text) :
    (insertAll alts sorted).Pairwise fun b c => b.text < c.text := by
  induction alts generalizing sorted with
  | nil => exact h
  | cons a rest ih => exact ih (pairwise_insert h)

theorem insertAll_of_pairwise (h : (sorted ++ alts).Pairwise fun b c => b.text < c.text) :
    insertAll alts sorted = sorted ++ alts := by
  induction alts generalizing sorted with
  | nil => exact (List.append_nil sorted).symm
  | cons a rest ih =>
      have hbefore : ∀ b ∈ sorted, b.text < a.text := fun b hb =>
        (List.pairwise_append.mp h).2.2 b hb a List.mem_cons_self
      have hsplit : sorted ++ a :: rest = (sorted ++ [a]) ++ rest := by simp
      show insertAll rest (a.insert sorted) = sorted ++ a :: rest
      rw [insert_of_forall_lt hbefore, hsplit]
      exact ih (hsplit ▸ h)

end Alt

/-! ### Unions -/

namespace Ty

variable {t : Ty} {alts : List Alt} {a : Alt}

theorem eq_any_of_isAny (h : t.isAny = true) : t = .any := by
  obtain ⟨alts⟩ := t
  unfold isAny at h
  split at h
  · next a halts =>
    cases halts
    cases a with
    | any => rfl
    | _ => cases h
  · cases h

theorem any_mem_of_isAny (h : t.isAny = true) : .any ∈ t.alts := by
  rw [eq_any_of_isAny h]
  exact List.mem_cons_self

theorem isAny_eq_false (h : .any ∉ t.alts) : t.isAny = false :=
  Bool.eq_false_iff.mpr fun hany => h (any_mem_of_isAny hany)

theorem any_mem_of_any (h : alts.any Alt.isAny = true) : .any ∈ alts := by
  obtain ⟨a, ha, hany⟩ := List.any_eq_true.mp h
  cases a with
  | any => exact ha
  | _ => cases hany

theorem not_any_of_not_mem (h : .any ∉ alts) : ¬alts.any Alt.isAny = true :=
  fun hany => h (any_mem_of_any hany)

theorem ofAlts_of_any_mem (h : .any ∈ alts) : ofAlts alts = .any := by
  rw [ofAlts, if_pos (List.any_eq_true.mpr ⟨.any, h, rfl⟩)]

theorem alts_ofAlts (h : .any ∉ alts) : (ofAlts alts).alts = Alt.insertAll alts [] := by
  rw [ofAlts, if_neg (not_any_of_not_mem h)]
  rfl

theorem mem_of_mem_ofAlts (h : a ∈ (ofAlts alts).alts) : a ∈ alts := by
  by_cases hany : .any ∈ alts
  · rw [ofAlts_of_any_mem hany] at h
    exact List.mem_singleton.mp h ▸ hany
  · rw [alts_ofAlts hany] at h
    exact (Alt.mem_insertAll h).resolve_right List.not_mem_nil

theorem exists_text_mem_ofAlts (hany : .any ∉ alts) (h : a ∈ alts) : ∃ b ∈ (ofAlts alts).alts, b.text = a.text := by
  rw [alts_ofAlts hany]
  exact Alt.exists_text_mem_insertAll [] h

theorem mem_ofAlts_iff (hany : .any ∉ alts) (hinj : ∀ b ∈ alts, ∀ c ∈ alts, b.text = c.text → b = c) :
    a ∈ (ofAlts alts).alts ↔ a ∈ alts := by
  constructor
  · exact mem_of_mem_ofAlts
  · intro h
    obtain ⟨b, hb, htext⟩ := exists_text_mem_ofAlts hany h
    exact hinj b (mem_of_mem_ofAlts hb) a h htext ▸ hb

theorem ofAlts_alts (h : t.IsNormalUnion) : ofAlts t.alts = t := by
  by_cases hany : .any ∈ t.alts
  · rw [ofAlts_of_any_mem hany, h.alone hany]
  · obtain ⟨alts⟩ := t
    rw [ofAlts, if_neg (not_any_of_not_mem hany)]
    have hsorted : Alt.insertAll alts [] = [] ++ alts := Alt.insertAll_of_pairwise h.sorted
    exact congrArg Ty.mk hsorted

theorem union_singleton_eq (t : Ty) : union [t] = ofAlts t.alts := by
  rw [union, List.flatMap_cons, List.flatMap_nil, List.append_nil]

theorem isNormalUnion_any : Ty.any.IsNormalUnion where
  sorted := List.pairwise_singleton _ _
  alone _ := rfl
  fields _ _ h := by cases List.mem_singleton.mp h

theorem isNormalUnion_ofAlts
    (hfields : ∀ fields isOpen, .struct fields isOpen ∈ alts → fields.Pairwise fun f g => f.1 < g.1) :
    (ofAlts alts).IsNormalUnion := by
  by_cases hany : .any ∈ alts
  · rw [ofAlts_of_any_mem hany]
    exact isNormalUnion_any
  · refine ⟨?_, fun h => absurd (mem_of_mem_ofAlts h) hany, fun fields isOpen h =>
      hfields fields isOpen (mem_of_mem_ofAlts h)⟩
    rw [alts_ofAlts hany]
    exact Alt.pairwise_insertAll alts List.Pairwise.nil

theorem everywhere_ofAlts {P : Ty → Prop} (hhere : P (ofAlts alts)) (h : ∀ a ∈ alts, a.Everywhere P) :
    (ofAlts alts).Everywhere P :=
  .intro hhere fun a ha => h a (mem_of_mem_ofAlts ha)

theorem mem_of_mem_union {ts : List Ty} (h : a ∈ (union ts).alts) : ∃ t ∈ ts, a ∈ t.alts :=
  List.mem_flatMap.mp (mem_of_mem_ofAlts h)

end Ty

end Gradual
