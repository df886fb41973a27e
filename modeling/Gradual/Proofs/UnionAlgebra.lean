import Gradual.Proofs.MeetSymmetry
import Gradual.Proofs.TypeEquality

/-! Unions as an algebra. Of several alternatives of one text a union keeps the first, and so its alternatives are
determined by which alternative comes first for each text. Uniting some of the members beforehand does not change
that: a union of unions is the union of all their members, the very same type. The order of the members may change
which alternative stands for a text, but not the texts, by which types are compared. -/

namespace Gradual

namespace Alt

/-- The first of several alternatives that has the given text. -/
def ofText? (text : Text) (alts : List Alt) : Option Alt := alts.find? (·.text == text)

variable {as bs sorted : List Alt}

theorem insertAll_append (as bs sorted : List Alt) : insertAll (as ++ bs) sorted = insertAll bs (insertAll as sorted) :=
  List.foldl_append

theorem eq_of_text_eq_of_sorted (hsorted : as.Pairwise fun a b => a.text < b.text) {a b : Alt} (ha : a ∈ as)
    (hb : b ∈ as) (htext : a.text = b.text) : a = b := by
  induction as with
  | nil => cases ha
  | cons c rest ih =>
      obtain ⟨hfirst, hrest⟩ := List.pairwise_cons.mp hsorted
      rcases List.mem_cons.mp ha with rfl | hrest_a <;> rcases List.mem_cons.mp hb with rfl | hrest_b
      · rfl
      · exact absurd htext (String.ne_of_lt (hfirst b hrest_b))
      · exact absurd htext.symm (String.ne_of_lt (hfirst a hrest_a))
      · exact ih hrest hrest_a hrest_b

theorem ofText?_append (text : Text) (as bs : List Alt) :
    ofText? text (as ++ bs) = (ofText? text as).or (ofText? text bs) :=
  List.find?_append

theorem ofText?_eq_none {text : Text} (h : ∀ a ∈ as, a.text ≠ text) : ofText? text as = none :=
  List.find?_eq_none.mpr fun a ha => by simpa using h a ha

theorem ofText?_singleton_of_ne {text : Text} {a : Alt} (h : a.text ≠ text) : ofText? text [a] = none :=
  ofText?_eq_none (List.forall_mem_singleton.mpr h)

theorem ofText?_singleton (a : Alt) : ofText? a.text [a] = some a := by
  simp [ofText?]

theorem ofText?_cons (text : Text) (a : Alt) (as : List Alt) :
    ofText? text (a :: as) = (ofText? text [a]).or (ofText? text as) :=
  ofText?_append text [a] as

theorem ofText?_insert (text : Text) (a : Alt) (h : sorted.Pairwise fun b c => b.text < c.text) :
    ofText? text (a.insert sorted) = (ofText? text sorted).or (ofText? text [a]) := by
  induction sorted with
  | nil => rfl
  | cons c rest ih =>
      obtain ⟨hfirst, hrest⟩ := List.pairwise_cons.mp h
      rw [insert]
      split
      · next hlt =>
        -- All that follows has a greater text, so that `a` is the only choice for its own.
        rw [ofText?_cons text a]
        by_cases htext : a.text = text
        · have hnone : ofText? text (c :: rest) = none := by
            refine ofText?_eq_none fun b hb => ?_
            rcases List.mem_cons.mp hb with rfl | hb
            · exact htext ▸ (String.ne_of_lt hlt).symm
            · exact htext ▸ (String.ne_of_lt (String.lt_trans hlt (hfirst b hb))).symm
          rw [hnone, Option.or_none, Option.none_or]
        · rw [ofText?_singleton_of_ne htext, Option.or_none, Option.none_or]
      · split
        · next heq =>
          by_cases htext : a.text = text
          · rw [ofText?_cons text c, ← htext, heq, ofText?_singleton, Option.some_or, Option.some_or]
          · rw [ofText?_singleton_of_ne htext, Option.or_none]
        · rw [ofText?_cons text c (a.insert rest), ofText?_cons text c rest, ih hrest, Option.or_assoc]

theorem ofText?_insertAll (text : Text) (as : List Alt) (h : sorted.Pairwise fun b c => b.text < c.text) :
    ofText? text (insertAll as sorted) = (ofText? text sorted).or (ofText? text as) := by
  induction as generalizing sorted with
  | nil => exact Option.or_none.symm
  | cons a as ih =>
      calc ofText? text (insertAll as (a.insert sorted))
        _ = (ofText? text (a.insert sorted)).or (ofText? text as) := ih (pairwise_insert h)
        _ = ((ofText? text sorted).or (ofText? text [a])).or (ofText? text as) := by rw [ofText?_insert text a h]
        _ = (ofText? text sorted).or (ofText? text (a :: as)) := by rw [Option.or_assoc, ← ofText?_cons]

theorem ofText?_eq_some_iff (h : as.Pairwise fun b c => b.text < c.text) {a : Alt} :
    ofText? a.text as = some a ↔ a ∈ as := by
  constructor
  · exact List.mem_of_find?_eq_some
  · intro ha
    cases hfind : ofText? a.text as with
    | none => exact absurd (List.find?_eq_none.mp hfind a ha) (by simp)
    | some b =>
        have htext : b.text = a.text := by simpa using List.find?_some hfind
        rw [eq_of_text_eq_of_sorted h (List.mem_of_find?_eq_some hfind) ha htext]

/-- The alternatives put in order are determined by the first alternative of each text. -/
theorem insertAll_congr (h : ∀ text, ofText? text as = ofText? text bs) : insertAll as [] = insertAll bs [] := by
  have has := pairwise_insertAll as List.Pairwise.nil
  have hbs := pairwise_insertAll bs List.Pairwise.nil
  have : Std.Irrefl fun a b : Alt => a.text < b.text := ⟨fun a => String.lt_irrefl a.text⟩
  have : Std.Antisymm fun a b : Alt => a.text < b.text := ⟨fun a b hab hba => absurd hba (String.lt_asymm hab)⟩
  refine List.Pairwise.eq_of_mem_iff has hbs fun a => ?_
  rw [← ofText?_eq_some_iff has, ← ofText?_eq_some_iff hbs, ofText?_insertAll _ _ List.Pairwise.nil,
    ofText?_insertAll _ _ List.Pairwise.nil, h]

end Alt

namespace Ty

/-! ### Unions of unions -/

variable {t u v : Ty}

theorem any_mem_alts_ofAlts {alts : List Alt} : .any ∈ (ofAlts alts).alts ↔ .any ∈ alts := by
  refine ⟨mem_of_mem_ofAlts, fun h => ?_⟩
  rw [ofAlts_of_any_mem h]
  exact List.mem_cons_self

theorem ofAlts_congr {as bs : List Alt} (hany : .any ∈ as ↔ .any ∈ bs)
    (h : .any ∉ as → ∀ text, Alt.ofText? text as = Alt.ofText? text bs) : ofAlts as = ofAlts bs := by
  by_cases has : .any ∈ as
  · rw [ofAlts_of_any_mem has, ofAlts_of_any_mem (hany.mp has)]
  · refine eq_of_alts_eq ?_
    rw [alts_ofAlts has, alts_ofAlts (mt hany.mpr has)]
    exact Alt.insertAll_congr (h has)

/-- Some of the alternatives may be put in order before all of them are. -/
theorem ofAlts_splice (as bs cs : List Alt) : ofAlts (as ++ ((ofAlts bs).alts ++ cs)) = ofAlts (as ++ (bs ++ cs)) := by
  refine ofAlts_congr ?_ fun hany text => ?_
  · simp only [List.mem_append, any_mem_alts_ofAlts]
  · have hbs : .any ∉ bs := by
      simp only [List.mem_append, any_mem_alts_ofAlts, not_or] at hany
      exact hany.2.1
    simp only [Alt.ofText?_append]
    rw [alts_ofAlts hbs, Alt.ofText?_insertAll _ _ List.Pairwise.nil]
    rfl

theorem union_splice (ts us vs : List Ty) : union (ts ++ union us :: vs) = union (ts ++ (us ++ vs)) := by
  simp only [union, List.flatMap_append, List.flatMap_cons]
  exact ofAlts_splice _ _ _

theorem union_union (ts : List Ty) : union [union ts] = union ts := by
  simpa using union_splice [] ts []

theorem union_append_eq (ts us : List Ty) : union (ts ++ us) = union [union ts, union us] :=
  calc union (ts ++ us) = union (ts ++ [union us]) := by simpa using (union_splice ts us []).symm
    _ = union [union ts, union us] := (union_splice [] ts [union us]).symm

theorem union_cons_eq (t : Ty) (ts : List Ty) : union (t :: ts) = union [union [t], union ts] :=
  union_append_eq [t] ts

theorem union_map_union (ts : List Ty) : union (ts.map fun t => union [t]) = union ts := by
  induction ts with
  | nil => rfl
  | cons t ts ih => rw [List.map_cons, union_cons_eq, ih, union_union, ← union_cons_eq]

theorem union_cons_self (t : Ty) (ts : List Ty) : union (t :: t :: ts) = union (t :: ts) := by
  refine ofAlts_congr ?_ fun _ text => ?_
  · simp only [List.flatMap_cons, List.mem_append]
    tauto
  · simp only [List.flatMap_cons, Alt.ofText?_append]
    rw [← Option.or_assoc, Option.or_self]

theorem union_absorbs (t u v : Ty) : union [t, union [union [t, u], v]] = union [union [t, u], v] :=
  have hflat : union [union [t, u], v] = union [t, u, v] := union_splice [] [t, u] [v]
  calc union [t, union [union [t, u], v]] = union [t, t, u, v] := by rw [hflat]; exact union_splice [t] [t, u, v] []
    _ = union [union [t, u], v] := by rw [union_cons_self, hflat]

theorem Normal.union_singleton (h : t.Normal) : union [t] = t := by
  rw [union_singleton_eq, ofAlts_alts h.here]

theorem union_pair (t u : Ty) : union [t, u] = ofAlts (t.alts ++ u.alts) := by
  rw [union, List.flatMap_cons, List.flatMap_cons, List.flatMap_nil, List.append_nil]

theorem alts_union_pair (h : .any ∉ t.alts ++ u.alts) : (union [t, u]).alts = Alt.insertAll (t.alts ++ u.alts) [] := by
  rw [union_pair, alts_ofAlts h]

theorem union_pair_never (t : Ty) : union [t, .never] = union [t] := by
  rw [union_pair, union_singleton_eq]
  exact congrArg ofAlts (List.append_nil t.alts)

/-! ### The texts of a union -/

theorem mem_texts_union_iff {ts : List Ty} (hany : .any ∉ ts.flatMap Ty.alts) (text : Text) :
    text ∈ (union ts).alts.map Alt.text ↔ text ∈ (ts.flatMap Ty.alts).map Alt.text := by
  rw [List.mem_map, List.mem_map]
  constructor
  · rintro ⟨a, ha, htext⟩
    exact ⟨a, mem_of_mem_ofAlts ha, htext⟩
  · rintro ⟨a, ha, rfl⟩
    exact exists_text_mem_ofAlts hany ha

theorem pairwise_texts_union {ts : List Ty} (hany : .any ∉ ts.flatMap Ty.alts) :
    ((union ts).alts.map Alt.text).Pairwise (· < ·) := by
  rw [union, alts_ofAlts hany]
  exact List.pairwise_map.mpr (Alt.pairwise_insertAll _ List.Pairwise.nil)

theorem equal_union_of_mem_iff {ts us : List Ty} (h : ∀ t, t ∈ ts ↔ t ∈ us) : (union ts).equal (union us) = true := by
  have hmem (a : Alt) : a ∈ ts.flatMap Ty.alts ↔ a ∈ us.flatMap Ty.alts := by
    simp only [List.mem_flatMap, h]
  by_cases hany : .any ∈ ts.flatMap Ty.alts
  · rw [union, union, ofAlts_of_any_mem hany, ofAlts_of_any_mem ((hmem _).mp hany)]
    exact equal_self _
  · refine equal_ofAlts hany (mt (hmem _).mpr hany) fun s => ?_
    simp only [List.mem_map, hmem]

end Ty

/-! ### Groupings -/

/-- Types that are united in groups, and groups that are united in turn. -/
inductive Grouping where
  | type (t : Ty)
  | union (parts : List Grouping)

namespace Grouping

mutual

/-- The type that a grouping comes to, each group being united on its own. -/
def join : Grouping → Ty
  | .type t => t
  | .union parts => Ty.union (joins parts)

def joins : List Grouping → List Ty
  | [] => []
  | x :: rest => x.join :: joins rest

end

mutual

/-- The types that are united in a grouping, from left to right. -/
def members : Grouping → List Ty
  | .type t => [t]
  | .union parts => allMembers parts

def allMembers : List Grouping → List Ty
  | [] => []
  | x :: rest => x.members ++ allMembers rest

end

mutual

theorem union_join : (x : Grouping) → Ty.union [x.join] = Ty.union x.members
  | .type _ => rfl
  | .union parts => by
      rw [join, members, Ty.union_union]
      exact union_joins parts

theorem union_joins : (parts : List Grouping) → Ty.union (joins parts) = Ty.union (allMembers parts)
  | [] => rfl
  | x :: rest => by
      rw [joins, allMembers, Ty.union_cons_eq, union_join x, union_joins rest, Ty.union_append_eq]

end

theorem join_eq_union {x : Grouping} (h : ∀ t ∈ x.members, t.Normal) : x.join = Ty.union x.members := by
  cases x with
  | type t => exact (h t List.mem_cons_self).union_singleton.symm
  | union parts => exact union_joins parts

end Grouping

namespace Ty

/-- Unions form a semilattice with `Any` on top and `Never` at the bottom. With `Any` among the alternatives of its
members a union is `Any` alone; else the texts of its alternatives are those of the members' alternatives, in strictly
increasing order. Two groupings of the same types in normal form come to equal types, whatever their order and
repetitions. -/
theorem union_semilattice :
    (∀ ts : List Ty,
      (.any ∈ ts.flatMap Ty.alts → (union ts).alts = [.any]) ∧
      (.any ∉ ts.flatMap Ty.alts →
        (∀ text, text ∈ (union ts).alts.map Alt.text ↔ text ∈ (ts.flatMap Ty.alts).map Alt.text) ∧
        ((union ts).alts.map Alt.text).Pairwise (· < ·))) ∧
    (∀ x y : Grouping, (∀ t ∈ x.members, t.Normal) → (∀ t, t ∈ x.members ↔ t ∈ y.members) →
      x.join.equal y.join = true) ∧
    ∀ t : Ty, t.Normal →
      union [t, .never] = t ∧ union [.never, t] = t ∧ union [t, .any] = .any ∧ union [.any, t] = .any := by
  refine ⟨fun ts => ⟨fun hany => ?_, fun hany => ⟨mem_texts_union_iff hany, pairwise_texts_union hany⟩⟩,
    fun x y hnormal hmembers => ?_, fun t hnormal => ⟨?_, ?_, ?_, ?_⟩⟩
  · rw [union, ofAlts_of_any_mem hany]
    rfl
  · rw [Grouping.join_eq_union hnormal, Grouping.join_eq_union fun t ht => hnormal t ((hmembers t).mpr ht)]
    exact equal_union_of_mem_iff hmembers
  · exact (union_pair_never t).trans hnormal.union_singleton
  · exact hnormal.union_singleton
  · exact union_eq_any (t := .any) (List.mem_cons_of_mem t List.mem_cons_self) List.mem_cons_self
  · exact union_eq_any (t := .any) List.mem_cons_self List.mem_cons_self

/-- Lists of texts, numbers and `None` as one group. -/
def oneGroup : Grouping := .union [.type .none, .type .int, .type (.list .str)]

/-- The same types in groups, some of them more than once. -/
def manyGroups : Grouping :=
  .union [.union [.type (.list .str), .union [.type .int, .type .int]], .union [.type .none], .type (.list .str)]

theorem union_semilattice_groups :
    (∀ t ∈ manyGroups.members, t.Normal) ∧ (∀ t, t ∈ manyGroups.members ↔ t ∈ oneGroup.members) ∧
    manyGroups.join.equal oneGroup.join = true ∧ manyGroups.join.text = "None | int | list[str]" ∧
    ((union [.list .str, .int]).alts.map Alt.text).Pairwise (· < ·) ∧ (union [.int, .any]).alts = [.any] ∧
    union [.list .str, .never] = .list .str := by
  have hlist : (list .str).Normal := everywhere_of_holdsInside 2 (by decide +kernel)
  have hint : int.Normal := everywhere_of_holdsInside 1 (by decide +kernel)
  have hnone : none.Normal := everywhere_of_holdsInside 1 (by decide +kernel)
  have hnormal : ∀ t ∈ manyGroups.members, t.Normal := by
    intro t ht
    simp only [manyGroups, Grouping.members, Grouping.allMembers, List.mem_append, List.mem_singleton,
      List.not_mem_nil, or_false] at ht
    rcases ht with (rfl | rfl | rfl) | rfl | rfl
    exacts [hlist, hint, hint, hnone, hlist]
  have hmembers : ∀ t, t ∈ manyGroups.members ↔ t ∈ oneGroup.members := by
    intro t
    simp only [manyGroups, oneGroup, Grouping.members, Grouping.allMembers, List.mem_append, List.mem_singleton,
      List.not_mem_nil, or_false]
    tauto
  obtain ⟨halts, hgroups, hbounds⟩ := union_semilattice
  exact ⟨hnormal, hmembers, hgroups _ _ hnormal hmembers, by decide +kernel,
    ((halts _).2 (by simp [list, int, only])).2, (halts _).1 (by simp [any, only]), (hbounds _ hlist).1⟩

end Ty

end Gradual
