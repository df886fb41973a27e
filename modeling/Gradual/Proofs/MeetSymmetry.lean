import Gradual.Proofs.MeetBounds
import Mathlib.Data.List.Sort
import Mathlib.Data.List.Zip

/-! The order of the two sides of a meet. Containers meet part by part, and which side stands first makes no
difference to the texts of the result. Two records, or two callables with signatures, meet in the one that is below
the other. Where each is below the other and they are not the same, as with a field of type `Any` in one of them,
or with other parameters, the first one is kept: these are rivals, and the only alternatives whose order matters. -/

namespace Gradual

namespace Alt

/-- Whether an alternative is one of those that meet in the lower one. -/
def isRanked : Alt → Bool
  | .function (some _) | .struct _ _ => true
  | _ => false

theorem isAny_eq_false_of_isRanked {x : Alt} (h : x.isRanked = true) : x.isAny = false := by
  cases x with
  | any => cases h
  | _ => rfl

theorem isAny_eq_false_of_isContainer {x : Alt} (h : x.isContainer = true) : x.isAny = false := by
  cases x with
  | any => cases h
  | _ => rfl

/-- Two records, or two callables with signatures, that are below each other and have different texts. -/
structure Rivals (x y : Alt) : Prop where
  left : x.isRanked = true
  right : y.isRanked = true
  below : x.subtype y = true
  above : y.subtype x = true
  ne : x.text ≠ y.text

/-- The parts of two containers of one form, which are met when the containers are. A container and an iterable of
another form are always met in one order, so that nothing in them depends on the order of the sides. -/
def facing : Alt → Alt → List (Ty × Ty)
  | .list t, .list u | .tupleOf t, .tupleOf u | .iterable t, .iterable u => [(t, u)]
  | .tuple ts, .tuple us => if ts.length = us.length then ts.zip us else []
  | .dict k v, .dict k' v' => [(k, k'), (v, v')]
  | _, _ => []

end Alt

/-- Two alternatives that are met when two types are, at whatever depth. -/
inductive Ty.Faces : Ty → Ty → Alt → Alt → Prop
  | here {t u : Ty} {x y : Alt} (hx : x ∈ t.alts) (hy : y ∈ u.alts) : Faces t u x y
  | inside {t u v w : Ty} {x y x' y' : Alt} (hx : x ∈ t.alts) (hy : y ∈ u.alts) (hvw : (v, w) ∈ x.facing y)
      (h : Faces v w x' y') : Faces t u x' y'

/-! ### Texts -/

namespace Ty

theorem equal_iff {t u : Ty} : t.equal u = true ↔ t.alts.map Alt.text = u.alts.map Alt.text := by
  rw [equal, beq_iff_eq]

theorem text_eq_of_equal {t u : Ty} (h : t.equal u = true) : t.text = u.text := by
  rw [equal_iff] at h
  by_cases ht : t.alts = []
  · have hu : u.alts = [] := List.map_eq_nil_iff.mp (by rw [← h, ht]; rfl)
    obtain ⟨_⟩ := t
    obtain ⟨_⟩ := u
    cases ht
    cases hu
    rfl
  · have hu : u.alts ≠ [] := fun hu => ht (List.map_eq_nil_iff.mp (by rw [h, hu]; rfl))
    rw [text_eq_join ht, text_eq_join hu, h]

theorem equal_ofAlts {as bs : List Alt} (has : .any ∉ as) (hbs : .any ∉ bs)
    (h : ∀ s, s ∈ as.map Alt.text ↔ s ∈ bs.map Alt.text) : (ofAlts as).equal (ofAlts bs) = true := by
  have hmem : ∀ {cs : List Alt}, .any ∉ cs → ∀ s, s ∈ (ofAlts cs).alts.map Alt.text ↔ s ∈ cs.map Alt.text := by
    intro cs hcs s
    rw [List.mem_map, List.mem_map]
    constructor
    · rintro ⟨c, hc, htext⟩
      exact ⟨c, mem_of_mem_ofAlts hc, htext⟩
    · rintro ⟨c, hc, rfl⟩
      exact exists_text_mem_ofAlts hcs hc
  have hsorted : ∀ {cs : List Alt}, .any ∉ cs → ((ofAlts cs).alts.map Alt.text).Pairwise (· < ·) := by
    intro cs hcs
    rw [alts_ofAlts hcs]
    exact List.pairwise_map.mpr (Alt.pairwise_insertAll cs List.Pairwise.nil)
  rw [equal_iff]
  refine List.Pairwise.eq_of_mem_iff (hsorted has) (hsorted hbs) fun s => ?_
  rw [hmem has, hmem hbs, h]

end Ty

namespace Alt

theorem text_tuple_congr {ts us : List Ty} (h : ts.map Ty.text = us.map Ty.text) :
    (Alt.tuple ts).text = (Alt.tuple us).text := by
  have hempty : ts.isEmpty = us.isEmpty := by
    rw [← List.isEmpty_map (f := Ty.text), h, List.isEmpty_map]
  rw [Alt.text, Alt.text, Ty.texts_eq_map, Ty.texts_eq_map, h, hempty]

/-! ### Alternatives -/

theorem mem_parts_of_facing {x y : Alt} {p : Ty × Ty} (h : p ∈ x.facing y) :
    x.isContainer = true ∧ y.isContainer = true ∧ p.1 ∈ x.parts ∧ p.2 ∈ y.parts := by
  unfold facing at h
  split at h
  · cases List.mem_singleton.mp h
    exact ⟨rfl, rfl, List.mem_cons_self, List.mem_cons_self⟩
  · cases List.mem_singleton.mp h
    exact ⟨rfl, rfl, List.mem_cons_self, List.mem_cons_self⟩
  · cases List.mem_singleton.mp h
    exact ⟨rfl, rfl, List.mem_cons_self, List.mem_cons_self⟩
  · split at h
    · exact ⟨rfl, rfl, (List.of_mem_zip h).1, (List.of_mem_zip h).2⟩
    · cases h
  · rcases List.mem_pair.mp h with rfl | rfl
    · exact ⟨rfl, rfl, List.mem_cons_self, List.mem_cons_self⟩
    · exact ⟨rfl, rfl, mem_second, mem_second⟩
  · cases h

/-- Two alternatives that have an order meet in the lower one, and in the first one if each is below the other. -/
theorem meet_of_isRanked {x y : Alt} (hx : x.isRanked = true) (hy : y.isRanked = true) :
    x.meet y = if x.subtype y then some x else if y.subtype x then some y else none := by
  cases x with
  | function sig =>
      cases sig with
      | none => cases hx
      | some s =>
          cases y with
          | function sig' =>
              cases sig' with
              | none => cases hy
              | some s' => rw [Alt.meet]
          | struct => simp [Alt.meet, Alt.subtype]
          | _ => cases hy
  | struct fields isOpen =>
      cases y with
      | function sig' =>
          cases sig' with
          | none => cases hy
          | some s' => simp [Alt.meet, Alt.subtype]
      | struct => rw [Alt.meet]
      | _ => cases hy
  | _ => cases hx

theorem map_text_meet_of_isRanked {x y : Alt} (hx : x.isRanked = true) (hy : y.isRanked = true) (h : ¬x.Rivals y) :
    (x.meet y).map text = (y.meet x).map text := by
  rw [meet_of_isRanked hx hy, meet_of_isRanked hy hx]
  by_cases hbelow : x.subtype y = true
  · by_cases habove : y.subtype x = true
    · rw [if_pos hbelow, if_pos habove]
      by_contra hne
      exact h ⟨hx, hy, hbelow, habove, fun heq => hne (congrArg some heq)⟩
    · rw [if_pos hbelow, if_neg habove, if_pos hbelow]
  · rw [if_neg hbelow, if_neg hbelow]

theorem zipWith_meet (ts us : List Ty) : ts.zipWith Ty.meet us = (ts.zip us).map fun p => p.1.meet p.2 :=
  (List.map_zip_eq_zipWith (f := fun p : Ty × Ty => p.1.meet p.2)).symm

theorem zipWith_meet_swap (ts us : List Ty) : us.zipWith Ty.meet ts = (ts.zip us).map fun p => p.2.meet p.1 := by
  rw [zipWith_meet, ← List.zip_swap ts us, List.map_map]
  rfl

theorem iterable_meet_custom (t : Ty) (n : Text) (host : Option Host) :
    (Alt.iterable t).meet (.custom n host) = (Alt.custom n host).meet (.iterable t) := by
  cases host with
  | none => simp [Alt.meet]
  | some host =>
      obtain ⟨attributes, call, binOps, iter⟩ := host
      cases iter <;> simp [Alt.meet]

/-- Unless they are rivals, two alternatives meet alike from both sides, as far as their parts do. -/
theorem map_text_meet_comm {x y : Alt} (hrivals : ¬x.Rivals y)
    (hparts : ∀ p ∈ x.facing y, (p.1.meet p.2).text = (p.2.meet p.1).text) :
    (x.meet y).map text = (y.meet x).map text := by
  cases x with
  | any => cases y <;> simp [Alt.meet]
  | prim p =>
      cases y with
      | prim q =>
          by_cases h : p = q
          · rw [h]
          · simp [Alt.meet, h, Ne.symm h]
      | _ => simp [Alt.meet]
  | list t =>
      cases y with
      | list u => simpa [Alt.meet, Alt.text] using hparts (t, u) List.mem_cons_self
      | _ => simp [Alt.meet]
  | tuple ts =>
      cases y with
      | tuple us =>
          by_cases h : ts.length = us.length
          · rw [meet_tuple h, meet_tuple h.symm, zipWith_meet, zipWith_meet_swap]
            refine congrArg some (text_tuple_congr ?_)
            rw [List.map_map, List.map_map]
            refine List.map_congr_left fun p hp => hparts p ?_
            rw [facing, if_pos h]
            exact hp
          · simp [Alt.meet, h, Ne.symm h]
      | _ => simp [Alt.meet]
  | tupleOf t =>
      cases y with
      | tupleOf u => simpa [Alt.meet, Alt.text] using hparts (t, u) List.mem_cons_self
      | _ => simp [Alt.meet]
  | dict k v =>
      cases y with
      | dict k' v' =>
          have hkey := hparts (k, k') List.mem_cons_self
          have hvalue := hparts (v, v') mem_second
          simp [Alt.meet, Alt.text, hkey, hvalue]
      | _ => simp [Alt.meet]
  | iterable t =>
      cases y with
      | iterable u => simpa [Alt.meet, Alt.text] using hparts (t, u) List.mem_cons_self
      | custom n host => rw [iterable_meet_custom]
      | _ => simp [Alt.meet]
  | function sig =>
      cases y with
      | function sig' =>
          cases sig with
          | none => cases sig' <;> simp [Alt.meet]
          | some s =>
              cases sig' with
              | none => simp [Alt.meet]
              | some s' => exact map_text_meet_of_isRanked rfl rfl hrivals
      | _ => simp [Alt.meet]
  | struct fields isOpen =>
      cases y with
      | struct => exact map_text_meet_of_isRanked rfl rfl hrivals
      | _ => simp [Alt.meet]
  | custom n host =>
      cases y with
      | custom m host' =>
          by_cases h : n = m
          · simp [Alt.meet, Alt.text, h]
          · simp [Alt.meet, h, Ne.symm h]
      | iterable u => rw [iterable_meet_custom]
      | _ => simp [Alt.meet]

theorem exists_meets_of_facing {x y : Alt} {p : Ty × Ty} (h : p ∈ x.facing y) :
    ∃ z z', x.meet y = some z ∧ y.meet x = some z' ∧ z.isContainer = true ∧ z'.isContainer = true ∧
      (z = z' → p.1.meet p.2 = p.2.meet p.1) := by
  unfold facing at h
  split at h
  · next t u =>
    cases List.mem_singleton.mp h
    exact ⟨.list (t.meet u), .list (u.meet t), by simp [Alt.meet], by simp [Alt.meet], rfl, rfl, Alt.list.inj⟩
  · next t u =>
    cases List.mem_singleton.mp h
    exact ⟨.tupleOf (t.meet u), .tupleOf (u.meet t), by simp [Alt.meet], by simp [Alt.meet], rfl, rfl,
      Alt.tupleOf.inj⟩
  · next t u =>
    cases List.mem_singleton.mp h
    exact ⟨.iterable (t.meet u), .iterable (u.meet t), by simp [Alt.meet], by simp [Alt.meet], rfl, rfl,
      Alt.iterable.inj⟩
  · next ts us =>
    split at h
    · next hlength =>
      refine ⟨_, _, meet_tuple hlength, meet_tuple hlength.symm, rfl, rfl, fun heq => ?_⟩
      have hparts := Alt.tuple.inj heq
      rw [zipWith_meet, zipWith_meet_swap] at hparts
      exact List.map_inj_left.mp hparts p h
    · cases h
  · next k v k' v' =>
    refine ⟨.dict (k.meet k') (v.meet v'), .dict (k'.meet k) (v'.meet v), by simp [Alt.meet], by simp [Alt.meet], rfl,
      rfl, fun heq => ?_⟩
    obtain ⟨hkey, hvalue⟩ := Alt.dict.inj heq
    rcases List.mem_pair.mp h with rfl | rfl
    · exact hkey
    · exact hvalue
  · cases h

end Alt

/-! ### Types -/

namespace Ty

/-- Unless rivals face each other, the meet of two types does not depend on the order of the sides. -/
def MeetsAlike (t u : Ty) : Prop :=
  (∀ x y, t.Faces u x y → ¬x.Rivals y) → (t.meet u).equal (u.meet t) = true

theorem equal_self (t : Ty) : t.equal t = true := equal_iff.mpr rfl

theorem mem_map_text_meets {as bs : List Alt} {s : Text} :
    s ∈ (as.flatMap fun x => bs.filterMap x.meet).map Alt.text ↔
      ∃ x ∈ as, ∃ y ∈ bs, (x.meet y).map Alt.text = some s := by
  simp only [List.mem_map, List.mem_flatMap, List.mem_filterMap, Option.map_eq_some_iff]
  constructor
  · rintro ⟨z, ⟨x, hx, y, hy, hz⟩, htext⟩
    exact ⟨x, hx, y, hy, z, hz, htext⟩
  · rintro ⟨x, hx, y, hy, z, hz, htext⟩
    exact ⟨z, ⟨x, hx, y, hy, hz⟩, htext⟩

theorem meetsAlike {t u : Ty} (ht : t.Normal) (hu : u.Normal) : t.MeetsAlike u := by
  refine invariant_normal.pair_induction (fun {t u} ht hu hrelated hrivals => ?_) ht hu
  by_cases htany : t.isAny = true
  · rw [eq_any_of_isAny htany, any_meet, meet_any]
    exact equal_self u
  by_cases huany : u.isAny = true
  · rw [eq_any_of_isAny huany, any_meet, meet_any]
    exact equal_self t
  have htmem : .any ∉ t.alts := fun h => htany (by rw [ht.here.alone h]; rfl)
  have humem : .any ∉ u.alts := fun h => huany (by rw [hu.here.alone h]; rfl)
  have hpair : ∀ x ∈ t.alts, ∀ y ∈ u.alts, (x.meet y).map Alt.text = (y.meet x).map Alt.text := by
    intro x hx y hy
    refine Alt.map_text_meet_comm (hrivals x y (.here hx hy)) fun p hp => ?_
    obtain ⟨hcx, hcy, hpx, hpy⟩ := Alt.mem_parts_of_facing hp
    exact text_eq_of_equal ((hrelated x hx y hy hcx hcy p.1 hpx p.2 hpy).1 fun x' y' h =>
      hrivals x' y' (.inside hx hy hp h))
  rw [meet_eq, if_neg htany, if_neg huany, meet_eq, if_neg huany, if_neg htany]
  refine equal_ofAlts (any_not_mem_meets htmem humem) (any_not_mem_meets humem htmem) fun s => ?_
  rw [mem_map_text_meets, mem_map_text_meets]
  constructor
  · rintro ⟨x, hx, y, hy, htext⟩
    exact ⟨y, hy, x, hx, hpair x hx y hy ▸ htext⟩
  · rintro ⟨y, hy, x, hx, htext⟩
    exact ⟨x, hx, y, hy, hpair x hx y hy ▸ htext⟩

/-- No type in a type has several alternatives. -/
def UnionFree : Ty → Prop := Everywhere fun t => t.alts.length ≤ 1

theorem invariant_readable : Invariant Readable := by
  refine invariant_everyAlt fun a hcontainer => ?_
  cases a with
  | list | tuple | tupleOf | dict | iterable => exact ⟨trivial, trivial⟩
  | _ => cases hcontainer

theorem UnionFree.eq_only {t : Ty} (h : t.UnionFree) {x : Alt} (hx : x ∈ t.alts) : t = .only x := by
  obtain ⟨alts⟩ := t
  obtain ⟨y, rfl⟩ := List.length_eq_one_iff.mp (Nat.le_antisymm h.here (List.length_pos_of_mem hx))
  exact congrArg only (List.mem_singleton.mp hx).symm

theorem only_meet_only {x y z : Alt} (hx : x.isAny = false) (hy : y.isAny = false) (hz : z.isAny = false)
    (h : x.meet y = some z) : (only x).meet (only y) = only z := by
  have hnot : ∀ {w : Alt}, w.isAny = false → ¬(only w).isAny = true := fun hw => ne_true_of_eq_false hw
  rw [meet_eq, if_neg (hnot hx), if_neg (hnot hy)]
  simp [only, h, ofAlts, Alt.insert, hz]

theorem equal_only_iff {x y : Alt} : (only x).equal (only y) = true ↔ x.text = y.text := by
  rw [equal_iff]
  exact List.singleton_inj

/-- Where no union can make up for it, the order of rivals shows. -/
theorem not_equal_of_rivals {t u : Ty} {x y : Alt} (h : t.Faces u x y) (hrivals : x.Rivals y) (ht : t.UnionFree)
    (hu : u.UnionFree) (htread : t.Readable) (huread : u.Readable) : ¬(t.meet u).equal (u.meet t) = true := by
  induction h with
  | here hx hy =>
      have hleft := Alt.isAny_eq_false_of_isRanked hrivals.left
      have hright := Alt.isAny_eq_false_of_isRanked hrivals.right
      have hxy := (Alt.meet_of_isRanked hrivals.left hrivals.right).trans (if_pos hrivals.below)
      have hyx := (Alt.meet_of_isRanked hrivals.right hrivals.left).trans (if_pos hrivals.above)
      rw [ht.eq_only hx, hu.eq_only hy, only_meet_only hleft hright hleft hxy, only_meet_only hright hleft hright hyx,
        equal_only_iff]
      exact hrivals.ne
  | @inside t u v w x₁ y₁ x y hx hy hvw _ ih =>
      intro hequal
      obtain ⟨hcx, hcy, hv, hw⟩ := Alt.mem_parts_of_facing hvw
      obtain ⟨z, z', hz, hz', hcz, hcz', hsame⟩ := Alt.exists_meets_of_facing hvw
      have hany := @Alt.isAny_eq_false_of_isContainer
      rw [ht.eq_only hx, hu.eq_only hy, only_meet_only (hany hcx) (hany hcy) (hany hcz) hz,
        only_meet_only (hany hcy) (hany hcx) (hany hcz') hz', equal_only_iff] at hequal
      have hxread := invariant_readable.alt htread hx
      have hyread := invariant_readable.alt huread hy
      have heq : z = z' := Alt.eq_of_text_eq (invariant_readable.meet_alt hxread hyread hz)
        (invariant_readable.meet_alt hyread hxread hz') hequal
      refine ih hrivals (ht.alt hx v hv) (hu.alt hy w hw) (invariant_readable.part hxread hv)
        (invariant_readable.part hyread hw) ?_
      rw [hsame heq]
      exact equal_self _

/-- The order of the sides makes no difference to the meet of normal types, as told by their texts, unless rivals face
each other. Then it does make one, if no union in the types can make up for it. -/
theorem meet_comm_unless_rivals {a b : Ty} (ha : a.Normal) (hb : b.Normal) :
    ((∀ x y, a.Faces b x y → ¬x.Rivals y) → (a.meet b).equal (b.meet a) = true) ∧
    (a.UnionFree → b.UnionFree → a.Readable → b.Readable → (a.meet b).equal (b.meet a) = true →
      ∀ x y, a.Faces b x y → ¬x.Rivals y) := by
  refine ⟨meetsAlike ha hb, fun hafree hbfree haread hbread hequal x y hfaces hrivals => ?_⟩
  exact not_equal_of_rivals hfaces hrivals hafree hbfree haread hbread hequal

/-- A record, and a list of records with another field. -/
def records : Ty := ⟨[.list (.only (.struct [("x", .int), ("y", .any)] false)), .struct [("x", .int)] false]⟩

/-- A list of records that ask for less, and a record that does. -/
def openRecords : Ty := ⟨[.list (.only (.struct [("x", .int)] true)), .struct [] true]⟩

theorem records_no_rivals {x y : Alt} (h : records.Faces openRecords x y) : ¬x.Rivals y := by
  intro hrivals
  cases h with
  | here hx hy =>
      rcases List.mem_pair.mp hx with rfl | rfl
      · cases hrivals.left
      rcases List.mem_pair.mp hy with rfl | rfl
      · cases hrivals.right
      · exact absurd hrivals.above (by decide +kernel)
  | inside hx hy hvw h =>
      rcases List.mem_pair.mp hx with rfl | rfl
      · rcases List.mem_pair.mp hy with rfl | rfl
        · cases List.mem_singleton.mp hvw
          cases h with
          | here hx hy =>
              cases List.mem_singleton.mp hx
              cases List.mem_singleton.mp hy
              exact absurd hrivals.above (by decide +kernel)
          | inside hx hy hvw _ =>
              cases List.mem_singleton.mp hx
              cases List.mem_singleton.mp hy
              cases hvw
        · cases hvw
      · rcases List.mem_pair.mp hy with rfl | rfl
        · cases hvw
        · cases hvw

/-- Records meet in the lower ones, in lists and outside. -/
theorem meet_comm_unless_rivals_records :
    (records.meet openRecords).text = "list[struct(x = int, y = Any)] | struct(x = int)" ∧
    (records.meet openRecords).equal (openRecords.meet records) = true := by
  refine ⟨by decide +kernel, (meet_comm_unless_rivals (everywhere_of_holdsInside 4 (by decide +kernel))
    (everywhere_of_holdsInside 4 (by decide +kernel))).1 fun _ _ => records_no_rivals⟩

/-- A record with a field of type `Any` and one with the same field of type `int`, and callables that differ in their
parameters, are each below the other; their meet is the one that stands first. -/
theorem meet_keeps_first :
    let any : Ty := .only (.struct [("x", .any)] false)
    let int : Ty := .only (.struct [("x", .int)] false)
    let plain : Ty := .function (some ⟨[], .int⟩)
    let taking : Ty := .function (some ⟨[⟨.posOrNamed, "x", .str, false⟩], .int⟩)
    any.Normal ∧ any.Hostless ∧ int.Normal ∧ int.Hostless ∧
      (any.meet int).text = "struct(x = Any)" ∧ (int.meet any).text = "struct(x = int)" ∧
      (any.meet int).equal (int.meet any) = false ∧
    plain.Normal ∧ plain.Hostless ∧ taking.Normal ∧ taking.Hostless ∧
      (plain.meet taking).equal (taking.meet plain) = false := by
  intro any int plain taking
  refine ⟨?_, ?_, ?_, ?_, by decide +kernel, by decide +kernel, by decide +kernel, ?_, ?_, ?_, ?_, by decide +kernel⟩
  all_goals exact everywhere_of_holdsInside 4 (by decide +kernel)

end Ty

end Gradual
