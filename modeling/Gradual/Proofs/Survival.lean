import Gradual.Proofs.SubtypeOrder
import Gradual.Proofs.TypeInvariant

/-! What repeated meets leave of a type. Meeting a type with itself may add alternatives, also inside
containers, so that the type that was there first is not found again. It survives, though: each of its
alternatives is still there in the same shape, with elements that survive in turn. Surviving is kept by
meets, and it implies being below. -/

namespace Gradual

/-- Two alternatives are equal, or they are containers of one kind and length. -/
inductive Alt.SameShape : Alt → Alt → Prop
  | same {a : Alt} (h : a.isContainer = false) : SameShape a a
  | list (t u : Ty) : SameShape (.list t) (.list u)
  | tuple {ts us : List Ty} (h : ts.length = us.length) : SameShape (.tuple ts) (.tuple us)
  | tupleOf (t u : Ty) : SameShape (.tupleOf t) (.tupleOf u)
  | dict (k v k' v' : Ty) : SameShape (.dict k v) (.dict k' v')
  | iterable (t u : Ty) : SameShape (.iterable t) (.iterable u)

/-- Every alternative of the first type is in the second, in the same shape and with elements for which
the same holds. -/
inductive Ty.SurvivesIn : Ty → Ty → Prop
  | any : SurvivesIn .any .any
  | union {t u : Ty} (hany : .any ∉ u.alts) (image : Alt → Alt) (hmem : ∀ a ∈ t.alts, image a ∈ u.alts)
      (hshape : ∀ a ∈ t.alts, a.SameShape (image a))
      (hparts : ∀ a ∈ t.alts, a.isContainer = true →
        ∀ p ∈ a.parts.zip (image a).parts, SurvivesIn p.1 p.2) : SurvivesIn t u

/-- An alternative has the shape of another one, whose elements survive in its own. -/
structure Alt.SurvivesAs (a b : Alt) : Prop where
  shape : a.SameShape b
  parts : a.isContainer = true → ∀ p ∈ a.parts.zip b.parts, p.1.SurvivesIn p.2

namespace Alt

theorem sameShape_refl (a : Alt) : a.SameShape a := by
  cases a with
  | list t => exact .list t t
  | tuple ts => exact .tuple rfl
  | tupleOf t => exact .tupleOf t t
  | dict k v => exact .dict k v k v
  | iterable t => exact .iterable t t
  | any | prim p | function sig | struct fields isOpen | custom n host => exact .same rfl

end Alt

theorem mem_of_mem_zip_self {α : Type} {xs : List α} {p : α × α} (h : p ∈ xs.zip xs) :
    p.1 ∈ xs ∧ p.1 = p.2 := by
  induction xs with
  | nil => cases h
  | cons x xs ih =>
      rcases List.mem_cons.mp h with rfl | h
      · exact ⟨List.mem_cons_self, rfl⟩
      · exact ⟨List.mem_cons_of_mem x (ih h).1, (ih h).2⟩

namespace Ty

theorem survivesIn_self {t : Ty} (h : t.Normal) : t.SurvivesIn t := by
  induction h with
  | @intro t here inside ih =>
      by_cases hany : .any ∈ t.alts
      · rw [here.alone hany]
        exact .any
      · refine .union hany id (fun a ha => ha) (fun a _ => a.sameShape_refl) fun a ha _ p hp => ?_
        obtain ⟨hmem, heq⟩ := mem_of_mem_zip_self hp
        rw [← heq]
        exact ih a ha p.1 hmem

theorem SurvivesIn.exists_alt {t u : Ty} (h : t.SurvivesIn u) {a : Alt} (ha : a ∈ t.alts) :
    ∃ b ∈ u.alts, a.SurvivesAs b := by
  cases h with
  | any =>
      cases List.mem_singleton.mp ha
      exact ⟨.any, List.mem_cons_self, .same rfl, fun h => by cases h⟩
  | union _ image hmem hshape hparts => exact ⟨image a, hmem a ha, hshape a ha, hparts a ha⟩

theorem survivesIn_of_alts {t u : Ty} (hany : .any ∉ u.alts)
    (h : ∀ a ∈ t.alts, ∃ b ∈ u.alts, a.SurvivesAs b) : t.SurvivesIn u := by
  classical
  choose! image hmem hsurvives using h
  exact .union hany image hmem (fun a ha => (hsurvives a ha).shape) fun a ha => (hsurvives a ha).parts

end Ty

/-! ### Surviving and being below -/

theorem Alt.below_of_sameShape {a b : Alt} (h : a.SameShape b) (ha : (Ty.only a).Normal)
    (hparts : a.isContainer = true → ∀ p ∈ a.parts.zip b.parts, p.1.subtype p.2 = true) : Below a b := by
  cases h with
  | same =>
      refine below_refl (fun t ht => Ty.subtype_self (Ty.invariant_normal.part ha ht)) ?_
      rintro fields isOpen rfl
      exact ha.here.fields fields isOpen List.mem_cons_self
  | list t u => exact .list (hparts rfl (t, u) List.mem_cons_self)
  | tuple hlen => exact .tuple (List.forall₂_iff_zip.mpr ⟨hlen, fun hp => hparts rfl _ hp⟩)
  | tupleOf t u => exact .tupleOf rfl (hparts rfl (t, u) List.mem_cons_self)
  | dict k v k' v' =>
      exact .dict (hparts rfl (k, k') List.mem_cons_self)
        (hparts rfl (v, v') mem_second)
  | iterable t u => exact .iterable rfl (hparts rfl (t, u) List.mem_cons_self)

theorem Ty.SurvivesIn.subtype {t u : Ty} (h : t.SurvivesIn u) (ht : t.Normal) : t.subtype u = true := by
  induction h with
  | any => exact subtype_self ht
  | @union t u _ image hmem hshape _ ih =>
      refine subtype_of_forall fun a ha => ⟨image a, hmem a ha, ?_⟩
      have hnormal := invariant_normal.alt ht ha
      refine Alt.below_of_sameShape (hshape a ha) hnormal fun hcontainer p hp => ?_
      exact ih a ha hcontainer p hp (invariant_normal.part hnormal (List.of_mem_zip hp).1)

/-! ### Surviving meets -/

theorem mem_zip_zipWith {α β γ δ : Type} {f : β → γ → δ} {xs : List α} {ys : List β} {zs : List γ}
    {p : α × δ} (h : p ∈ xs.zip (ys.zipWith f zs)) :
    ∃ y z, (p.1, y) ∈ xs.zip ys ∧ (p.1, z) ∈ xs.zip zs ∧ p.2 = f y z := by
  induction xs generalizing ys zs with
  | nil => cases h
  | cons x xs ih =>
      cases ys with
      | nil => cases h
      | cons y ys =>
          cases zs with
          | nil => cases h
          | cons z zs =>
              rcases List.mem_cons.mp h with rfl | h
              · exact ⟨y, z, List.mem_cons_self, List.mem_cons_self, rfl⟩
              · obtain ⟨y', z', hy, hz, heq⟩ := ih h
                exact ⟨y', z', List.mem_cons_of_mem _ hy, List.mem_cons_of_mem _ hz, heq⟩

theorem Alt.meet_tuple {ts us : List Ty} (h : ts.length = us.length) :
    (Alt.tuple ts).meet (.tuple us) = some (.tuple (ts.zipWith Ty.meet us)) := by
  have hmap : (ts.zip us).attach.map (fun p => p.1.1.meet p.1.2) = ts.zipWith Ty.meet us :=
    (List.attach_map_val (f := fun p : Ty × Ty => p.1.meet p.2)).trans List.map_zip_eq_zipWith
  simp only [Alt.meet, if_pos h, hmap]

namespace Alt

variable {a x y : Alt}

theorem meet_self (hcontainer : a.isContainer = false) (hlegible : a.IsLegible) (hnormal : (Ty.only a).Normal) :
    a.meet a = some a := by
  cases a with
  | any => simp [Alt.meet]
  | prim p => simp [Alt.meet]
  | function sig =>
      cases sig with
      | none => simp [Alt.meet]
      | some sig => cases hlegible
  | struct fields isOpen =>
      have hself : (struct fields isOpen).subtype (struct fields isOpen) = true :=
        subtype_of_below (below_of_sameShape (sameShape_refl _) hnormal fun h => by cases h)
      simp [Alt.meet, hself]
  | custom n host => simp [Alt.meet]
  | list | tuple | tupleOf | dict | iterable => cases hcontainer

/-- If an alternative survives as two others, it survives as what they have in common. -/
theorem SurvivesAs.meet (hx : a.SurvivesAs x) (hy : a.SurvivesAs y) (hlegible : a.IsLegible)
    (hnormal : (Ty.only a).Normal)
    (hparts : a.isContainer = true → ∀ p ∈ a.parts.zip x.parts, ∀ q ∈ a.parts.zip y.parts,
      p.1 = q.1 → q.1.SurvivesIn q.2 → p.1.SurvivesIn (p.2.meet q.2)) :
    ∃ z, x.meet y = some z ∧ a.SurvivesAs z := by
  obtain ⟨hxshape, hxparts⟩ := hx
  obtain ⟨hyshape, hyparts⟩ := hy
  cases hxshape with
  | same h =>
      cases hyshape with
      | same => exact ⟨a, meet_self h hlegible hnormal, .same h, fun h' => by rw [h] at h'; cases h'⟩
      | list | tuple | tupleOf | dict | iterable => cases h
  | list t u =>
      cases hyshape with
      | same h => cases h
      | list _ v =>
          refine ⟨.list (u.meet v), by simp [Alt.meet], .list _ _, fun _ => List.forall_mem_singleton.mpr ?_⟩
          exact hparts rfl (t, u) List.mem_cons_self (t, v) List.mem_cons_self rfl
            (hyparts rfl (t, v) List.mem_cons_self)
  | tupleOf t u =>
      cases hyshape with
      | same h => cases h
      | tupleOf _ v =>
          refine ⟨.tupleOf (u.meet v), by simp [Alt.meet], .tupleOf _ _, fun _ =>
            List.forall_mem_singleton.mpr ?_⟩
          exact hparts rfl (t, u) List.mem_cons_self (t, v) List.mem_cons_self rfl
            (hyparts rfl (t, v) List.mem_cons_self)
  | iterable t u =>
      cases hyshape with
      | same h => cases h
      | iterable _ v =>
          refine ⟨.iterable (u.meet v), by simp [Alt.meet], .iterable _ _, fun _ =>
            List.forall_mem_singleton.mpr ?_⟩
          exact hparts rfl (t, u) List.mem_cons_self (t, v) List.mem_cons_self rfl
            (hyparts rfl (t, v) List.mem_cons_self)
  | @tuple ts us hlen =>
      cases hyshape with
      | same h => cases h
      | @tuple _ vs hlen' =>
          refine ⟨.tuple (us.zipWith Ty.meet vs), meet_tuple (hlen.symm.trans hlen'), .tuple ?_, ?_⟩
          · rw [List.length_zipWith, ← hlen, ← hlen', Nat.min_self]
          · intro _ p hp
            obtain ⟨u, v, hu, hv, heq⟩ := mem_zip_zipWith hp
            rw [heq]
            exact hparts rfl (p.1, u) hu (p.1, v) hv rfl (hyparts rfl (p.1, v) hv)
  | dict k v k₁ v₁ =>
      cases hyshape with
      | same h => cases h
      | dict _ _ k₂ v₂ =>
          have hvalue : ∀ w, (v, w) ∈ [k, v].zip [k₂, w] := fun w => mem_second
          refine ⟨.dict (k₁.meet k₂) (v₁.meet v₂), by simp [Alt.meet], .dict _ _ _ _, fun _ =>
            List.forall_mem_cons.mpr ⟨?_, List.forall_mem_singleton.mpr ?_⟩⟩
          · exact hparts rfl (k, k₁) List.mem_cons_self (k, k₂) List.mem_cons_self rfl
              (hyparts rfl (k, k₂) List.mem_cons_self)
          · exact hparts rfl (v, v₁) mem_second (v, v₂) (hvalue v₂) rfl
              (hyparts rfl (v, v₂) (hvalue v₂))

end Alt

theorem Ty.SurvivesIn.meet {t u v : Ty} (hu : t.SurvivesIn u) (hv : t.SurvivesIn v) (ht : t.Plain)
    (hlu : u.Legible) (hlv : v.Legible) : t.SurvivesIn (u.meet v) := by
  induction hu generalizing v with
  | any =>
      rw [meet_eq]
      exact hv
  | @union t u hany image hmem hshape hparts ih =>
      cases hv with
      | any =>
          rw [meet_any]
          exact .union hany image hmem hshape hparts
      | union hany' image' hmem' hshape' hparts' =>
          refine survivesIn_of_alts (any_not_mem_meet hany hany') fun a ha => ?_
          have hnormal := invariant_normal.alt ht.normal ha
          have hlegible := ht.legible.alt ha
          have hsurvives : ∃ z, (image a).meet (image' a) = some z ∧ a.SurvivesAs z := by
            refine Alt.SurvivesAs.meet ⟨hshape a ha, hparts a ha⟩ ⟨hshape' a ha, hparts' a ha⟩ hlegible.1
              hnormal fun hcontainer p hp q hq heq hsurvives => ?_
            refine ih a ha hcontainer p hp (heq ▸ hsurvives) ⟨?_, ?_⟩ ?_ ?_
            · exact invariant_normal.part hnormal (List.of_mem_zip hp).1
            · exact hlegible.part (List.of_mem_zip hp).1
            · exact (hlu.alt (hmem a ha)).part (List.of_mem_zip hp).2
            · exact (hlv.alt (hmem' a ha)).part (List.of_mem_zip hq).2
          obtain ⟨z, hz, hsurvives⟩ := hsurvives
          exact ⟨z, (mem_meet_iff hany hany' hlu hlv).mpr ⟨_, hmem a ha, _, hmem' a ha, hz⟩, hsurvives⟩

/-! ### Surviving unions -/

/-- A legible type that does not hold `Any` as an alternative. -/
structure Ty.Clear (t : Ty) : Prop where
  legible : t.Legible
  any_not_mem : .any ∉ t.alts

namespace Ty

theorem Clear.meet {t u : Ty} (ht : t.Clear) (hu : u.Clear) : (t.meet u).Clear :=
  ⟨invariant_legible.meet ht.legible hu.legible, any_not_mem_meet ht.any_not_mem hu.any_not_mem⟩

theorem Clear.filter {t : Ty} (ht : t.Clear) (keep : Alt → Bool) : (t.filter keep).Clear :=
  ⟨invariant_legible.filter keep ht.legible, fun h => ht.any_not_mem (List.mem_filter.mp h).1⟩

theorem Clear.union {ts : List Ty} (h : ∀ t ∈ ts, t.Clear) : (Ty.union ts).Clear := by
  refine ⟨invariant_legible.union fun t ht => (h t ht).legible, fun hany => ?_⟩
  obtain ⟨t, ht, hany⟩ := mem_of_mem_union hany
  exact (h t ht).any_not_mem hany

theorem survivesIn_union {t u : Ty} {us : List Ty} (h : t.SurvivesIn u) (hu : u ∈ us)
    (hus : ∀ u ∈ us, u.Clear) : t.SurvivesIn (Ty.union us) := by
  refine survivesIn_of_alts (Clear.union hus).any_not_mem fun a ha => ?_
  obtain ⟨b, hb, hsurvives⟩ := h.exists_alt ha
  refine ⟨b, ?_, hsurvives⟩
  exact (mem_union_iff (fun u hu => (hus u hu).legible) fun u hu => (hus u hu).any_not_mem).mpr ⟨u, hu, hb⟩

theorem Clear.survivesIn_of_mem {t : Ty} (ht : t.Clear) {a : Alt} (ha : a ∈ t.alts)
    (hnormal : (Ty.only a).Normal) :
    (Ty.only a).SurvivesIn t := by
  refine survivesIn_of_alts ht.any_not_mem fun b hb => ?_
  cases List.mem_singleton.mp hb
  obtain ⟨c, hc, hsurvives⟩ := (survivesIn_self hnormal).exists_alt (a := a) List.mem_cons_self
  cases List.mem_singleton.mp hc
  exact ⟨a, ha, hsurvives⟩

end Ty

end Gradual
