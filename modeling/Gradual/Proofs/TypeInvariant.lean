import Gradual.Proofs.PrintedForm
import Gradual.Ty.Meet

/-! Properties of types that the operations on types keep. Such a property is one of alternatives, of what
they are made of, and of the unions that are built from them; containers have it if their elements do.
Unions, parts of unions and meets then have it too. Being normal and being legible are two of them. -/

namespace Gradual

/-- Whether an alternative is a container, whose elements may be of any type. -/
def Alt.isContainer : Alt → Bool
  | .list _ | .tuple _ | .tupleOf _ | .dict _ _ | .iterable _ => true
  | _ => false

/-- A property of types that passes between a union and its alternatives, and between a container and
its elements. -/
structure Ty.Invariant (P : Ty → Prop) : Prop where
  alt : ∀ {t : Ty} {a : Alt}, P t → a ∈ t.alts → P (.only a)
  part : ∀ {a : Alt} {u : Ty}, P (.only a) → u ∈ a.parts → P u
  container : ∀ {a : Alt}, a.isContainer = true → (∀ u ∈ a.parts, P u) → P (.only a)
  ofAlts : ∀ {alts : List Alt}, (∀ a ∈ alts, P (.only a)) → P (.ofAlts alts)
  filter : ∀ {t : Ty} (keep : Alt → Bool), P t → P (t.filter keep)

theorem Ty.invariant_normal : Ty.Invariant Ty.Normal where
  alt ht ha := by
    refine everywhere_only_iff.mpr ⟨⟨List.pairwise_singleton _ _, ?_, ?_⟩, ht.alt ha⟩
    · intro h
      rw [← List.mem_singleton.mp h]
      rfl
    · intro fields isOpen h
      exact ht.here.fields fields isOpen (List.mem_singleton.mp h ▸ ha)
  part ha hu := (everywhere_only_iff.mp ha).2 _ hu
  container := by
    intro a hcontainer hparts
    refine everywhere_only_iff.mpr ⟨⟨List.pairwise_singleton _ _, ?_, ?_⟩, hparts⟩
    · intro h
      rw [← List.mem_singleton.mp h] at hcontainer
      cases hcontainer
    · intro fields isOpen h
      rw [← List.mem_singleton.mp h] at hcontainer
      cases hcontainer
  ofAlts h := by
    refine everywhere_ofAlts (isNormalUnion_ofAlts fun fields isOpen hmem => ?_) fun a ha =>
      (everywhere_only_iff.mp (h a ha)).2
    exact (h _ hmem).here.fields fields isOpen List.mem_cons_self
  filter := by
    intro t keep ht
    have hmem : ∀ a, a ∈ (t.filter keep).alts → a ∈ t.alts := fun a ha => (List.mem_filter.mp ha).1
    refine .intro ⟨ht.here.sorted.filter keep, ?_, ?_⟩ fun a ha => ht.alt (hmem a ha)
    · intro hany
      have hkeep : keep .any = true := (List.mem_filter.mp hany).2
      rw [ht.here.alone (hmem _ hany)]
      exact congrArg Ty.mk (List.filter_cons_of_pos hkeep)
    · exact fun fields isOpen h => ht.here.fields fields isOpen (hmem _ h)

theorem Ty.invariant_everyAlt {Q : Alt → Prop} (hQ : ∀ a : Alt, a.isContainer = true → Q a) :
    Ty.Invariant (Ty.Everywhere fun t => ∀ a ∈ t.alts, Q a) where
  alt ht ha := everywhere_only_iff.mpr ⟨List.forall_mem_singleton.mpr (ht.here _ ha), ht.alt ha⟩
  part ha hu := (everywhere_only_iff.mp ha).2 _ hu
  container hcontainer hparts :=
    everywhere_only_iff.mpr ⟨List.forall_mem_singleton.mpr (hQ _ hcontainer), hparts⟩
  ofAlts h := by
    refine everywhere_ofAlts (fun a ha => ?_) fun a ha => (everywhere_only_iff.mp (h a ha)).2
    exact (h a (mem_of_mem_ofAlts ha)).here a List.mem_cons_self
  filter keep ht := .intro (fun a ha => ht.here a (List.mem_filter.mp ha).1) fun a ha =>
    ht.alt (List.mem_filter.mp ha).1

theorem Ty.invariant_legible : Ty.Invariant Ty.Legible := by
  refine Ty.invariant_everyAlt fun a hcontainer => ?_
  cases a with
  | list | tuple | tupleOf | dict | iterable => trivial
  | _ => cases hcontainer

theorem Ty.Invariant.and {P Q : Ty → Prop} (hP : Ty.Invariant P) (hQ : Ty.Invariant Q) :
    Ty.Invariant fun t => P t ∧ Q t where
  alt ht ha := ⟨hP.alt ht.1 ha, hQ.alt ht.2 ha⟩
  part ha hu := ⟨hP.part ha.1 hu, hQ.part ha.2 hu⟩
  container hcontainer hparts :=
    ⟨hP.container hcontainer fun u hu => (hparts u hu).1, hQ.container hcontainer fun u hu => (hparts u hu).2⟩
  ofAlts h := ⟨hP.ofAlts fun a ha => (h a ha).1, hQ.ofAlts fun a ha => (h a ha).2⟩
  filter keep ht := ⟨hP.filter keep ht.1, hQ.filter keep ht.2⟩

namespace Ty.Invariant

variable {P : Ty → Prop}

theorem union (hP : Invariant P) {ts : List Ty} (h : ∀ t ∈ ts, P t) : P (.union ts) := by
  refine hP.ofAlts fun a ha => ?_
  obtain ⟨t, ht, ha⟩ := List.mem_flatMap.mp ha
  exact hP.alt (h t ht) ha

end Ty.Invariant

/-! ### Meets -/

theorem Ty.meet_eq (t u : Ty) :
    t.meet u = if t.isAny then u else if u.isAny then t
      else .ofAlts (t.alts.flatMap fun x => u.alts.filterMap x.meet) := by
  rw [Ty.meet]
  simp only [List.filterMap_subtype, List.unattach_attach, List.flatMap_subtype]

theorem Alt.weight_part_lt {a : Alt} {t : Ty} (ha : a.isContainer = true) (ht : t ∈ a.parts) :
    t.weight < a.weight := by
  cases a with
  | list elem | tupleOf elem | iterable elem =>
      rw [List.mem_singleton.mp ht, Alt.weight]
      omega
  | tuple elems =>
      have : t.weight ≤ Ty.weights elems := Ty.weight_le_weights ht
      rw [Alt.weight]
      omega
  | dict key value =>
      rw [Alt.weight]
      rcases List.mem_cons.mp ht with rfl | ht
      · omega
      · rw [List.mem_singleton.mp ht]
        omega
  | _ => cases ha

/-- The rules of meets between alternatives. -/
inductive Alt.Met : Alt → Alt → Alt → Prop
  | swap {x y z : Alt} (h : Met x y z) : Met y x z
  | any (x : Alt) : Met x .any x
  | lower {x y : Alt} (hany : x.isAny = false) (hx : x.isContainer = false) (hy : y.isContainer = false)
      (h : x.subtype y = true) : Met x y x
  | list (t u : Ty) : Met (.list t) (.list u) (.list (t.meet u))
  | listIterable (t u : Ty) : Met (.list t) (.iterable u) (.list (t.meet u))
  | tuple {ts us : List Ty} (h : ts.length = us.length) :
      Met (.tuple ts) (.tuple us) (.tuple ((ts.zip us).map fun p => p.1.meet p.2))
  | tupleTupleOf (ts : List Ty) (u : Ty) : Met (.tuple ts) (.tupleOf u) (.tuple (ts.map (·.meet u)))
  | tupleIterable (ts : List Ty) (u : Ty) : Met (.tuple ts) (.iterable u) (.tuple (ts.map (·.meet u)))
  | tupleOf (t u : Ty) : Met (.tupleOf t) (.tupleOf u) (.tupleOf (t.meet u))
  | tupleOfIterable (t u : Ty) : Met (.tupleOf t) (.iterable u) (.tupleOf (t.meet u))
  | dict (k v k' v' : Ty) : Met (.dict k v) (.dict k' v') (.dict (k.meet k') (v.meet v'))
  | dictIterable (k v u : Ty) : Met (.dict k v) (.iterable u) (.dict (k.meet u) v)
  | iterable (t u : Ty) : Met (.iterable t) (.iterable u) (.iterable (t.meet u))
  | host {n : Text} {host : Host} (u : Ty) (h : host.iter.isSome = true) :
      Met (.custom n (some host)) (.iterable u) (.custom n (some host))

theorem Alt.met_of_meet {x y z : Alt} (h : x.meet y = some z) : Met x y z := by
  have hmap : ∀ (ts : List Ty) (u : Ty), ts.attach.map (fun t => t.1.meet u) = ts.map (·.meet u) := fun ts u =>
    List.attach_map_val (f := fun t : Ty => t.meet u)
  unfold Alt.meet at h
  split at h
  · cases h
    exact .swap (.any _)
  · cases h
    exact .any _
  · split at h
    · next heq =>
      cases h
      cases heq
      exact .lower rfl rfl rfl (by simp [Alt.subtype])
    · cases h
  · cases h
    exact .list _ _
  · cases h
    exact .listIterable _ _
  · cases h
    exact .swap (.listIterable _ _)
  · next ts us =>
    split at h
    · next hlength =>
      cases h
      have hzip : (ts.zip us).attach.map (fun p => p.1.1.meet p.1.2) = (ts.zip us).map fun p => p.1.meet p.2 :=
        List.attach_map_val (f := fun p : Ty × Ty => p.1.meet p.2)
      rw [hzip]
      exact .tuple hlength
    · cases h
  · cases h
    rw [hmap]
    exact .tupleTupleOf _ _
  · cases h
    rw [hmap]
    exact .tupleIterable _ _
  · cases h
    rw [hmap]
    exact .swap (.tupleTupleOf _ _)
  · cases h
    rw [hmap]
    exact .swap (.tupleIterable _ _)
  · cases h
    exact .tupleOf _ _
  · cases h
    exact .tupleOfIterable _ _
  · cases h
    exact .swap (.tupleOfIterable _ _)
  · cases h
    exact .dict _ _ _ _
  · cases h
    exact .dictIterable _ _ _
  · cases h
    exact .swap (.dictIterable _ _ _)
  · cases h
    exact .iterable _ _
  · cases h
    exact .host _ rfl
  · cases h
    exact .swap (.host _ rfl)
  -- Callables, structs and named types meet in the lower one.
  · cases h
    exact .swap (.lower rfl rfl rfl (by simp [Alt.subtype]))
  · cases h
    exact .lower rfl rfl rfl (by simp [Alt.subtype])
  · split at h
    · next hsub =>
      cases h
      exact .lower rfl rfl rfl hsub
    · split at h
      · next hsub =>
        cases h
        exact .swap (.lower rfl rfl rfl hsub)
      · cases h
  · split at h
    · next hsub =>
      cases h
      exact .lower rfl rfl rfl hsub
    · split at h
      · next hsub =>
        cases h
        exact .swap (.lower rfl rfl rfl hsub)
      · cases h
  · split at h
    · next heq =>
      cases h
      cases heq
      exact .lower rfl rfl rfl (by simp [Alt.subtype])
    · cases h
  · cases h

/-- A relation holds, in either order, between the elements of one container and those of another. -/
def Alt.RelatesParts (R : Ty → Ty → Prop) (x y : Alt) : Prop :=
  x.isContainer = true → y.isContainer = true → ∀ t ∈ x.parts, ∀ u ∈ y.parts, R t u ∧ R u t

theorem Alt.RelatesParts.swap {R : Ty → Ty → Prop} {x y : Alt} (h : x.RelatesParts R y) : y.RelatesParts R x :=
  fun hy hx u hu t ht => (h hx hy t ht u hu).symm

namespace Ty

variable {P : Ty → Prop}

/-- A relation holds between two types if it follows from being true of the elements of their containers. -/
theorem Invariant.pair_induction (hP : Invariant P) {R : Ty → Ty → Prop}
    (step : ∀ {t u : Ty}, P t → P u → (∀ x ∈ t.alts, ∀ y ∈ u.alts, x.RelatesParts R y) → R t u) {t u : Ty}
    (ht : P t) (hu : P u) : R t u := by
  obtain ⟨n, hn⟩ : ∃ n, t.weight + u.weight = n := ⟨_, rfl⟩
  -- The induction is on the weight of both, since elements may be met in either order.
  induction n using Nat.strongRecOn generalizing t u with
  | ind n ih =>
      refine step ht hu fun x hx y hy hcx hcy v hv w hw => ?_
      have hPv : P v := hP.part (hP.alt ht hx) hv
      have hPw : P w := hP.part (hP.alt hu hy) hw
      have hlt : v.weight + w.weight < n := by
        have := weight_alt_lt hx
        have := weight_alt_lt hy
        have := Alt.weight_part_lt hcx hv
        have := Alt.weight_part_lt hcy hw
        omega
      exact ⟨ih _ hlt hPv hPw rfl, ih _ (Nat.add_comm v.weight w.weight ▸ hlt) hPw hPv rfl⟩

theorem Invariant.of_met (hP : Invariant P) {x y z : Alt} (h : Alt.Met x y z) (hx : P (.only x)) (hy : P (.only y))
    (hparts : x.RelatesParts (fun t u => P (t.meet u)) y) : P (.only z) := by
  have hfirst : ∀ {w : Ty} {ws : List Ty}, w ∈ w :: ws := List.mem_cons_self
  induction h with
  | swap _ ih => exact ih hy hx hparts.swap
  | any | lower | host => exact hx
  | list | listIterable | tupleOf | tupleOfIterable | iterable =>
      exact hP.container rfl (List.forall_mem_singleton.mpr (hparts rfl rfl _ hfirst _ hfirst).1)
  | tuple =>
      refine hP.container rfl fun v hv => ?_
      obtain ⟨p, hp, rfl⟩ := List.mem_map.mp hv
      exact (hparts rfl rfl _ (List.of_mem_zip hp).1 _ (List.of_mem_zip hp).2).1
  | tupleTupleOf | tupleIterable =>
      refine hP.container rfl fun v hv => ?_
      obtain ⟨t, ht, rfl⟩ := List.mem_map.mp hv
      exact (hparts rfl rfl t ht _ hfirst).1
  | dict =>
      refine hP.container rfl (List.forall_mem_cons.mpr ⟨?_, List.forall_mem_singleton.mpr ?_⟩)
      · exact (hparts rfl rfl _ hfirst _ hfirst).1
      · exact (hparts rfl rfl _ mem_second _ mem_second).1
  | dictIterable =>
      refine hP.container rfl (List.forall_mem_cons.mpr ⟨?_, List.forall_mem_singleton.mpr ?_⟩)
      · exact (hparts rfl rfl _ hfirst _ hfirst).1
      · exact hP.part hx mem_second

theorem Invariant.meet (hP : Invariant P) {t u : Ty} (ht : P t) (hu : P u) : P (t.meet u) := by
  refine hP.pair_induction (R := fun t u => P (t.meet u)) (fun {t u} ht hu hparts => ?_) ht hu
  rw [meet_eq]
  split
  · exact hu
  · split
    · exact ht
    · refine hP.ofAlts fun z hz => ?_
      obtain ⟨x, hx, hz⟩ := List.mem_flatMap.mp hz
      obtain ⟨y, hy, hz⟩ := List.mem_filterMap.mp hz
      exact hP.of_met (Alt.met_of_meet hz) (hP.alt ht hx) (hP.alt hu hy) (hparts x hx y hy)

theorem Invariant.meet_alt (hP : Invariant P) {x y z : Alt} (hx : P (.only x)) (hy : P (.only y))
    (h : x.meet y = some z) : P (.only z) := by
  refine hP.of_met (Alt.met_of_meet h) hx hy fun _ _ t ht u hu => ?_
  exact ⟨hP.meet (hP.part hx ht) (hP.part hy hu), hP.meet (hP.part hy hu) (hP.part hx ht)⟩

theorem exists_of_mem_meet {t u : Ty} (ht : ¬t.isAny = true) (hu : ¬u.isAny = true) {z : Alt}
    (hz : z ∈ (t.meet u).alts) : ∃ x ∈ t.alts, ∃ y ∈ u.alts, Alt.Met x y z := by
  rw [meet_eq, if_neg ht, if_neg hu] at hz
  obtain ⟨x, hx, hz⟩ := List.mem_flatMap.mp (mem_of_mem_ofAlts hz)
  obtain ⟨y, hy, hz⟩ := List.mem_filterMap.mp hz
  exact ⟨x, hx, y, hy, Alt.met_of_meet hz⟩

theorem any_meet (u : Ty) : any.meet u = u := by
  rw [meet_eq]
  rfl

theorem meet_any (t : Ty) : t.meet .any = t := by
  rw [meet_eq]
  split
  · next h => rw [eq_any_of_isAny h]
  · rfl

theorem any_not_mem_meets {t u : Ty} (ht : .any ∉ t.alts) (hu : .any ∉ u.alts) :
    .any ∉ t.alts.flatMap fun x => u.alts.filterMap x.meet := by
  have hmet : ∀ {x y z : Alt}, Alt.Met x y z → z = .any → x = .any ∨ y = .any := by
    intro x y z h hz
    induction h with
    | swap _ ih => exact (ih hz).symm
    | any | lower | host => exact Or.inl hz
    | _ => cases hz
  intro h
  obtain ⟨x, hx, h⟩ := List.mem_flatMap.mp h
  obtain ⟨y, hy, h⟩ := List.mem_filterMap.mp h
  rcases hmet (Alt.met_of_meet h) rfl with rfl | rfl
  · exact ht hx
  · exact hu hy

theorem any_not_mem_meet {t u : Ty} (ht : .any ∉ t.alts) (hu : .any ∉ u.alts) : .any ∉ (t.meet u).alts := by
  rw [meet_eq, isAny_eq_false ht, isAny_eq_false hu]
  exact fun h => any_not_mem_meets ht hu (mem_of_mem_ofAlts h)

theorem mem_meet_iff {t u : Ty} (ht : .any ∉ t.alts) (hu : .any ∉ u.alts) (hlt : t.Legible) (hlu : u.Legible)
    {z : Alt} : z ∈ (t.meet u).alts ↔ ∃ x ∈ t.alts, ∃ y ∈ u.alts, x.meet y = some z := by
  have hlegible : ∀ b ∈ t.alts.flatMap fun x => u.alts.filterMap x.meet, b.Legible := by
    intro b hb
    obtain ⟨x, hx, hb⟩ := List.mem_flatMap.mp hb
    obtain ⟨y, hy, hb⟩ := List.mem_filterMap.mp hb
    exact Alt.legible_only_iff.mp
      (invariant_legible.meet_alt (invariant_legible.alt hlt hx) (invariant_legible.alt hlu hy) hb)
  have hmem : z ∈ (ofAlts (t.alts.flatMap fun x => u.alts.filterMap x.meet)).alts ↔
      z ∈ t.alts.flatMap fun x => u.alts.filterMap x.meet :=
    mem_ofAlts_iff (any_not_mem_meets ht hu) fun b hb c hc htext =>
      Alt.text_injective (hlegible b hb) (hlegible c hc) htext
  rw [meet_eq, isAny_eq_false ht, isAny_eq_false hu]
  simp only [Bool.false_eq_true, if_false, hmem, List.mem_flatMap, List.mem_filterMap]

end Ty

end Gradual
