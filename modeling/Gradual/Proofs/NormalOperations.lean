import Gradual.Proofs.DecodedTypes
import Gradual.Proofs.TypeGrammar
import Gradual.Ty.Host

/-! Every operation that builds types builds normal types from normal ones. Most of them end in a union, which
is put in order; filtering, containers and attaching hosts are not, but keep the order that they find. Reading
a text or a JSON value gives a normal type whatever is read. -/

namespace Gradual

namespace Ty

theorem normal_only_iff {a : Alt} :
    (Ty.only a).Normal ↔ a.hasSortedFields = true ∧ ∀ t ∈ a.parts, t.Normal := by
  have hsingle : (Ty.only a).IsNormalUnion ↔ a.hasSortedFields = true := by
    rw [isNormalUnion_iff]
    simp [only]
  rw [Normal, everywhere_only_iff, hsingle]
  rfl

theorem normal_leaf {a : Alt} (hfields : a.hasSortedFields = true) (hparts : a.parts = []) : (Ty.only a).Normal :=
  normal_only_iff.mpr ⟨hfields, hparts ▸ List.forall_mem_nil _⟩

theorem normal_any : Ty.any.Normal := normal_leaf rfl rfl

theorem normal_getD_any {o : Option Ty} (h : ∀ t, o = some t → t.Normal) : (o.getD .any).Normal := by
  cases o with
  | none => exact normal_any
  | some t => exact h t rfl

theorem normal_struct {fields : List (Text × Ty)} (h : ∀ f ∈ fields, f.2.Normal) (isOpen : Bool) :
    (Ty.struct fields isOpen).Normal := by
  have hall : (NameMap.ofList fields).All fun _ t => t.Normal := NameMap.all_ofList h
  refine normal_only_iff.mpr ⟨decide_eq_true (NameMap.isSorted_ofList fields), fun t ht => ?_⟩
  obtain ⟨f, hf, rfl⟩ := List.mem_map.mp ht
  exact hall f hf

theorem normal_ofName (name : Text) {args : List Ty} (hargs : ∀ t ∈ args, t.Normal) (variadic : Bool) :
    (Ty.ofName name args variadic).Normal := by
  have harg : ∀ i : Nat, (args[i]?.getD Ty.any).Normal := fun i =>
    normal_getD_any fun t ht => hargs t (List.mem_of_getElem? ht)
  have helem : ∀ {a : Alt} {t : Ty}, a.hasSortedFields = true → a.parts = [t] → t.Normal → (Ty.only a).Normal :=
    fun hfields hparts ht => normal_only_iff.mpr ⟨hfields, hparts ▸ List.forall_mem_singleton.mpr ht⟩
  have htuple : ∀ {ts : List Ty}, (∀ t ∈ ts, t.Normal) → (Ty.tuple ts).Normal := fun hts =>
    normal_only_iff.mpr ⟨rfl, hts⟩
  unfold Ty.ofName
  split
  all_goals try first
    | exact normal_leaf rfl rfl
    | exact helem rfl rfl (harg 0)
    | exact normal_only_iff.mpr ⟨rfl, List.forall_mem_cons.mpr ⟨harg 0, List.forall_mem_singleton.mpr (harg 1)⟩⟩
    | exact sent_never.normal (S := fun _ => True)
    | exact normal_struct (List.forall_mem_nil _) true
  -- What is left are the three names of tuples.
  iterate 3
    split
    · exact helem rfl rfl normal_any
    · split
      · exact helem rfl rfl (hargs _ List.mem_cons_self)
      · exact htuple hargs
    · exact htuple hargs

theorem normal_union {ts : List Ty} (h : ∀ t ∈ ts, t.Normal) : (Ty.union ts).Normal := invariant_normal.union h

theorem normal_map {f : Alt → Ty} {t : Ty} (h : ∀ a ∈ t.alts, (f a).Normal) : (t.map f).Normal := by
  refine normal_union fun u hu => ?_
  obtain ⟨a, ha, rfl⟩ := List.mem_map.mp hu
  exact h a ha

end Ty

/-! ### Texts -/

/-- A property of types that is kept by what the text of a type is put together with. -/
structure Ty.KeptByNames (P : Ty → Prop) : Prop where
  ofName : ∀ (name : Text) {args : List Ty}, (∀ t ∈ args, P t) → ∀ variadic, P (.ofName name args variadic)
  union : ∀ {ts : List Ty}, (∀ t ∈ ts, P t) → P (.union ts)
  unit : P (.tuple [])

namespace TypeText

/-- All types that a phrase denotes have a property. -/
def Phrase.All (P : Ty → Prop) : Phrase → Prop
  | .union t => P t
  | .furtherTerms ts => ∀ t ∈ ts, P t
  | .term t => P t
  | .arg a => ∀ t, a = some t → P t
  | .furtherArgs as => ∀ t, some t ∈ as → P t

theorem Phrase.all_cons {P : Ty → Prop} {a : Option Ty} {as : List (Option Ty)} (harg : (Phrase.arg a).All P)
    (hfurther : (Phrase.furtherArgs as).All P) : (Phrase.furtherArgs (a :: as)).All P := by
  intro t ht
  rcases List.mem_cons.mp ht with ht | ht
  · exact harg t ht.symm
  · exact hfurther t ht

theorem Derives.all {P : Ty → Prop} (hP : Ty.KeptByNames P) {phrase : Phrase} {tokens : List Token}
    (h : Derives phrase tokens) : phrase.All P := by
  induction h with
  | union _ _ ihterm ihfurther => exact hP.union (List.forall_mem_cons.mpr ⟨ihterm, ihfurther⟩)
  | noTerm => exact List.forall_mem_nil _
  | furtherTerm _ _ ihterm ihfurther => exact List.forall_mem_cons.mpr ⟨ihterm, ihfurther⟩
  | name => exact hP.ofName _ (List.forall_mem_nil _) false
  | unit => exact hP.unit
  | bracketed _ _ _ iharg ihfurther =>
      refine hP.ofName _ (fun t ht => ?_) _
      obtain ⟨_, hmem, rfl⟩ := List.mem_filterMap.mp ht
      exact Phrase.all_cons iharg ihfurther t hmem
  | ellipsis => exact fun _ ht => absurd ht (by simp)
  | type _ _ ih =>
      rintro t ⟨⟩
      exact ih
  | noArg => exact fun _ ht => absurd ht List.not_mem_nil
  | furtherArg _ _ iharg ihfurther => exact Phrase.all_cons iharg ihfurther

end TypeText

namespace Ty

theorem KeptByNames.parse {P : Ty → Prop} (hP : KeptByNames P) {source : Text} {t : Ty}
    (h : Ty.parse source = .ok t) : P t := by
  obtain ⟨_, hderives, _⟩ := parse_eq_ok_iff.mp h
  exact hderives.all hP

theorem keptByNames_normal : KeptByNames Ty.Normal where
  ofName name _ hargs variadic := normal_ofName name hargs variadic
  union := normal_union
  unit := normal_only_iff.mpr ⟨rfl, List.forall_mem_nil _⟩

theorem normal_parse {source : Text} {t : Ty} (h : Ty.parse source = .ok t) : t.Normal := keptByNames_normal.parse h

/-! ### JSON -/

theorem normal_ofJson {j : Json} {t : Ty} (h : Ty.ofJson j = .ok t) : t.Normal :=
  (sent_ofJson trivial (Json.allTexts_true j) h).normal

theorem normal_function_ofJson {j : Json} {sig : Signature} (h : Signature.ofJson j = .ok sig) :
    (Ty.function (some sig)).Normal := by
  have hsent := Signature.sent_ofJson trivial (Json.allTexts_true j) h
  refine normal_only_iff.mpr ⟨rfl, List.forall_mem_cons.mpr ⟨hsent.result.normal, fun t ht => ?_⟩⟩
  obtain ⟨p, hp, rfl⟩ := List.mem_map.mp ht
  exact (hsent.params p hp).2.normal

end Ty

/-! ### Hosts -/

section Hosts

variable (lookup : Text → Option Host)

theorem Alt.attachAll_eq_map (alts : List Alt) : Alt.attachAll lookup alts = alts.map (·.attach lookup) := by
  induction alts with
  | nil => rfl
  | cons a alts ih => rw [Alt.attachAll, ih, List.map_cons]

theorem Ty.attachAll_eq_map (ts : List Ty) : Ty.attachAll lookup ts = ts.map (·.attach lookup) := by
  induction ts with
  | nil => rfl
  | cons t ts ih => rw [Ty.attachAll, ih, List.map_cons]

theorem Ty.attachFields_eq_map (fields : List (Text × Ty)) :
    Ty.attachFields lookup fields = fields.map fun f => (f.1, f.2.attach lookup) := by
  induction fields with
  | nil => rfl
  | cons f fields ih => rw [Ty.attachFields, ih, List.map_cons]

/-- Attaching hosts to an alternative changes nothing but the types inside it. Signatures stay as they are. -/
theorem Alt.mem_parts_attach {a : Alt} {u : Ty} (h : u ∈ (a.attach lookup).parts) :
    ∃ t ∈ a.parts, u = t.attach lookup ∨ u = t := by
  cases a with
  | list elem | tupleOf elem | iterable elem =>
      exact ⟨elem, List.mem_cons_self, Or.inl (List.mem_singleton.mp h)⟩
  | tuple elems =>
      rw [attach, parts, Ty.attachAll_eq_map] at h
      obtain ⟨t, ht, rfl⟩ := List.mem_map.mp h
      exact ⟨t, ht, Or.inl rfl⟩
  | dict key value =>
      rcases List.mem_cons.mp h with rfl | h
      · exact ⟨key, List.mem_cons_self, Or.inl rfl⟩
      · exact ⟨value, mem_second, Or.inl (List.mem_singleton.mp h)⟩
  | struct fields isOpen =>
      rw [attach, parts, Ty.attachFields_eq_map, List.map_map] at h
      obtain ⟨f, hf, rfl⟩ := List.mem_map.mp h
      exact ⟨f.2, List.mem_map_of_mem hf, Or.inl rfl⟩
  | function sig => exact ⟨u, h, Or.inr rfl⟩
  | any | prim | custom => cases h

theorem Alt.hasSortedFields_attach {a : Alt} (h : a.hasSortedFields = true) :
    (a.attach lookup).hasSortedFields = true := by
  cases a with
  | struct fields isOpen =>
      rw [attach, hasSortedFields, Ty.attachFields_eq_map]
      exact decide_eq_true (List.pairwise_map.mpr (of_decide_eq_true h))
  | _ => rfl

theorem Ty.Normal.attach {t : Ty} (h : t.Normal) : (t.attach lookup).Normal := by
  induction h with
  | @intro t here inside ih =>
      obtain ⟨alts⟩ := t
      have hfields := List.all_eq_true.mp (isNormalUnion_iff.mp here).2.2
      rw [Ty.attach, Alt.attachAll_eq_map]
      refine invariant_normal.ofAlts fun b hb => ?_
      obtain ⟨a, ha, rfl⟩ := List.mem_map.mp hb
      refine normal_only_iff.mpr ⟨Alt.hasSortedFields_attach lookup (hfields a ha), fun u hu => ?_⟩
      obtain ⟨t, ht, rfl | rfl⟩ := Alt.mem_parts_attach lookup hu
      · exact ih a ha t ht
      · exact inside a ha u ht

end Hosts

/-! ### Elements -/

namespace Ty

theorem Normal.iterElem? {a : Alt} {u : Ty} (ha : (Ty.only a).Normal)
    (hhost : ∀ name host, a = .custom name (some host) → ∀ v, host.iter = some v → v.Normal)
    (h : a.iterElem? = some u) : u.Normal := by
  have hparts := (normal_only_iff.mp ha).2
  cases a with
  | any =>
      cases h
      exact normal_any
  | list elem | tupleOf elem | iterable elem | dict elem _ =>
      cases h
      exact hparts _ List.mem_cons_self
  | tuple elems =>
      cases h
      exact normal_union hparts
  | custom name host =>
      cases host with
      | none => cases h
      | some host => exact hhost name host rfl u h
  | _ => cases h

theorem Normal.elementUnion? {a : Alt} {u : Ty} (ha : (Ty.only a).Normal) (h : a.elementUnion? = some u) :
    u.Normal := by
  have hparts := (normal_only_iff.mp ha).2
  cases a with
  | tuple elems =>
      cases h
      exact normal_union hparts
  | tupleOf elem =>
      cases h
      exact hparts _ List.mem_cons_self
  | _ => cases h

theorem Normal.element {t : Ty} (ht : t.Normal)
    (hhosts : ∀ name host, .custom name (some host) ∈ t.alts → ∀ v, host.iter = some v → v.Normal) :
    t.element.Normal := by
  refine normal_map fun a ha => normal_getD_any fun u hu => ?_
  exact (invariant_normal.alt ht ha).iterElem? (fun name host heq => hhosts name host (heq ▸ ha)) hu

/-- A property of types that every operation that builds types keeps. What a host says of the elements that it
yields is an operand of its own. -/
structure KeptByOperations (P : Ty → Prop) : Prop where
  ofAlts : ∀ alts : List Alt, (∀ a ∈ alts, P (.only a)) → P (.ofAlts alts)
  union : ∀ ts : List Ty, (∀ t ∈ ts, P t) → P (.union ts)
  filter : ∀ (t : Ty) (keep : Alt → Bool), P t → P (t.filter keep)
  map : ∀ (f : Alt → Ty) (t : Ty), (∀ a ∈ t.alts, P (f a)) → P (t.map f)
  meet : ∀ t u : Ty, P t → P u → P (t.meet u)
  container : ∀ a : Alt, a.isContainer = true → (∀ u ∈ a.parts, P u) → P (.only a)
  struct : ∀ (fields : List (Text × Ty)) (isOpen : Bool), (∀ f ∈ fields, P f.2) → P (.struct fields isOpen)
  ofName : ∀ (name : Text) (args : List Ty) (variadic : Bool), (∀ t ∈ args, P t) → P (.ofName name args variadic)
  parse : ∀ (source : Text) (t : Ty), Ty.parse source = .ok t → P t
  ofJson : ∀ (j : Json) (t : Ty), Ty.ofJson j = .ok t → P t
  signature : ∀ (j : Json) (sig : Signature), Signature.ofJson j = .ok sig → P (.function (some sig))
  attach : ∀ (lookup : Text → Option Host) (t : Ty), P t → P (t.attach lookup)
  element : ∀ t : Ty, P t →
    (∀ name host, .custom name (some host) ∈ t.alts → ∀ u, host.iter = some u → P u) → P t.element
  elementUnion : ∀ (a : Alt) (u : Ty), P (.only a) → a.elementUnion? = some u → P u

/-- Being normal is kept by every operation that builds types. -/
theorem keptByOperations_normal : KeptByOperations Ty.Normal where
  ofAlts _ h := invariant_normal.ofAlts h
  union _ h := normal_union h
  filter _ keep h := invariant_normal.filter keep h
  map _ _ h := normal_map h
  meet _ _ ht hu := invariant_normal.meet ht hu
  container _ hcontainer h := invariant_normal.container hcontainer h
  struct _ isOpen h := normal_struct h isOpen
  ofName name _ variadic h := normal_ofName name h variadic
  parse _ _ h := normal_parse h
  ofJson _ _ h := normal_ofJson h
  signature _ _ h := normal_function_ofJson h
  attach lookup _ h := h.attach lookup
  element _ h hhosts := h.element hhosts
  elementUnion _ _ ha h := ha.elementUnion? h

end Ty

end Gradual
