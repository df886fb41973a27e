import Gradual.Proofs.PrintedForm
import Gradual.Ty.Subtype
import Mathlib.Data.List.Forall2

/-! Subtyping as an order. The check of alternatives is first restated as a set of rules, `Alt.Below`.
Subtyping is reflexive on normal types. It is transitive on plain types without `Any`; there a union is
below a type exactly if its members are, since texts tell plain alternatives apart, and so a tuple of
known length can be compared element by element wherever its element union is asked for. On plain types,
with or without `Any`, a union is the least upper bound of its members. -/

namespace Gradual

/-- The rules of subtyping between alternatives. -/
inductive Alt.Below : Alt → Alt → Prop
  | anyLeft (b : Alt) : Below .any b
  | anyRight (a : Alt) : Below a .any
  | prim (p : Primitive) : Below (.prim p) (.prim p)
  | list {t u : Ty} (h : t.subtype u = true) : Below (.list t) (.list u)
  | tuple {ts us : List Ty} (h : List.Forall₂ (fun t u => t.subtype u = true) ts us) :
      Below (.tuple ts) (.tuple us)
  | tupleOf {a : Alt} {t u : Ty} (ha : a.elementUnion? = some t) (h : t.subtype u = true) :
      Below a (.tupleOf u)
  | dict {k v k' v' : Ty} (hkey : k.subtype k' = true) (hvalue : v.subtype v' = true) :
      Below (.dict k v) (.dict k' v')
  | iterable {a : Alt} {t u : Ty} (ha : a.iterElem? = some t) (h : t.subtype u = true) :
      Below a (.iterable u)
  | function {sig sig' : Option Signature}
      (h : ∀ s ∈ sig, ∀ s' ∈ sig', s.result.subtype s'.result = true) : Below (.function sig) (.function sig')
  | callable {n : Text} {host : Option Host} (h : Alt.hostCalls host = true) :
      Below (.custom n host) (.function none)
  | struct {fields wanted : List (Text × Ty)} {isOpen wantedOpen : Bool}
      (h : ∀ f ∈ wanted, ∃ t, fields.lookup f.1 = some t ∧ t.subtype f.2 = true)
      (hopen : isOpen = true → wantedOpen = true) : Below (.struct fields isOpen) (.struct wanted wantedOpen)
  | custom (n : Text) (host host' : Option Host) : Below (.custom n host) (.custom n host')

namespace Alt

theorem below_of_subtype {a b : Alt} (h : a.subtype b = true) : Below a b := by
  unfold Alt.subtype at h
  split at h
  · exact .anyLeft _
  · exact .anyRight _
  · cases eq_of_beq h
    exact .prim _
  · exact .list h
  · simp only [Bool.and_eq_true, beq_iff_eq, List.all_subtype, List.unattach_attach, List.all_eq_true] at h
    exact .tuple (List.forall₂_iff_zip.mpr ⟨h.1, fun hxy => h.2 _ hxy⟩)
  · exact .tupleOf rfl h
  · exact .tupleOf rfl h
  · rw [Bool.and_eq_true] at h
    exact .dict h.1 h.2
  -- The six ways to be an iterable.
  · exact .iterable rfl h
  · exact .iterable rfl h
  · exact .iterable rfl h
  · exact .iterable rfl h
  · exact .iterable rfl h
  · exact .iterable rfl h
  · refine .function ?_
    rintro s ⟨⟩ s' ⟨⟩
    exact h
  · next hne =>
    refine .function fun s hs s' hs' => ?_
    cases hs
    cases hs'
    obtain ⟨params, result⟩ := s
    obtain ⟨params', result'⟩ := s'
    exact (hne params result params' result' rfl rfl).elim
  · exact .callable h
  · rw [Bool.and_eq_true, Bool.or_eq_true, Bool.not_eq_true'] at h
    refine .struct (fun f hf => ?_) fun hopen => ?_
    · have hfield := List.all_eq_true.mp h.1 ⟨f, hf⟩ (List.mem_attach _ _)
      dsimp only at hfield
      split at hfield
      · next t ht => exact ⟨t, ht, hfield⟩
      · cases hfield
    · exact h.2.resolve_right fun hclosed => by rw [hopen] at hclosed; cases hclosed
  · cases eq_of_beq h
    exact .custom _ _ _
  · cases h

theorem subtype_of_below {a b : Alt} (h : Below a b) : a.subtype b = true := by
  cases h with
  | anyLeft b => simp [Alt.subtype]
  | anyRight a => cases a <;> simp [Alt.subtype]
  | prim p => simp [Alt.subtype]
  | list h => simpa [Alt.subtype] using h
  | tuple h =>
      obtain ⟨hlen, hzip⟩ := List.forall₂_iff_zip.mp h
      simp only [Alt.subtype, Bool.and_eq_true, beq_iff_eq, List.all_subtype, List.unattach_attach,
        List.all_eq_true]
      exact ⟨hlen, fun x hx => hzip hx⟩
  | @tupleOf a t u ha h =>
      cases a with
      | tuple ts | tupleOf t =>
          cases ha
          simpa [Alt.subtype] using h
      | _ => cases ha
  | dict hkey hvalue => simp [Alt.subtype, hkey, hvalue]
  | @iterable a t u ha h =>
      cases a with
      | any => simp [Alt.subtype]
      | list t | tuple ts | tupleOf t | dict k v | iterable t =>
          cases ha
          simpa [Alt.subtype] using h
      | custom n host =>
          cases host with
          | none => cases ha
          | some host =>
              obtain ⟨attributes, call, binOps, iter⟩ := host
              cases ha
              simpa [Alt.subtype] using h
      | prim p | function sig | struct fields isOpen => cases ha
  | @function sig sig' h =>
      cases sig with
      | none => simp [Alt.subtype]
      | some s =>
          cases sig' with
          | none => simp [Alt.subtype]
          | some s' =>
              obtain ⟨params, result⟩ := s
              obtain ⟨params', result'⟩ := s'
              simpa [Alt.subtype] using h _ rfl _ rfl
  | callable h => simpa [Alt.subtype] using h
  | struct h hopen =>
      simp only [Alt.subtype, Bool.and_eq_true, Bool.or_eq_true, Bool.not_eq_true']
      refine ⟨List.all_eq_true.mpr ?_, ?_⟩
      · rintro ⟨⟨name, wanted⟩, hf⟩ -
        obtain ⟨t, hlookup, hsub⟩ := h (name, wanted) hf
        dsimp only
        split
        · next s hs =>
          cases hlookup.symm.trans hs
          exact hsub
        · next hs => cases hlookup.symm.trans hs
      · rcases Bool.eq_false_or_eq_true _ with hopen' | hclosed
        · exact Or.inl (hopen hopen')
        · exact Or.inr hclosed
  | custom n host host' => simp [Alt.subtype]

theorem subtype_iff {a b : Alt} : a.subtype b = true ↔ Below a b := ⟨below_of_subtype, subtype_of_below⟩

end Alt

namespace Ty

theorem subtype_iff {t u : Ty} :
    t.subtype u = true ↔ u.isAny = true ∨ t.isAny = true ∨ ∀ a ∈ t.alts, ∃ b ∈ u.alts, Alt.Below a b := by
  simp only [subtype_eq, Bool.or_eq_true, List.all_eq_true, List.any_eq_true, Alt.subtype_iff, or_assoc]

theorem subtype_of_forall {t u : Ty} (h : ∀ a ∈ t.alts, ∃ b ∈ u.alts, Alt.Below a b) : t.subtype u = true :=
  subtype_iff.mpr (Or.inr (Or.inr h))

theorem subtype_iff_forall {t u : Ty} (ht : .any ∉ t.alts) (hu : .any ∉ u.alts) :
    t.subtype u = true ↔ ∀ a ∈ t.alts, ∃ b ∈ u.alts, Alt.Below a b := by
  rw [subtype_iff]
  constructor
  · rintro (h | h | h)
    · exact absurd (any_mem_of_isAny h) hu
    · exact absurd (any_mem_of_isAny h) ht
    · exact h
  · exact fun h => Or.inr (Or.inr h)

theorem only_subtype_only_iff {a b : Alt} : (only a).subtype (only b) = true ↔ Alt.Below a b := by
  have hany {a : Alt} : (only a).isAny = true ↔ a = .any := by cases a <;> simp [isAny, only, Alt.isAny]
  rw [subtype_iff, hany, hany]
  constructor
  · rintro (rfl | rfl | h)
    · exact .anyRight a
    · exact .anyLeft b
    · obtain ⟨c, hc, hbelow⟩ := h a List.mem_cons_self
      exact List.mem_singleton.mp hc ▸ hbelow
  · intro h
    exact Or.inr (Or.inr fun c hc => ⟨b, List.mem_cons_self, List.mem_singleton.mp hc ▸ h⟩)

theorem list_subtype_list_iff {t u : Ty} : (list t).subtype (list u) = true ↔ t.subtype u = true := by
  refine only_subtype_only_iff.trans ⟨fun h => ?_, .list⟩
  cases h with
  | list h => exact h

theorem tuple_subtype_tuple_iff {ts us : List Ty} : (tuple ts).subtype (tuple us) = true ↔
    List.Forall₂ (fun t u => t.subtype u = true) ts us := by
  refine only_subtype_only_iff.trans ⟨fun h => ?_, .tuple⟩
  cases h with
  | tuple h => exact h

end Ty

/-! ### Reflexivity -/

theorem Alt.below_refl {a : Alt} (hparts : ∀ t ∈ a.parts, t.subtype t = true)
    (hfields : ∀ fields isOpen, a = .struct fields isOpen → fields.Pairwise fun f g => f.1 < g.1) :
    Below a a := by
  cases a with
  | any => exact .anyLeft _
  | prim p => exact .prim p
  | list t => exact .list (hparts t List.mem_cons_self)
  | tuple ts => exact .tuple (List.forall₂_same.mpr hparts)
  | tupleOf t => exact .tupleOf rfl (hparts t List.mem_cons_self)
  | dict k v => exact .dict (hparts k List.mem_cons_self) (hparts v mem_second)
  | iterable t => exact .iterable rfl (hparts t List.mem_cons_self)
  | function sig =>
      refine .function fun s hs s' hs' => ?_
      cases hs
      cases hs'
      exact hparts s.result List.mem_cons_self
  | struct fields isOpen =>
      refine .struct (fun f hf => ?_) id
      exact ⟨f.2, NameMap.IsSorted.get?_of_mem (hfields fields isOpen rfl) hf, hparts f.2 (List.mem_map_of_mem hf)⟩
  | custom n host => exact .custom n host host

theorem Ty.subtype_self {t : Ty} (h : t.Normal) : t.subtype t = true := by
  induction h with
  | intro here _ ih =>
      refine subtype_of_forall fun a ha => ⟨a, ha, ?_⟩
      exact Alt.below_refl (ih a ha) fun fields isOpen heq => here.fields fields isOpen (heq ▸ ha)

theorem Ty.Normal.below_self {t : Ty} (h : t.Normal) {a : Alt} (ha : a ∈ t.alts) : Alt.Below a a :=
  Alt.below_refl (fun u hu => subtype_self (h.alt ha u hu)) fun fields isOpen heq =>
    h.here.fields fields isOpen (heq ▸ ha)

/-! ### Transitivity -/

/-- `Any` does not occur in a type. -/
def Ty.AnyFree : Ty → Prop := Ty.Everywhere fun t => ∀ a ∈ t.alts, a.isAny = false

/-- A type that is legible and in which `Any` does not occur. -/
def Ty.Definite : Ty → Prop := Ty.Everywhere fun t => ∀ a ∈ t.alts, a.IsLegible ∧ a ≠ .any

/-- An alternative that is legible and in which `Any` does not occur. -/
structure Alt.Definite (a : Alt) : Prop where
  legible : a.IsLegible
  ne_any : a ≠ .any
  parts : ∀ t ∈ a.parts, t.Definite

namespace Ty

theorem Definite.alt {t : Ty} {a : Alt} (h : t.Definite) (ha : a ∈ t.alts) : a.Definite :=
  ⟨(h.here a ha).1, (h.here a ha).2, Everywhere.alt h ha⟩

theorem definite_of_alts {t : Ty} (h : ∀ a ∈ t.alts, a.Definite) : t.Definite :=
  .intro (fun a ha => ⟨(h a ha).legible, (h a ha).ne_any⟩) fun a ha => (h a ha).parts

theorem Definite.any_not_mem {t : Ty} (h : t.Definite) : .any ∉ t.alts := fun hany => (h.alt hany).ne_any rfl

theorem Definite.legible {t : Ty} (h : t.Definite) : t.Legible := h.mono fun _ hu a ha => (hu a ha).1

theorem Plain.definite {t : Ty} (h : t.Plain) (hany : t.AnyFree) : t.Definite :=
  (h.legible.and hany).mono fun _ hu a ha => ⟨hu.1 a ha, fun heq => nomatch heq ▸ hu.2 a ha⟩

theorem mem_union_iff {ts : List Ty} (hlegible : ∀ t ∈ ts, t.Legible) (hany : ∀ t ∈ ts, .any ∉ t.alts)
    {a : Alt} : a ∈ (union ts).alts ↔ ∃ t ∈ ts, a ∈ t.alts := by
  have hnone : .any ∉ ts.flatMap alts := by
    intro h
    obtain ⟨t, ht, h⟩ := List.mem_flatMap.mp h
    exact hany t ht h
  have halts : ∀ b ∈ ts.flatMap alts, b.Legible := by
    intro b hb
    obtain ⟨t, ht, hb⟩ := List.mem_flatMap.mp hb
    exact (hlegible t ht).alt hb
  rw [union, mem_ofAlts_iff hnone fun b hb c hc htext => Alt.text_injective (halts b hb) (halts c hc) htext]
  exact List.mem_flatMap

theorem definite_union {ts : List Ty} (h : ∀ t ∈ ts, t.Definite) : (union ts).Definite := by
  refine definite_of_alts fun a ha => ?_
  obtain ⟨t, ht, ha⟩ := mem_of_mem_union ha
  exact (h t ht).alt ha

theorem union_subtype_iff {ts : List Ty} {u : Ty} (h : ∀ t ∈ ts, t.Definite) (hu : u.Definite) :
    (union ts).subtype u = true ↔ ∀ t ∈ ts, t.subtype u = true := by
  rw [subtype_iff_forall (definite_union h).any_not_mem hu.any_not_mem]
  constructor
  · intro hsub t ht
    have hmem : ∀ a ∈ t.alts, a ∈ (union ts).alts := fun a ha =>
      (mem_union_iff (fun s hs => (h s hs).legible) fun s hs => (h s hs).any_not_mem).mpr ⟨t, ht, ha⟩
    exact subtype_of_forall fun a ha => hsub a (hmem a ha)
  · intro hsub a ha
    obtain ⟨t, ht, ha⟩ := mem_of_mem_union ha
    exact (subtype_iff_forall (h t ht).any_not_mem hu.any_not_mem).mp (hsub t ht) a ha

/-- What is below something below `u` is below `u`, as far as `Any` does not occur. -/
def TransBelow (u : Ty) : Prop :=
  ∀ s t : Ty, s.Definite → t.Definite → s.subtype t = true → t.subtype u = true → s.subtype u = true

end Ty

theorem exists_mem_of_forall₂ {α β : Type} {R : α → β → Prop} {xs : List α} {ys : List β}
    (h : List.Forall₂ R xs ys) {x : α} (hx : x ∈ xs) : ∃ y ∈ ys, R x y := by
  induction h with
  | nil => cases hx
  | @cons x' y xs ys hxy _ ih =>
      rcases List.mem_cons.mp hx with rfl | hx
      · exact ⟨y, List.mem_cons_self, hxy⟩
      · obtain ⟨z, hz, hxz⟩ := ih hx
        exact ⟨z, List.mem_cons_of_mem y hz, hxz⟩

theorem forall₂_trans {α : Type} {R : α → α → Prop} {xs ys zs : List α}
    (htrans : ∀ x ∈ xs, ∀ y ∈ ys, ∀ z ∈ zs, R x y → R y z → R x z) (hxy : List.Forall₂ R xs ys)
    (hyz : List.Forall₂ R ys zs) : List.Forall₂ R xs zs := by
  induction hxy generalizing zs with
  | nil => exact hyz
  | @cons x y xs ys hfirst _ ih =>
      cases hyz with
      | @cons _ z _ zs hfirst' hrest =>
          refine .cons (htrans x List.mem_cons_self y List.mem_cons_self z List.mem_cons_self hfirst hfirst') ?_
          exact ih (fun x' hx y' hy z' hz => htrans x' (List.mem_cons_of_mem x hx) y' (List.mem_cons_of_mem y hy)
            z' (List.mem_cons_of_mem z hz)) hrest

namespace Alt

theorem definite_elementUnion {a : Alt} {t : Ty} (h : a.Definite) (ht : a.elementUnion? = some t) :
    t.Definite := by
  cases a with
  | tuple ts =>
      cases ht
      exact Ty.definite_union h.parts
  | tupleOf t =>
      cases ht
      exact h.parts t List.mem_cons_self
  | _ => cases ht

theorem definite_iterElem {a : Alt} {t : Ty} (h : a.Definite) (ht : a.iterElem? = some t) : t.Definite := by
  cases a with
  | any => exact absurd rfl h.ne_any
  | tuple ts | tupleOf t => exact definite_elementUnion h ht
  | list t | iterable t | dict t v =>
      cases ht
      exact h.parts t List.mem_cons_self
  | custom n host =>
      cases h.legible.1
      cases ht
  | prim p | function sig | struct fields isOpen => cases ht

theorem exists_elementUnion_of_below {a b : Alt} {t u : Ty} (ha : a.Definite) (hb : b.Definite) (hu : u.Definite)
    (htrans : u.TransBelow) (hab : Below a b) (ht : b.elementUnion? = some t) (htu : t.subtype u = true) :
    ∃ s, a.elementUnion? = some s ∧ s.subtype u = true := by
  cases hab with
  | anyLeft => exact absurd rfl ha.ne_any
  | anyRight => exact absurd rfl hb.ne_any
  | @tuple ss ts hall =>
      cases ht
      refine ⟨Ty.union ss, rfl, (Ty.union_subtype_iff ha.parts hu).mpr fun s hs => ?_⟩
      obtain ⟨t, htmem, hst⟩ := exists_mem_of_forall₂ hall hs
      exact htrans s t (ha.parts s hs) (hb.parts t htmem) hst ((Ty.union_subtype_iff hb.parts hu).mp htu t htmem)
  | @tupleOf a s t' hs hst =>
      cases ht
      exact ⟨s, hs, htrans s t (definite_elementUnion ha hs) (hb.parts t List.mem_cons_self) hst htu⟩
  | _ => cases ht

theorem exists_iterElem_of_below {a b : Alt} {t u : Ty} (ha : a.Definite) (hb : b.Definite) (hu : u.Definite)
    (htrans : u.TransBelow) (hab : Below a b) (ht : b.iterElem? = some t) (htu : t.subtype u = true) :
    ∃ s, a.iterElem? = some s ∧ s.subtype u = true := by
  cases hab with
  | anyLeft => exact absurd rfl ha.ne_any
  | anyRight => exact absurd rfl hb.ne_any
  | @list s t' hst =>
      cases ht
      exact ⟨s, rfl, htrans s t (ha.parts s List.mem_cons_self) (hb.parts t List.mem_cons_self) hst htu⟩
  | @dict k v k' v' hkey hvalue =>
      cases ht
      exact ⟨k, rfl, htrans k t (ha.parts k List.mem_cons_self) (hb.parts t List.mem_cons_self) hkey htu⟩
  | @iterable a s t' hs hst =>
      cases ht
      exact ⟨s, hs, htrans s t (definite_iterElem ha hs) (hb.parts t List.mem_cons_self) hst htu⟩
  | tuple hall =>
      obtain ⟨s, hs, hsu⟩ := exists_elementUnion_of_below ha hb hu htrans (.tuple hall) ht htu
      cases hs
      exact ⟨_, rfl, hsu⟩
  | @tupleOf a s t' hs hst =>
      obtain ⟨s', hs', hsu⟩ := exists_elementUnion_of_below ha hb hu htrans (.tupleOf hs hst) ht htu
      refine ⟨s', ?_, hsu⟩
      cases a with
      | tuple ss | tupleOf s => exact hs'
      | _ => cases hs'
  | custom n host host' =>
      cases hb.legible.1
      cases ht
  | prim p | function h | callable h | struct h hopen => cases ht

theorem below_trans {a b c : Alt} (ha : a.Definite) (hb : b.Definite) (hc : c.Definite)
    (htrans : ∀ u ∈ c.parts, u.TransBelow) (hab : Below a b) (hbc : Below b c) : Below a c := by
  cases hbc with
  | anyLeft => exact absurd rfl hb.ne_any
  | anyRight => exact absurd rfl hc.ne_any
  | prim p => exact hab
  | @list t u htu =>
      cases hab with
      | anyLeft => exact absurd rfl ha.ne_any
      | @list s t hst =>
          exact .list (htrans u List.mem_cons_self s t (ha.parts s List.mem_cons_self)
            (hb.parts t List.mem_cons_self) hst htu)
  | @tuple ts us hbc =>
      cases hab with
      | anyLeft => exact absurd rfl ha.ne_any
      | @tuple ss ts hab =>
          exact .tuple (forall₂_trans (fun s hs t ht u hu =>
            htrans u hu s t (ha.parts s hs) (hb.parts t ht)) hab hbc)
  | @tupleOf b t u ht htu =>
      obtain ⟨s, hs, hsu⟩ := exists_elementUnion_of_below ha hb (hc.parts u List.mem_cons_self)
        (htrans u List.mem_cons_self) hab ht htu
      exact .tupleOf hs hsu
  | @dict k v k' v' hkey hvalue =>
      cases hab with
      | anyLeft => exact absurd rfl ha.ne_any
      | @dict k₀ v₀ k v hkey₀ hvalue₀ =>
          have hv : ∀ {k v : Ty}, v ∈ (Alt.dict k v).parts := mem_second
          exact .dict (htrans k' List.mem_cons_self k₀ k (ha.parts k₀ List.mem_cons_self)
              (hb.parts k List.mem_cons_self) hkey₀ hkey)
            (htrans v' hv v₀ v (ha.parts v₀ hv) (hb.parts v hv) hvalue₀ hvalue)
  | @iterable b t u ht htu =>
      obtain ⟨s, hs, hsu⟩ := exists_iterElem_of_below ha hb (hc.parts u List.mem_cons_self)
        (htrans u List.mem_cons_self) hab ht htu
      exact .iterable hs hsu
  | @function sig sig' h =>
      cases hb.legible
      cases hc.legible
      exact hab
  | callable h =>
      cases hb.legible.1
      cases h
  | @struct fields wanted isOpen wantedOpen hbc hopen =>
      cases hab with
      | anyLeft => exact absurd rfl ha.ne_any
      | @struct fields₀ _ isOpen₀ _ hab hopen₀ =>
          refine .struct (fun f hf => ?_) fun h => hopen (hopen₀ h)
          obtain ⟨t, ht, htf⟩ := hbc f hf
          obtain ⟨s, hs, hst⟩ := hab (f.1, t) (mem_of_lookup_eq_some ht)
          have hpart : ∀ {fields : List (Text × Ty)} {isOpen : Bool} {t : Ty}, fields.lookup f.1 = some t →
              t ∈ (Alt.struct fields isOpen).parts :=
            fun h => List.mem_map.mpr ⟨_, mem_of_lookup_eq_some h, rfl⟩
          exact ⟨s, hs, htrans f.2 (List.mem_map.mpr ⟨f, hf, rfl⟩) s t (ha.parts s (hpart hs))
            (hb.parts t (hpart ht)) hst htf⟩
  | custom n host host' =>
      cases hab with
      | anyLeft => exact absurd rfl ha.ne_any
      | custom n host₀ => exact .custom n host₀ host'

end Alt

theorem Ty.Definite.transBelow {u : Ty} (h : u.Definite) : u.TransBelow := by
  -- In every rule the upper type shrinks, so that the induction is on it alone.
  induction h with
  | @intro u here inside ih =>
      have hu : u.Definite := .intro here inside
      intro s t hs ht hst htu
      rw [Ty.subtype_iff_forall hs.any_not_mem ht.any_not_mem] at hst
      rw [Ty.subtype_iff_forall ht.any_not_mem hu.any_not_mem] at htu
      refine Ty.subtype_of_forall fun a ha => ?_
      obtain ⟨b, hb, hab⟩ := hst a ha
      obtain ⟨c, hc, hbc⟩ := htu b hb
      exact ⟨c, hc, Alt.below_trans (hs.alt ha) (ht.alt hb) (hu.alt hc) (ih c hc) hab hbc⟩

/-- Subtyping is reflexive on normal types and transitive on plain types in which `Any` does not occur. -/
theorem Ty.subtype_preorder :
    (∀ t : Ty, t.Normal → t.subtype t = true) ∧
    ∀ a b c : Ty, a.Plain → a.AnyFree → b.Plain → b.AnyFree → c.Plain → c.AnyFree →
      a.subtype b = true → b.subtype c = true → a.subtype c = true :=
  ⟨fun _ h => subtype_self h, fun a b _ ha hany hb hbany hc hcany hab hbc =>
    (hc.definite hcany).transBelow a b (ha.definite hany) (hb.definite hbany) hab hbc⟩

/-- A pair is below the tuples of any length over its elements, and these are below the iterables over
more. -/
theorem Ty.subtype_preorder_pair :
    (Ty.function (some ⟨[⟨.args, "xs", .any, true⟩], .any⟩)).subtype
      (.function (some ⟨[⟨.args, "xs", .any, true⟩], .any⟩)) = true ∧
    (Ty.tuple [.int, .only (.struct [("x", .named "Label")] false)]).subtype
      (.iterable ⟨[.prim .none, .prim .int, .struct [] true]⟩) = true := by
  refine ⟨subtype_preorder.1 _ (everywhere_of_holdsInside 2 (by decide +kernel)), ?_⟩
  refine subtype_preorder.2 _ (.tupleOf ⟨[.prim .int, .struct [] true]⟩) _ ?_ ?_ ?_ ?_ ?_ ?_ ?_ ?_
  · exact plain_of_holdsInside 4 (by decide +kernel) (by decide +kernel)
  · exact everywhere_of_holdsInside 4 (by decide +kernel)
  · exact plain_of_holdsInside 4 (by decide +kernel) (by decide +kernel)
  · exact everywhere_of_holdsInside 4 (by decide +kernel)
  · exact plain_of_holdsInside 4 (by decide +kernel) (by decide +kernel)
  · exact everywhere_of_holdsInside 4 (by decide +kernel)
  · decide +kernel
  · decide +kernel

/-! ### Bounds -/

namespace Ty

theorem union_eq_any {ts : List Ty} {t : Ty} (ht : t ∈ ts) (hany : .any ∈ t.alts) : union ts = .any :=
  ofAlts_of_any_mem (List.mem_flatMap.mpr ⟨t, ht, hany⟩)

theorem subtype_any (t : Ty) : t.subtype .any = true := subtype_iff.mpr (Or.inl rfl)

theorem any_subtype (t : Ty) : any.subtype t = true := subtype_iff.mpr (Or.inr (Or.inl rfl))

/-- A member is below the union: each of its alternatives is kept, since none but itself has its text. -/
theorem subtype_union {ts : List Ty} (h : ∀ t ∈ ts, t.Plain) {t : Ty} (ht : t ∈ ts) :
    t.subtype (union ts) = true := by
  by_cases hany : ∃ s ∈ ts, .any ∈ s.alts
  · obtain ⟨s, hs, hmem⟩ := hany
    rw [union_eq_any hs hmem]
    exact subtype_any t
  · have hnone : ∀ s ∈ ts, .any ∉ s.alts := fun s hs hmem => hany ⟨s, hs, hmem⟩
    have hself := (subtype_iff_forall (hnone t ht) (hnone t ht)).mp (subtype_self (h t ht).normal)
    refine subtype_of_forall fun a ha => ?_
    obtain ⟨b, hb, hab⟩ := hself a ha
    exact ⟨b, (mem_union_iff (fun s hs => (h s hs).legible) hnone).mpr ⟨t, ht, hb⟩, hab⟩

theorem union_subtype {ts : List Ty} {u : Ty} (hu : ∀ t ∈ ts, t.subtype u = true) : (union ts).subtype u = true := by
  by_cases huany : u.isAny = true
  · exact subtype_iff.mpr (Or.inl huany)
  by_cases hany : ∃ s ∈ ts, .any ∈ s.alts
  · obtain ⟨s, hs, hmem⟩ := hany
    rw [union_eq_any hs hmem]
    exact any_subtype u
  · refine subtype_of_forall fun a ha => ?_
    obtain ⟨t, ht, ha⟩ := mem_of_mem_union ha
    rcases subtype_iff.mp (hu t ht) with hisAny | hisAny | hall
    · exact absurd hisAny huany
    · exact absurd ⟨t, ht, any_mem_of_isAny hisAny⟩ hany
    · exact hall a ha

/-- The union of plain types is their least upper bound. -/
theorem union_least_upper_bound {ts : List Ty} (h : ∀ t ∈ ts, t.Plain) :
    (∀ t ∈ ts, t.subtype (union ts) = true) ∧
    ∀ u : Ty, (∀ t ∈ ts, t.subtype u = true) → (union ts).subtype u = true :=
  ⟨fun _ ht => subtype_union h ht, fun _ hu => union_subtype hu⟩

/-- A list or `None`, a pair, and a list of structs; all but `None` can be iterated over. -/
theorem union_least_upper_bound_lists :
    let ts : List Ty := [⟨[.prim .none, .list .any]⟩, .tuple [.int, .named "Label"],
      .list (.only (.struct [("x", .int)] false))]
    (∀ t ∈ ts, t.subtype (union ts) = true) ∧
    (union ts).subtype ⟨[.prim .none, .iterable ⟨[.custom "Label" Option.none, .prim .int, .struct [] true]⟩]⟩ =
      true := by
  intro ts
  have hplain : ∀ t ∈ ts, t.Plain := by
    simp only [ts, List.forall_mem_cons]
    refine ⟨?_, ?_, ?_, fun _ h => (List.not_mem_nil h).elim⟩
    all_goals exact plain_of_holdsInside 4 (by decide +kernel) (by decide +kernel)
  refine ⟨(union_least_upper_bound hplain).1, (union_least_upper_bound hplain).2 _ ?_⟩
  simp only [ts, List.forall_mem_cons]
  refine ⟨?_, ?_, ?_, fun _ h => (List.not_mem_nil h).elim⟩
  all_goals decide +kernel

end Ty

end Gradual
