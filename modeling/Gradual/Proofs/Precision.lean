import Gradual.Proofs.SubtypeOrder
import Gradual.Proofs.TypeInvariant

/-! Types made less precise. Any number of positions in a type, nested or the whole, may be replaced by `Any`; what
is left is brought into normal form again, so that alternatives that became the same fall together. On plain types
this never makes two types incompatible: what was below something is still below it. An alternative keeps its form
when its parts lose precision, and a tuple one of whose elements became `Any` has `Any` for its element union,
which is below everything. -/

namespace Gradual

mutual

/-- A type with any of the types in it, or the whole of it, replaced by `Any`. -/
inductive Ty.Blurs : Ty → Ty → Prop
  | whole (t : Ty) : Ty.Blurs t .any
  | alts {alts alts' : List Alt} (h : List.Forall₂ Alt.Blurs alts alts') : Ty.Blurs ⟨alts⟩ (.ofAlts alts')

/-- An alternative with any of the types in it replaced by `Any`. -/
inductive Alt.Blurs : Alt → Alt → Prop
  | any : Alt.Blurs .any .any
  | prim (p : Primitive) : Alt.Blurs (.prim p) (.prim p)
  | list {t t' : Ty} (h : Ty.Blurs t t') : Alt.Blurs (.list t) (.list t')
  | tuple {ts ts' : List Ty} (h : List.Forall₂ Ty.Blurs ts ts') : Alt.Blurs (.tuple ts) (.tuple ts')
  | tupleOf {t t' : Ty} (h : Ty.Blurs t t') : Alt.Blurs (.tupleOf t) (.tupleOf t')
  | dict {k v k' v' : Ty} (hkey : Ty.Blurs k k') (hvalue : Ty.Blurs v v') : Alt.Blurs (.dict k v) (.dict k' v')
  | iterable {t t' : Ty} (h : Ty.Blurs t t') : Alt.Blurs (.iterable t) (.iterable t')
  | function (sig : Option Signature) : Alt.Blurs (.function sig) (.function sig)
  | struct {fields fields' : List (Text × Ty)} (isOpen : Bool)
      (hnames : fields.map Prod.fst = fields'.map Prod.fst)
      (htypes : List.Forall₂ Ty.Blurs (fields.map Prod.snd) (fields'.map Prod.snd)) :
      Alt.Blurs (.struct fields isOpen) (.struct fields' isOpen)
  | custom (n : Text) (host : Option Host) : Alt.Blurs (.custom n host) (.custom n host)

end

/-! ### What is kept -/

theorem exists_mem_of_forall₂_right {α β : Type} {R : α → β → Prop} {xs : List α} {ys : List β}
    (h : List.Forall₂ R xs ys) {y : β} (hy : y ∈ ys) : ∃ x ∈ xs, R x y :=
  exists_mem_of_forall₂ (R := fun y x => R x y) h.flip hy

theorem Alt.Blurs.legible_of_parts {a a' : Alt} (h : a.Blurs a') (ha : a.IsLegible)
    (hparts : ∀ t ∈ a.parts, ∀ t', t.Blurs t' → t'.Legible) : a'.Legible := by
  have hcontainer : ∀ {b : Alt}, b.isContainer = true → (∀ t ∈ b.parts, t.Legible) → b.Legible :=
    fun hb hall => legible_only_iff.mp (Ty.invariant_legible.container hb hall)
  cases h with
  | any | prim | custom => exact ⟨ha, List.forall_mem_nil _⟩
  | function sig =>
      cases ha
      exact ⟨rfl, List.forall_mem_nil _⟩
  | list h | tupleOf h | iterable h =>
      exact hcontainer rfl (List.forall_mem_singleton.mpr (hparts _ List.mem_cons_self _ h))
  | dict hkey hvalue =>
      refine hcontainer rfl (List.forall_mem_cons.mpr ⟨hparts _ List.mem_cons_self _ hkey,
        List.forall_mem_singleton.mpr (hparts _ mem_second _ hvalue)⟩)
  | tuple h =>
      refine hcontainer rfl fun t' ht' => ?_
      obtain ⟨t, ht, hblurs⟩ := exists_mem_of_forall₂_right h ht'
      exact hparts t ht t' hblurs
  | @struct fields fields' isOpen hnames htypes =>
      refine ⟨fun f hf => ?_, fun t' ht' => ?_⟩
      · obtain ⟨g, hg, heq⟩ := List.mem_map.mp (hnames ▸ List.mem_map_of_mem (f := Prod.fst) hf)
        exact heq ▸ ha g hg
      · obtain ⟨t, ht, hblurs⟩ := exists_mem_of_forall₂_right htypes ht'
        exact hparts t ht t' hblurs

theorem Ty.Blurs.legible {t t' : Ty} (h : t.Blurs t') (ht : t.Legible) : t'.Legible := by
  induction ht generalizing t' with
  | intro here inside ih =>
      cases h with
      | whole => exact Alt.legible_only_iff.mpr ⟨trivial, List.forall_mem_nil _⟩
      | alts h =>
          refine invariant_legible.ofAlts fun a' ha' => ?_
          obtain ⟨a, ha, hblurs⟩ := exists_mem_of_forall₂_right h ha'
          exact Alt.legible_only_iff.mpr (hblurs.legible_of_parts (here a ha) fun u hu u' hu' => ih a ha u hu hu')

theorem Alt.Blurs.legible {a a' : Alt} (h : a.Blurs a') (ha : a.Legible) : a'.Legible :=
  h.legible_of_parts ha.1 fun _ ht _ hblurs => hblurs.legible (ha.part ht)

theorem Ty.Blurs.eq_any {t t' : Ty} (h : t.Blurs t') (ht : t.isAny = true) : t' = .any := by
  cases eq_any_of_isAny ht
  cases h with
  | whole => rfl
  | alts h =>
      cases h with
      | cons hfirst hrest =>
          cases hfirst
          exact ofAlts_of_any_mem List.mem_cons_self

/-! ### What is below stays below -/

namespace Ty

/-- What is below a type is still below it when both have less precision. -/
def StaysAbove (u : Ty) : Prop :=
  ∀ t t' u' : Ty, t.Plain → t.Blurs t' → u.Blurs u' → t.subtype u = true → t'.subtype u' = true

theorem subtype_of_union_subtype {ts : List Ty} {u : Ty} (hlegible : ∀ t ∈ ts, t.Legible)
    (hany : ∀ t ∈ ts, .any ∉ t.alts) (h : (union ts).subtype u = true) {t : Ty} (ht : t ∈ ts) : t.subtype u = true := by
  rcases subtype_iff.mp h with hu | hisAny | hall
  · exact subtype_iff.mpr (Or.inl hu)
  · obtain ⟨s, hs, hmem⟩ := mem_of_mem_union (any_mem_of_isAny hisAny)
    exact absurd hmem (hany s hs)
  · exact subtype_of_forall fun a ha => hall a ((mem_union_iff hlegible hany).mpr ⟨t, ht, ha⟩)

theorem union_subtype_of_blurs {ts ts' : List Ty} {u u' : Ty} (hu : u.StaysAbove) (hts : ∀ t ∈ ts, t.Plain)
    (hblurs : List.Forall₂ Ty.Blurs ts ts') (hublurs : u.Blurs u') (h : (union ts).subtype u = true) :
    (union ts').subtype u' = true := by
  by_cases hany : ∃ t ∈ ts, .any ∈ t.alts
  · -- An element that is `Any` stays so, and then the union is `Any`, whatever became of the others.
    obtain ⟨t, ht, hmem⟩ := hany
    obtain ⟨t', ht', htblurs⟩ := exists_mem_of_forall₂ hblurs ht
    have hisAny : t.isAny = true := by
      rw [(hts t ht).normal.here.alone hmem]
      rfl
    rw [htblurs.eq_any hisAny] at ht'
    rw [union_eq_any ht' List.mem_cons_self]
    exact any_subtype u'
  · have hnone : ∀ t ∈ ts, .any ∉ t.alts := fun t ht hmem => hany ⟨t, ht, hmem⟩
    apply union_subtype
    intro t' ht'
    obtain ⟨t, ht, htblurs⟩ := exists_mem_of_forall₂_right hblurs ht'
    exact hu t t' u' (hts t ht) htblurs hublurs
      (subtype_of_union_subtype (fun s hs => (hts s hs).legible) hnone h ht)

theorem forall₂_subtype_of_blurs {ts us ts' us' : List Ty} (hts : ∀ t ∈ ts, t.Plain) (hus : ∀ u ∈ us, u.StaysAbove)
    (htsblurs : List.Forall₂ Ty.Blurs ts ts') (husblurs : List.Forall₂ Ty.Blurs us us')
    (h : List.Forall₂ (fun t u => t.subtype u = true) ts us) :
    List.Forall₂ (fun t u => t.subtype u = true) ts' us' := by
  induction h generalizing ts' us' with
  | nil =>
      cases htsblurs
      cases husblurs
      exact .nil
  | @cons t u ts us hsub _ ih =>
      obtain ⟨ht, hts⟩ := List.forall_mem_cons.mp hts
      obtain ⟨hu, hus⟩ := List.forall_mem_cons.mp hus
      cases htsblurs with
      | cons htblurs htsblurs =>
          cases husblurs with
          | cons hublurs husblurs =>
              exact .cons (hu t _ _ ht htblurs hublurs hsub) (ih hts hus htsblurs husblurs)

end Ty

theorem forall₂_fields {R : Ty → Ty → Prop} {fields fields' : List (Text × Ty)}
    (hnames : fields.map Prod.fst = fields'.map Prod.fst)
    (htypes : List.Forall₂ R (fields.map Prod.snd) (fields'.map Prod.snd)) :
    List.Forall₂ (fun f g => f.1 = g.1 ∧ R f.2 g.2) fields fields' := by
  rw [← List.forall₂_eq_eq_eq, List.forall₂_map_left_iff, List.forall₂_map_right_iff] at hnames
  rw [List.forall₂_map_left_iff, List.forall₂_map_right_iff] at htypes
  exact List.Forall₂.mp (fun _ _ => And.intro) hnames htypes

theorem exists_lookup_of_forall₂ {R : Ty → Ty → Prop} {fields fields' : List (Text × Ty)}
    (h : List.Forall₂ (fun f g => f.1 = g.1 ∧ R f.2 g.2) fields fields') {name : Text} {t : Ty}
    (ht : fields.lookup name = some t) : ∃ t', fields'.lookup name = some t' ∧ R t t' := by
  induction h with
  | nil => cases ht
  | @cons f g fields fields' hfg _ ih =>
      rw [List.lookup_cons] at ht ⊢
      rw [← hfg.1]
      split at ht
      · cases ht
        exact ⟨g.2, rfl, hfg.2⟩
      · exact ih ht

namespace Alt

section

variable {x x' : Alt} {t u u' : Ty} (hx : ∀ s ∈ x.parts, s.Plain) (hu : u.StaysAbove) (hblurs : x.Blurs x')
  (hublurs : u.Blurs u')
include hx hu hblurs hublurs

theorem exists_elementUnion_of_blurs (ht : x.elementUnion? = some t) (h : t.subtype u = true) :
    ∃ t', x'.elementUnion? = some t' ∧ t'.subtype u' = true := by
  cases hblurs with
  | tuple hts =>
      cases ht
      exact ⟨_, rfl, Ty.union_subtype_of_blurs hu hx hts hublurs h⟩
  | tupleOf ht' =>
      cases ht
      exact ⟨_, rfl, hu t _ u' (hx t List.mem_cons_self) ht' hublurs h⟩
  | _ => cases ht

theorem exists_iterElem_of_blurs (hlegible : x.IsLegible) (ht : x.iterElem? = some t) (h : t.subtype u = true) :
    ∃ t', x'.iterElem? = some t' ∧ t'.subtype u' = true := by
  cases hblurs with
  | any => exact ⟨.any, rfl, Ty.any_subtype u'⟩
  | tuple hts =>
      cases ht
      exact ⟨_, rfl, Ty.union_subtype_of_blurs hu hx hts hublurs h⟩
  | list ht' | tupleOf ht' | iterable ht' | dict ht' =>
      cases ht
      exact ⟨_, rfl, hu t _ u' (hx t List.mem_cons_self) ht' hublurs h⟩
  | custom n host =>
      cases hlegible.1
      cases ht
  | prim | function | struct => cases ht

end

/-- Below an alternative stays what was below it, whatever its parts and those of the alternative became. -/
theorem below_of_blurs {x y x' y' : Alt} (hx : x.IsLegible) (hxparts : ∀ t ∈ x.parts, t.Plain)
    (hyparts : ∀ u ∈ y.parts, u.StaysAbove) (hxblurs : x.Blurs x') (hyblurs : y.Blurs y') (h : Below x y) :
    Below x' y' := by
  have hfirst : ∀ {w : Ty} {ws : List Ty}, w ∈ w :: ws := List.mem_cons_self
  cases h with
  | anyLeft =>
      cases hxblurs
      exact .anyLeft y'
  | anyRight =>
      cases hyblurs
      exact .anyRight x'
  | prim p =>
      cases hxblurs
      cases hyblurs
      exact .prim p
  | @list t u h =>
      cases hxblurs with
      | list ht =>
          cases hyblurs with
          | list hu => exact .list (hyparts u hfirst t _ _ (hxparts t hfirst) ht hu h)
  | @tuple ts us h =>
      cases hxblurs with
      | tuple hts =>
          cases hyblurs with
          | tuple hus =>
              exact .tuple (Ty.forall₂_subtype_of_blurs hxparts hyparts hts hus h)
  | tupleOf ht h =>
      cases hyblurs with
      | tupleOf hu =>
          obtain ⟨t', ht', hsub⟩ := exists_elementUnion_of_blurs hxparts (hyparts _ hfirst) hxblurs hu ht h
          exact .tupleOf ht' hsub
  | @dict k v k' v' hkey hvalue =>
      cases hxblurs with
      | dict hk hv =>
          cases hyblurs with
          | dict hk' hv' =>
              exact .dict (hyparts k' hfirst k _ _ (hxparts k hfirst) hk hk' hkey)
                (hyparts v' mem_second v _ _ (hxparts v mem_second) hv hv' hvalue)
  | iterable ht h =>
      cases hyblurs with
      | iterable hu =>
          obtain ⟨t', ht', hsub⟩ := exists_iterElem_of_blurs hxparts (hyparts _ hfirst) hxblurs hu hx ht h
          exact .iterable ht' hsub
  | function h =>
      cases hxblurs
      cases hyblurs
      exact .function h
  | callable h =>
      cases hx.1
      cases h
  | @struct fields wanted isOpen wantedOpen h hopen =>
      cases hxblurs with
      | struct _ hnames htypes =>
          cases hyblurs with
          | struct _ hnames' htypes' =>
              refine .struct (fun f' hf' => ?_) hopen
              obtain ⟨f, hf, hname, hblurs⟩ := exists_mem_of_forall₂_right (forall₂_fields hnames' htypes') hf'
              obtain ⟨t, ht, hsub⟩ := h f hf
              obtain ⟨t', ht', htblurs⟩ := exists_lookup_of_forall₂ (forall₂_fields hnames htypes) ht
              have htpart : t ∈ (Alt.struct fields isOpen).parts :=
                List.mem_map.mpr ⟨_, mem_of_lookup_eq_some ht, rfl⟩
              have hfpart : f.2 ∈ (Alt.struct wanted wantedOpen).parts := List.mem_map.mpr ⟨f, hf, rfl⟩
              exact ⟨t', hname ▸ ht', hyparts f.2 hfpart t t' f'.2 (hxparts t htpart) htblurs hblurs hsub⟩
  | custom n host host' =>
      cases hxblurs
      cases hyblurs
      exact .custom n host host'

end Alt

namespace Ty

theorem Plain.part {t : Ty} (h : t.Plain) {a : Alt} (ha : a ∈ t.alts) {u : Ty} (hu : u ∈ a.parts) : u.Plain :=
  ⟨h.normal.alt ha u hu, (h.legible.alt ha).part hu⟩

/-- An alternative is still there when a type has less precision, unless the type became `Any`: none is lost to
another one of the same text. -/
theorem Blurs.exists_alt {t t' : Ty} (h : t.Blurs t') (ht : t.Legible) {a : Alt} (ha : a ∈ t.alts) :
    t' = .any ∨ ∃ a' ∈ t'.alts, a.Blurs a' := by
  cases h with
  | whole => exact Or.inl rfl
  | @alts _ alts' h =>
      by_cases hany : .any ∈ alts'
      · exact Or.inl (ofAlts_of_any_mem hany)
      · have hlegible : ∀ b ∈ alts', b.Legible := by
          intro b hb
          obtain ⟨c, hc, hblurs⟩ := exists_mem_of_forall₂_right h hb
          exact hblurs.legible (ht.alt hc)
        obtain ⟨a', ha', hblurs⟩ := exists_mem_of_forall₂ h ha
        refine Or.inr ⟨a', (mem_ofAlts_iff hany fun b hb c hc htext => ?_).mpr ha', hblurs⟩
        exact Alt.text_injective (hlegible b hb) (hlegible c hc) htext

theorem Blurs.exists_of_alt {t t' : Ty} (h : t.Blurs t') {a' : Alt} (ha' : a' ∈ t'.alts) :
    t' = .any ∨ ∃ a ∈ t.alts, a.Blurs a' := by
  cases h with
  | whole => exact Or.inl rfl
  | alts h => exact Or.inr (exists_mem_of_forall₂_right h (mem_of_mem_ofAlts ha'))

theorem staysAbove_of_everywhere {u : Ty}
    (h : u.Everywhere fun v => v.IsNormalUnion ∧ ∀ a ∈ v.alts, a.IsLegible) : u.StaysAbove := by
  -- In every rule the upper type shrinks, so that the induction is on it alone.
  induction h with
  | @intro u here inside ih =>
      have hlegible : u.Legible := .intro here.2 fun b hb v hv => (inside b hb v hv).mono fun _ hw => hw.2
      intro t t' u' ht htblurs hublurs hsub
      rcases subtype_iff.mp hsub with huany | htany | hall
      · rw [hublurs.eq_any huany]
        exact subtype_any t'
      · rw [htblurs.eq_any htany]
        exact any_subtype u'
      · refine subtype_iff.mpr ?_
        by_cases huany : u' = .any
        · exact Or.inl (huany ▸ rfl)
        by_cases htany : t' = .any
        · exact Or.inr (Or.inl (htany ▸ rfl))
        refine Or.inr (Or.inr fun a' ha' => ?_)
        obtain ⟨a, ha, hablurs⟩ := (htblurs.exists_of_alt ha').resolve_left htany
        obtain ⟨b, hb, hab⟩ := hall a ha
        obtain ⟨b', hb', hbblurs⟩ := (hublurs.exists_alt hlegible hb).resolve_left huany
        exact ⟨b', hb', Alt.below_of_blurs (ht.legible.here a ha) (fun _ hs => ht.part ha hs) (ih b hb) hablurs
          hbblurs hab⟩

/-- Making plain types less precise never makes them incompatible. -/
theorem subtype_of_less_precise {a b a' b' : Ty} (ha : a.Plain) (hb : b.Plain) (ha' : a.Blurs a') (hb' : b.Blurs b')
    (h : a.subtype b = true) : a'.subtype b' = true :=
  staysAbove_of_everywhere (hb.normal.and hb.legible) a a' b' ha ha' hb' h

/-- Two lists fall together when their elements become `Any`, and so do the elements of a list in a pair. -/
theorem subtype_of_less_precise_lists :
    let a : Ty := ⟨[.list .int, .list .str, .tuple [.int, .list .int]]⟩
    let b : Ty := .iterable ⟨[.prim .int, .list .int, .prim .str]⟩
    let a' : Ty := .ofAlts [.list .any, .list .any, .tuple [.int, .list .any]]
    let b' : Ty := .ofAlts [.iterable (.ofAlts [.prim .int, .list .any, .prim .str])]
    a'.text = "list[Any] | tuple[int, list[Any]]" ∧ b'.text = "iterable[int | list[Any] | str]" ∧
      a.subtype b = true ∧ a'.subtype b' = true := by
  intro a b a' b'
  have hsame {p : Primitive} : (only (.prim p)).Blurs (only (.prim p)) := .alts (.cons (.prim p) .nil)
  have hpair : (Alt.tuple [.int, .list .int]).Blurs (.tuple [.int, .list .any]) :=
    .tuple (.cons hsame (.cons (.alts (.cons (.list (.whole _)) .nil)) .nil))
  have ha' : a.Blurs a' := .alts (.cons (.list (.whole _)) (.cons (.list (.whole _)) (.cons hpair .nil)))
  have hb' : b.Blurs b' :=
    .alts (.cons (.iterable (.alts (.cons (.prim _) (.cons (.list (.whole _)) (.cons (.prim _) .nil))))) .nil)
  have hab : a.subtype b = true := by decide +kernel
  refine ⟨by decide +kernel, by decide +kernel, hab, subtype_of_less_precise ?_ ?_ ha' hb' hab⟩
  · exact plain_of_holdsInside 4 (by decide +kernel) (by decide +kernel)
  · exact plain_of_holdsInside 4 (by decide +kernel) (by decide +kernel)

end Ty

end Gradual
