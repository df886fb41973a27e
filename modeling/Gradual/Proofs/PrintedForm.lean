import Gradual.Proofs.NormalForm
import Gradual.Proofs.PrintedParameters
import Gradual.Ty.Name

/-! The text of a type determines the type, if it has no hosts and no names that could be taken for something
else, and no result of a signature is a union. The argument reads a text from its beginning: an alternative
begins with the name of its kind and ends before a blank, a comma or a closing bracket, so that two texts
with something after them can be equal only if they are equal up to there. After the result of a signature
comes what follows the signature, and that may be a bar; this is why the result must not be a union.
Plain types have no signatures at all. -/

namespace Gradual

variable {t : Ty} {a : Alt}

/-- A name that no built-in type has, so that it denotes the custom type of that name. -/
def Ty.IsFreeName (name : Text) : Prop := Ty.ofName name [] false = .named name

def Alt.customName? : Alt → Option Text
  | .custom name _ => some name
  | _ => none

theorem Ty.isFreeName_iff {name : Text} :
    Ty.IsFreeName name ↔ (Ty.ofName name [] false).single?.bind Alt.customName? = some name := by
  unfold IsFreeName ofName
  split <;> simp [Ty.single?, Ty.named, Ty.only, Alt.customName?, Ty.none, Ty.bool, Ty.int, Ty.float, Ty.str,
    Ty.any, Ty.never, Ty.list, Ty.dict, Ty.iterable, Ty.tupleOf, Ty.function, Ty.struct]

instance : DecidablePred Ty.IsFreeName := fun _ => decidable_of_iff' _ Ty.isFreeName_iff

/-- An alternative has no host and no signature, and its names cannot be taken for something else. -/
def Alt.IsLegible : Alt → Prop
  | .custom name host => host = none ∧ Text.isName name = true ∧ Ty.IsFreeName name
  | .function sig => sig = none
  | .struct fields _ => ∀ f ∈ fields, Text.isName f.1 = true
  | _ => True

instance : DecidablePred Alt.IsLegible := fun a =>
  match a with
  | .custom name host => decidable_of_iff (host.isNone = true ∧ Text.isName name = true ∧ Ty.IsFreeName name)
      (by rw [Option.isNone_iff_eq_none]; rfl)
  | .function sig => decidable_of_iff (sig.isNone = true) Option.isNone_iff_eq_none
  | .struct fields _ => inferInstanceAs (Decidable (∀ f ∈ fields, Text.isName f.1 = true))
  | .any | .prim _ | .list _ | .tuple _ | .tupleOf _ | .dict _ _ | .iterable _ => inferInstanceAs (Decidable True)

/-- Every alternative of a type and of the types inside it is legible. -/
def Ty.Legible : Ty → Prop := Ty.Everywhere fun t => ∀ a ∈ t.alts, a.IsLegible

/-- Every type inside a legible alternative is legible. -/
def Alt.Legible (a : Alt) : Prop := a.IsLegible ∧ a.Everywhere fun t => ∀ a ∈ t.alts, a.IsLegible

/-- A normal type without hosts, signatures and misleading names. -/
structure Ty.Plain (t : Ty) : Prop where
  normal : t.Normal
  legible : t.Legible

theorem Ty.plain_of_holdsInside (depth : Nat) (hnormal : t.holdsInside Ty.IsNormalUnion depth = true)
    (hlegible : t.holdsInside (fun t => ∀ a ∈ t.alts, a.IsLegible) depth = true) : t.Plain :=
  ⟨Ty.everywhere_of_holdsInside depth hnormal, Ty.everywhere_of_holdsInside depth hlegible⟩

theorem Ty.Legible.alt (h : t.Legible) (ha : a ∈ t.alts) : a.Legible :=
  ⟨h.here a ha, Ty.Everywhere.alt h ha⟩

theorem Alt.Legible.part (h : a.Legible) (ht : t ∈ a.parts) : t.Legible := h.2 t ht

theorem Alt.legible_only_iff : (Ty.only a).Legible ↔ a.Legible := by
  rw [Ty.Legible, Ty.everywhere_only_iff]
  exact and_congr_left' List.forall_mem_singleton

/-- An alternative has no host, its names cannot be taken for something else, and its parameters stand in the
order of their modes. -/
def Alt.IsWellNamed : Alt → Prop
  | .function (some sig) => (∀ p ∈ sig.params, Text.isName p.name = true) ∧ Param.Ordered sig.params
  | a => a.IsLegible

instance : DecidablePred Alt.IsWellNamed := fun a =>
  match a with
  | .function (some sig) => inferInstanceAs (Decidable ((∀ p ∈ sig.params, Text.isName p.name = true) ∧
      sig.params.Pairwise fun p q => p.mode.rank ≤ q.mode.rank))
  | .function none => inferInstanceAs (Decidable (Alt.IsLegible (.function none)))
  | .custom name host => inferInstanceAs (Decidable (Alt.IsLegible (.custom name host)))
  | .struct fields isOpen => inferInstanceAs (Decidable (Alt.IsLegible (.struct fields isOpen)))
  | .any | .prim _ | .list _ | .tuple _ | .tupleOf _ | .dict _ _ | .iterable _ => inferInstanceAs (Decidable True)

/-- The result of a signature is no union. -/
def Alt.IsBrief : Alt → Prop
  | .function (some sig) => sig.result.alts.length ≤ 1
  | _ => True

instance : DecidablePred Alt.IsBrief := fun a =>
  match a with
  | .function (some sig) => inferInstanceAs (Decidable (sig.result.alts.length ≤ 1))
  | .function none | .custom _ _ | .struct _ _ | .any | .prim _ | .list _ | .tuple _ | .tupleOf _ | .dict _ _
  | .iterable _ => inferInstanceAs (Decidable True)

/-- An alternative whose text can be read back. -/
structure Alt.IsReadable (a : Alt) : Prop where
  wellNamed : a.IsWellNamed
  brief : a.IsBrief

/-- Every alternative of a type and of the types inside it is well named. -/
def Ty.WellNamed : Ty → Prop := Ty.Everywhere fun t => ∀ a ∈ t.alts, a.IsWellNamed

/-- No result of a signature is a union, anywhere in a type. -/
def Ty.Brief : Ty → Prop := Ty.Everywhere fun t => ∀ a ∈ t.alts, a.IsBrief

/-- Every alternative of a type and of the types inside it can be read back. -/
def Ty.Readable : Ty → Prop := Ty.Everywhere fun t => ∀ a ∈ t.alts, a.IsReadable

theorem Ty.WellNamed.readable (h : t.WellNamed) (hbrief : t.Brief) : t.Readable :=
  (h.and hbrief).mono fun _ hu a ha => ⟨hu.1 a ha, hu.2 a ha⟩

theorem Alt.IsLegible.isReadable (h : a.IsLegible) : a.IsReadable := by
  cases a with
  | function sig =>
      cases h
      exact ⟨rfl, trivial⟩
  | _ => exact ⟨h, trivial⟩

theorem Ty.Legible.readable (h : t.Legible) : t.Readable :=
  h.mono fun _ hu a ha => (hu a ha).isReadable

theorem Alt.IsWellNamed.cases (h : a.IsWellNamed) :
    a.IsLegible ∨ ∃ sig, a = .function (some sig) ∧ (∀ p ∈ sig.params, Text.isName p.name = true) ∧
      Param.Ordered sig.params := by
  cases a with
  | function sig =>
      cases sig with
      | none => exact Or.inl rfl
      | some sig => exact Or.inr ⟨sig, rfl, h⟩
  | _ => exact Or.inl h

/-! ### The kind of an alternative and what stands in its brackets -/

namespace Alt

/-- The parts between the brackets of an alternative's text. -/
def items : Alt → List Text
  | .list elem | .iterable elem => [elem.text]
  | .tuple elems => if elems.isEmpty then ["()"] else Ty.texts elems
  | .tupleOf elem => [elem.text, "..."]
  | .dict key value => [key.text, value.text]
  | .struct fields isOpen => Ty.fieldTexts fields ++ if isOpen then ["..."] else []
  | .any | .prim _ | .function _ | .custom _ _ => []

/-- What follows the kind in an alternative's text. -/
def detail (a : Alt) : List Char :=
  match a with
  | .list _ | .iterable _ | .tuple _ | .tupleOf _ | .dict _ _ =>
      '[' :: (Text.join ", " a.items).toList ++ [']']
  | .struct _ _ => '(' :: (Text.join ", " a.items).toList ++ [')']
  | .any | .prim _ | .function _ | .custom _ _ => []

theorem toList_text_of_ne {a : Alt} (h : ∀ sig, a ≠ .function (some sig)) :
    a.text.toList = a.kind.toList ++ a.detail := by
  cases a with
  | any => rfl
  | prim p => simp [text, kind, detail]
  | list elem => simp [text, kind, detail, items, Text.join, String.toList_append]
  | tuple elems =>
      simp only [text, kind, detail, items]
      split
      · rfl
      · simp [String.toList_append]
  | tupleOf elem => simp [text, kind, detail, items, Text.join, String.toList_append]
  | dict key value => simp [text, kind, detail, items, Text.join, String.toList_append]
  | iterable elem => simp [text, kind, detail, items, Text.join, String.toList_append]
  | function sig =>
      cases sig with
      | none => simp [text, kind, detail]
      | some sig => exact absurd rfl (h sig)
  | struct fields isOpen => simp [text, kind, detail, items, String.toList_append]
  | custom name host => simp [text, kind, detail]

theorem toList_text {a : Alt} (h : a.IsLegible) : a.text.toList = a.kind.toList ++ a.detail := by
  apply toList_text_of_ne
  rintro sig rfl
  cases h

theorem kind_ne_of_isFreeName {a : Alt} {name : Text} (ha : ∀ n host, a ≠ .custom n host)
    (hfree : Ty.IsFreeName name) : a.kind ≠ name := by
  rintro rfl
  cases a with
  | prim p => cases p <;> exact nomatch hfree
  | custom n host => exact ha n host rfl
  | _ => exact nomatch hfree

/-- Two alternatives of one kind: they have one form, except that tuples of known and of any length go by
the same kind. -/
inductive SameForm : Alt → Alt → Prop
  | any : SameForm .any .any
  | prim (p : Primitive) : SameForm (.prim p) (.prim p)
  | list (elem elem' : Ty) : SameForm (.list elem) (.list elem')
  | tuple (elems elems' : List Ty) : SameForm (.tuple elems) (.tuple elems')
  | tupleLeft (elems : List Ty) (elem : Ty) : SameForm (.tuple elems) (.tupleOf elem)
  | tupleRight (elem : Ty) (elems : List Ty) : SameForm (.tupleOf elem) (.tuple elems)
  | tupleOf (elem elem' : Ty) : SameForm (.tupleOf elem) (.tupleOf elem')
  | dict (key value key' value' : Ty) : SameForm (.dict key value) (.dict key' value')
  | iterable (elem elem' : Ty) : SameForm (.iterable elem) (.iterable elem')
  | function : SameForm (.function none) (.function none)
  | struct (fields fields' : List (Text × Ty)) (isOpen isOpen' : Bool) :
      SameForm (.struct fields isOpen) (.struct fields' isOpen')
  | custom (name : Text) : SameForm (.custom name none) (.custom name none)

theorem text_primitive_injective {p q : Primitive} (h : p.text = q.text) : p = q := by
  cases p <;> cases q <;> first | rfl | exact absurd h (by decide)

theorem sameForm_of_kind_eq {a b : Alt} (ha : a.IsLegible) (hb : b.IsLegible) (h : a.kind = b.kind) :
    SameForm a b := by
  cases a with
  | custom n host =>
      obtain ⟨rfl, -, hfree⟩ := ha
      cases b with
      | custom m host' =>
          obtain ⟨rfl, -, -⟩ := hb
          cases h
          exact .custom n
      | _ => exact absurd h.symm (kind_ne_of_isFreeName (by simp) hfree)
  | prim p =>
      cases b with
      | prim q =>
          cases text_primitive_injective h
          exact .prim p
      | custom m host' => exact absurd h (kind_ne_of_isFreeName (by simp) hb.2.2)
      | _ => cases p <;> exact absurd h (by simp [kind, Primitive.text])
  | function sig =>
      cases b with
      | function sig' =>
          cases ha
          cases hb
          exact .function
      | prim q => cases q <;> exact absurd h (by simp [kind, Primitive.text])
      | custom m host' => exact absurd h (kind_ne_of_isFreeName (by simp) hb.2.2)
      | _ => exact absurd h (by simp [kind])
  | _ =>
      cases b with
      | prim q => cases q <;> exact absurd h (by simp [kind, Primitive.text])
      | custom m host' => exact absurd h (kind_ne_of_isFreeName (by simp) hb.2.2)
      | _ => first | constructor | exact absurd h (by simp [kind])

theorem isName_kind {a : Alt} (h : a.IsLegible) : Text.isName a.kind = true := by
  cases a with
  | prim p => cases p <;> rfl
  | custom n host => exact h.2.1
  | _ =>
      rw [kind]
      rfl

theorem toList_kind {a : Alt} (h : a.IsLegible) :
    a.kind.toList ≠ [] ∧ a.kind.toList.all Text.isNameChar = true := by
  have hname := isName_kind h
  rw [Text.isName, Bool.and_eq_true, Bool.not_eq_true', List.isEmpty_eq_false_iff] at hname
  exact hname

end Alt

/-! ### Types and fields in brackets -/

namespace Ty

theorem Apart.separable {t u : Ty} (h : t.Apart u) : Text.Separable Text.afterTy t.text u.text := by
  intro r s hr hs heq
  obtain ⟨rfl, hrest⟩ := h.ends r s (Text.endsTy_of_follows hr) (Text.endsTy_of_follows hs) heq
  exact ⟨rfl, hrest⟩

theorem Apart.eq_of_text_eq {t u : Ty} (h : t.Apart u) (htext : t.text = u.text) : t = u :=
  have hend := Text.endsTy_of_follows (Text.follows_nil Text.afterTy)
  (h.ends [] [] hend hend (by rw [htext])).1

theorem texts_eq_map (ts : List Ty) : texts ts = ts.map text := by
  induction ts with
  | nil => rfl
  | cons t rest ih => rw [texts, ih, List.map_cons]

theorem texts_inj {ts us : List Ty} (hapart : ∀ t ∈ ts, ∀ u ∈ us, t.Apart u) (h : texts ts = texts us) :
    ts = us := by
  induction ts generalizing us with
  | nil =>
      cases us with
      | nil => rfl
      | cons u us => cases h
  | cons t ts ih =>
      cases us with
      | nil => cases h
      | cons u us =>
          simp only [texts, List.cons.injEq] at h
          rw [(hapart t List.mem_cons_self u List.mem_cons_self).eq_of_text_eq h.1,
            ih (fun t' ht u' hu => hapart t' (List.mem_cons_of_mem t ht) u' (List.mem_cons_of_mem u hu)) h.2]

def fieldText (f : Text × Ty) : Text := f.1 ++ " = " ++ f.2.text

theorem fieldTexts_eq_map (fields : List (Text × Ty)) : fieldTexts fields = fields.map fieldText := by
  induction fields with
  | nil => rfl
  | cons f rest ih =>
      obtain ⟨name, t⟩ := f
      rw [fieldTexts, ih, List.map_cons, fieldText]

theorem toList_fieldText (f : Text × Ty) :
    (fieldText f).toList = f.1.toList ++ (' ' :: '=' :: ' ' :: f.2.text.toList) := by
  simp [fieldText, String.toList_append]

theorem startsName_fieldText {f : Text × Ty} (h : Text.isName f.1 = true) : Text.StartsName (fieldText f) :=
  (Text.startsName_of_isName h).append (toList_fieldText f)

theorem fieldText_append_inj {f g : Text × Ty} (hf : Text.isName f.1 = true) (hg : Text.isName g.1 = true)
    (hapart : f.2.Apart g.2) {r s : List Char} (hr : Text.Follows Text.afterTy r)
    (hs : Text.Follows Text.afterTy s) (h : (fieldText f).toList ++ r = (fieldText g).toList ++ s) :
    f = g ∧ r = s := by
  simp only [toList_fieldText, List.append_assoc, List.cons_append] at h
  have hblank : ∀ q, Text.Follows (fun c => !Text.isNameChar c) (' ' :: q) := fun q => Text.follows_cons rfl
  obtain ⟨hname, hrest⟩ := Text.run_append_inj (Text.toList_of_isName hf).2 (Text.toList_of_isName hg).2
    (hblank _) (hblank _) h
  simp only [List.cons.injEq, true_and] at hrest
  obtain ⟨htype, hend⟩ := hapart.ends r s (Text.endsTy_of_follows hr) (Text.endsTy_of_follows hs) hrest
  exact ⟨Prod.ext (String.toList_injective hname) htype, hend⟩

theorem fieldText_separable {f g : Text × Ty} (hf : Text.isName f.1 = true) (hg : Text.isName g.1 = true)
    (hapart : f.2.Apart g.2) : Text.Separable Text.afterTy (fieldText f) (fieldText g) := by
  intro r s hr hs h
  obtain ⟨rfl, hrest⟩ := fieldText_append_inj hf hg hapart hr hs h
  exact ⟨rfl, hrest⟩

end Ty

namespace Alt

variable {x y : Text} {a : Alt}

/-- The two marks that stand for no type. -/
def IsMark (x : Text) : Prop := x = "..." ∨ x = "()"

theorem IsMark.toList (h : IsMark x) : ∃ c r, x.toList = c :: r ∧ Text.isNameChar c = false := by
  rcases h with rfl | rfl
  · exact ⟨'.', ['.', '.'], rfl, rfl⟩
  · exact ⟨'(', [')'], rfl, rfl⟩

theorem IsMark.separable {stop : Char → Bool} (hx : IsMark x) (hy : IsMark y) : Text.Separable stop x y := by
  rcases hx with rfl | rfl <;> rcases hy with rfl | rfl
  · exact Text.separable_refl _ _
  · exact Text.separable_of_head_ne (c := '.') (d := '(') rfl rfl (by decide)
  · exact Text.separable_of_head_ne (c := '(') (d := '.') rfl rfl (by decide)
  · exact Text.separable_refl _ _

theorem IsMark.ne_of_startsName (hx : IsMark x) (hy : Text.StartsName y) : y ≠ x := by
  rintro rfl
  obtain ⟨c, r, htext, hc⟩ := hx.toList
  obtain ⟨d, q, htext', hd⟩ := hy
  cases htext.symm.trans htext'
  rw [hc] at hd
  cases hd

theorem mem_items (h : x ∈ a.items) : IsMark x ∨ (a.kind ≠ "struct" ∧ ∃ t ∈ a.parts, x = t.text) ∨
      ∃ fields isOpen, a = .struct fields isOpen ∧ ∃ f ∈ fields, x = Ty.fieldText f := by
  cases a with
  | list elem | iterable elem =>
      exact Or.inr (Or.inl ⟨by simp [kind], elem, List.mem_singleton.mpr rfl, List.mem_singleton.mp h⟩)
  | tuple elems =>
      rw [items] at h
      split at h
      · exact Or.inl (Or.inr (List.mem_singleton.mp h))
      · rw [Ty.texts_eq_map] at h
        obtain ⟨t, ht, rfl⟩ := List.mem_map.mp h
        exact Or.inr (Or.inl ⟨by simp [kind], t, ht, rfl⟩)
  | tupleOf elem =>
      rcases List.mem_cons.mp h with rfl | h
      · exact Or.inr (Or.inl ⟨by simp [kind], elem, List.mem_singleton.mpr rfl, rfl⟩)
      · exact Or.inl (Or.inl (List.mem_singleton.mp h))
  | dict key value =>
      rcases List.mem_cons.mp h with rfl | h
      · exact Or.inr (Or.inl ⟨by simp [kind], key, List.mem_cons_self, rfl⟩)
      · exact Or.inr (Or.inl ⟨by simp [kind], value, mem_second,
          List.mem_singleton.mp h⟩)
  | struct fields isOpen =>
      rcases List.mem_append.mp h with h | h
      · rw [Ty.fieldTexts_eq_map] at h
        obtain ⟨f, hf, rfl⟩ := List.mem_map.mp h
        exact Or.inr (Or.inr ⟨fields, isOpen, rfl, f, hf, rfl⟩)
      · cases isOpen with
        | true => exact Or.inl (Or.inl (List.mem_singleton.mp h))
        | false => cases h
  | any | prim p | function sig | custom n host => cases h

theorem startsName_of_mem_items (ha : a.IsLegible) (hstarts : ∀ t ∈ a.parts, Text.StartsName t.text)
    (h : x ∈ a.items) : IsMark x ∨ Text.StartsName x := by
  rcases mem_items h with hmark | ⟨-, t, ht, rfl⟩ | ⟨fields, isOpen, rfl, f, hf, rfl⟩
  · exact Or.inl hmark
  · exact Or.inr (hstarts t ht)
  · exact Or.inr (Ty.startsName_fieldText (ha f hf))

theorem beginsOtherThan_of_mem_items (ha : a.IsLegible) (hstarts : ∀ t ∈ a.parts, Text.StartsName t.text)
    {close : Char} (hclose : close = ']' ∨ close = ')') {x : Text}
    (h : x ∈ a.items) : Text.BeginsOtherThan close x := by
  rcases startsName_of_mem_items ha hstarts h with (rfl | rfl) | hname
  · exact ⟨'.', ['.', '.'], rfl, by rcases hclose with rfl | rfl <;> decide⟩
  · exact ⟨'(', [')'], rfl, by rcases hclose with rfl | rfl <;> decide⟩
  · exact hname.beginsOtherThan (by rcases hclose with rfl | rfl <;> rfl)

/-- Two alternatives without signatures, whose parts are told apart by their texts. -/
structure PartsApart (a b : Alt) : Prop where
  left : a.IsLegible
  right : b.IsLegible
  starts_left : ∀ t ∈ a.parts, Text.StartsName t.text
  starts_right : ∀ u ∈ b.parts, Text.StartsName u.text
  apart : ∀ t ∈ a.parts, ∀ u ∈ b.parts, t.Apart u

/-- What stands in the brackets of two alternatives of one kind is told apart item by item. -/
theorem items_separable {b : Alt} (hab : a.PartsApart b) (hkind : a.kind = b.kind) (hx : x ∈ a.items)
    (hy : y ∈ b.items) : Text.Separable Text.afterTy x y := by
  have hmark : ∀ {x y : Text}, IsMark x ∨ Text.StartsName x → IsMark y → Text.Separable Text.afterTy x y := by
    intro x y hx hy
    rcases hx with hx | hx
    · exact hx.separable hy
    · obtain ⟨c, r, htext, hc⟩ := hy.toList
      exact hx.separable htext hc
  have hstarts := startsName_of_mem_items hab.left hab.starts_left hx
  rcases mem_items hx with hx' | ⟨hstruct, t, ht, rfl⟩ | ⟨fields, isOpen, rfl, f, hf, rfl⟩
  · exact (hmark (startsName_of_mem_items hab.right hab.starts_right hy) hx').symm
  · rcases mem_items hy with hy' | ⟨-, u, hu, rfl⟩ | ⟨fields, isOpen, rfl, -⟩
    · exact hmark hstarts hy'
    · exact (hab.apart t ht u hu).separable
    · exact absurd hkind hstruct
  · rcases mem_items hy with hy' | ⟨hstruct, -⟩ | ⟨fields', isOpen', rfl, g, hg, rfl⟩
    · exact hmark hstarts hy'
    · exact absurd hkind.symm hstruct
    · exact Ty.fieldText_separable (hab.left f hf) (hab.right g hg)
        (hab.apart f.2 (List.mem_map.mpr ⟨f, hf, rfl⟩) g.2 (List.mem_map.mpr ⟨g, hg, rfl⟩))

theorem items_eq_of_detail {b : Alt} (hab : a.PartsApart b) (hkind : a.kind = b.kind) {r s : List Char}
    (h : a.detail ++ r = b.detail ++ s) : a.items = b.items ∧ r = s := by
  have hsep : ∀ x ∈ a.items, ∀ y ∈ b.items, Text.Separable Text.afterTy x y :=
    fun x hx y hy => items_separable hab hkind hx hy
  have hbrackets : ∀ {close : Char}, close = ']' ∨ close = ')' → (Text.join ", " a.items).toList ++ close :: r =
      (Text.join ", " b.items).toList ++ close :: s → a.items = b.items ∧ r = s :=
    fun hclose h => Text.bracketed_append_inj hclose hsep
      (fun _ hx => beginsOtherThan_of_mem_items hab.left hab.starts_left hclose hx)
      (fun _ hy => beginsOtherThan_of_mem_items hab.right hab.starts_right hclose hy) h
  cases sameForm_of_kind_eq hab.left hab.right hkind with
  | any | prim | function | custom => exact ⟨rfl, h⟩
  | struct =>
      simp only [detail, List.cons_append, List.append_assoc, List.nil_append, List.cons.injEq, true_and] at h
      exact hbrackets (Or.inr rfl) h
  | _ =>
      simp only [detail, List.cons_append, List.append_assoc, List.nil_append, List.cons.injEq, true_and] at h
      exact hbrackets (Or.inl rfl) h

end Alt

namespace Ty

theorem fields_inj {fields fields' : List (Text × Ty)} {isOpen isOpen' : Bool}
    (hnames : ∀ f ∈ fields, Text.isName f.1 = true) (hnames' : ∀ f ∈ fields', Text.isName f.1 = true)
    (hapart : ∀ f ∈ fields, ∀ g ∈ fields', f.2.Apart g.2)
    (h : (Alt.struct fields isOpen).items = (Alt.struct fields' isOpen').items) :
    fields = fields' ∧ isOpen = isOpen' := by
  simp only [Alt.items, fieldTexts_eq_map] at h
  have hmark : ∀ {g : Text × Ty}, Text.isName g.1 = true → fieldText g ≠ "..." :=
    fun hg => Alt.IsMark.ne_of_startsName (Or.inl rfl) (startsName_fieldText hg)
  induction fields generalizing fields' with
  | nil =>
      cases fields' with
      | nil => cases isOpen <;> cases isOpen' <;> first | exact ⟨rfl, rfl⟩ | cases h
      | cons g rest =>
          cases isOpen with
          | true => exact absurd (List.cons.inj h).1.symm (hmark (hnames' g List.mem_cons_self))
          | false => cases h
  | cons f rest ih =>
      cases fields' with
      | nil =>
          cases isOpen' with
          | true => exact absurd (List.cons.inj h).1 (hmark (hnames f List.mem_cons_self))
          | false => cases h
      | cons g rest' =>
          have hfg : f = g := by
            have htext := (List.cons.inj h).1
            exact (fieldText_append_inj (hnames f List.mem_cons_self) (hnames' g List.mem_cons_self)
              (hapart f List.mem_cons_self g List.mem_cons_self) (r := []) (s := [])
              (Text.follows_nil _) (Text.follows_nil _) (by rw [htext])).1
          obtain ⟨hrest, hopen⟩ := @ih rest' (fun f' hf' => hnames f' (List.mem_cons_of_mem f hf'))
            (fun g' hg' => hnames' g' (List.mem_cons_of_mem g hg'))
            (fun f' hf' g' hg' => hapart f' (List.mem_cons_of_mem f hf') g' (List.mem_cons_of_mem g hg'))
            (List.cons.inj h).2
          exact ⟨by rw [hfg, hrest], hopen⟩

theorem texts_ne_empty_mark {ts : List Ty} (h : ∀ t ∈ ts, Text.StartsName t.text) : texts ts ≠ ["()"] := by
  intro heq
  cases ts with
  | nil => cases heq
  | cons t rest =>
      exact Alt.IsMark.ne_of_startsName (Or.inr rfl) (h t List.mem_cons_self) (List.cons.inj heq).1

theorem items_tuple_ne_tupleOf {ts : List Ty} {u : Ty} (h : ∀ t ∈ ts, Text.StartsName t.text) :
    (Alt.tuple ts).items ≠ (Alt.tupleOf u).items := by
  intro heq
  rw [Alt.items] at heq
  split at heq
  · exact absurd (congrArg List.length heq) (by simp [Alt.items])
  · match ts, h with
    | [], _ => exact absurd (congrArg List.length heq) (by simp [Alt.items, texts])
    | [_], _ => exact absurd (congrArg List.length heq) (by simp [Alt.items, texts])
    | t :: t' :: rest, h =>
        simp only [Alt.items, texts, List.cons.injEq] at heq
        exact Alt.IsMark.ne_of_startsName (Or.inl rfl) (h t' mem_second) heq.2.1

end Ty

namespace Alt

variable {a : Alt} {r s : List Char}

theorem eq_of_items_eq {b : Alt} (hab : a.PartsApart b) (hkind : a.kind = b.kind) (h : a.items = b.items) :
    a = b := by
  cases sameForm_of_kind_eq hab.left hab.right hkind with
  | any | prim | function | custom => rfl
  | list elem elem' | tupleOf elem elem' | iterable elem elem' =>
      have htext := (List.cons.inj h).1
      rw [(hab.apart elem List.mem_cons_self elem' List.mem_cons_self).eq_of_text_eq htext]
  | tuple elems elems' =>
      simp only [items] at h
      split at h
      · next hempty =>
        split at h
        · next hempty' => rw [List.isEmpty_iff.mp hempty, List.isEmpty_iff.mp hempty']
        · exact absurd h.symm (Ty.texts_ne_empty_mark hab.starts_right)
      · split at h
        · exact absurd h (Ty.texts_ne_empty_mark hab.starts_left)
        · have helems : elems = elems' := Ty.texts_inj hab.apart h
          rw [helems]
  | tupleLeft elems elem => exact absurd h (Ty.items_tuple_ne_tupleOf hab.starts_left)
  | tupleRight elem elems => exact absurd h.symm (Ty.items_tuple_ne_tupleOf hab.starts_right)
  | dict key value key' value' =>
      simp only [items, List.cons.injEq] at h
      have hvalue : ∀ {key value : Ty}, value ∈ (Alt.dict key value).parts :=
        mem_second
      rw [(hab.apart key List.mem_cons_self key' List.mem_cons_self).eq_of_text_eq h.1,
        (hab.apart value hvalue value' hvalue).eq_of_text_eq h.2.1]
  | struct fields fields' isOpen isOpen' =>
      obtain ⟨hfields, hopen⟩ := Ty.fields_inj hab.left hab.right
        (fun f hf g hg => hab.apart f.2 (List.mem_map.mpr ⟨f, hf, rfl⟩) g.2 (List.mem_map.mpr ⟨g, hg, rfl⟩)) h
      rw [hfields, hopen]

theorem follows_detail (a : Alt) (hr : Text.Follows Text.afterAlt r) :
    Text.Follows (fun c => !Text.isNameChar c) (a.detail ++ r) := by
  have hr' := hr.mono fun c => Text.not_isNameChar_of_afterAlt
  cases a with
  | any | prim | function | custom => exact hr'
  | _ => exact Text.follows_cons rfl

theorem kind_append_inj (ha : a.IsLegible) {x : Text} (hx : Text.isName x = true)
    (hr : Text.Follows Text.afterAlt r) (hs : Text.Follows (fun c => !Text.isNameChar c) s)
    (h : a.text.toList ++ r = x.toList ++ s) : a.kind = x ∧ a.detail ++ r = s := by
  rw [toList_text ha, List.append_assoc] at h
  obtain ⟨hname, hrest⟩ := Text.run_append_inj (toList_kind ha).2 (Text.toList_of_isName hx).2
    (follows_detail a hr) hs h
  exact ⟨String.toList_injective hname, hrest⟩

theorem PartsApart.text_append_inj {b : Alt} (hab : a.PartsApart b) (hr : Text.Follows Text.afterAlt r)
    (hs : Text.Follows Text.afterAlt s) (h : a.text.toList ++ r = b.text.toList ++ s) : a = b ∧ r = s := by
  rw [toList_text hab.right, List.append_assoc] at h
  obtain ⟨hkind, hrest⟩ := kind_append_inj hab.left (isName_kind hab.right) hr (follows_detail b hs) h
  obtain ⟨hitems, hend⟩ := items_eq_of_detail hab hkind hrest
  exact ⟨eq_of_items_eq hab hkind hitems, hend⟩

/-! ### Signatures -/

theorem toList_signature (sig : Signature) : (Alt.function (some sig)).text.toList = "def".toList ++
    ('(' :: (Text.join ", " (Param.parts false false sig.params)).toList ++
      (')' :: " -> ".toList ++ sig.result.text.toList)) := by
  obtain ⟨params, result⟩ := sig
  simp [text, Signature.text, String.toList_append]

/-- An alternative without a signature does not read like one with a signature: the only one that begins with
the same word is a name that ends there. -/
theorem text_append_ne_signature (ha : a.IsLegible) (sig : Signature) (hr : Text.Follows Text.afterAlt r) :
    a.text.toList ++ r ≠ (Alt.function (some sig)).text.toList ++ s := by
  intro h
  rw [toList_signature, List.append_assoc] at h
  obtain ⟨hkind, hrest⟩ := kind_append_inj ha (x := "def") rfl hr (Text.follows_cons rfl) h
  have hdetail : a.detail = [] := by
    cases a with
    | any | prim | function | custom => rfl
    | _ => exact absurd hkind (by simp [kind])
  rw [hdetail, List.nil_append] at hrest
  exact absurd (hr '(' (by rw [hrest]; rfl)) (by decide)

theorem signature_append_inj {sig sig' : Signature} (ha : (Alt.function (some sig)).IsReadable)
    (hb : (Alt.function (some sig')).IsReadable)
    (hapart : ∀ t ∈ (Alt.function (some sig)).parts, ∀ u ∈ (Alt.function (some sig')).parts, t.Apart u)
    (hr : Text.Follows Text.afterAlt r) (hs : Text.Follows Text.afterAlt s)
    (h : (Alt.function (some sig)).text.toList ++ r = (Alt.function (some sig')).text.toList ++ s) :
    sig = sig' ∧ r = s := by
  obtain ⟨params, result⟩ := sig
  obtain ⟨params', result'⟩ := sig'
  simp only [toList_signature, List.append_assoc, List.cons_append] at h
  have hparams := (List.cons.inj (List.append_cancel_left h)).2
  have htypes : ∀ p ∈ params, ∀ q ∈ params', p.type.Apart q.type := fun p hp q hq =>
    hapart p.type (List.mem_cons_of_mem _ (List.mem_map.mpr ⟨p, hp, rfl⟩)) q.type
      (List.mem_cons_of_mem _ (List.mem_map.mpr ⟨q, hq, rfl⟩))
  obtain ⟨rfl, hresult⟩ := Param.parts_append_inj ha.wellNamed.1 hb.wellNamed.1 htypes ha.wellNamed.2
    hb.wellNamed.2 hparams
  obtain ⟨rfl, hend⟩ := (hapart result List.mem_cons_self result' List.mem_cons_self).brief ha.brief hb.brief
    r s hr hs (List.append_cancel_left hresult)
  exact ⟨rfl, hend⟩

end Alt

/-! ### Reading a text back -/

namespace Alt

theorem IsReadable.startsName_text {a : Alt} (h : a.IsReadable) : Text.StartsName a.text := by
  rcases h.wellNamed.cases with hlegible | ⟨sig, rfl, -⟩
  · exact (Text.startsName_of_isName (isName_kind hlegible)).append (toList_text hlegible)
  · exact ⟨'d', _, toList_signature sig, rfl⟩

theorem IsReadable.never_append_ne {a : Alt} (h : a.IsReadable) {r s : List Char}
    (hr : Text.Follows Text.afterAlt r) (hs : Text.Follows Text.afterAlt s) :
    "Never".toList ++ r ≠ a.text.toList ++ s := by
  intro heq
  rcases h.wellNamed.cases with hlegible | ⟨sig, rfl, -⟩
  · have hkind := (kind_append_inj hlegible (x := "Never") rfl hs
      (hr.mono fun c => Text.not_isNameChar_of_afterAlt) heq.symm).1
    cases a with
    | prim p => cases p <;> exact absurd hkind (by simp [kind, Primitive.text])
    | custom n host =>
        cases hkind
        exact nomatch hlegible.2.2
    | _ => exact absurd hkind (by simp [kind])
  · rw [toList_signature] at heq
    exact absurd (List.cons.inj heq).1 (by decide)

/-- The text of an alternative, with something after it, determines the alternative. -/
theorem text_append_inj {a b : Alt} (ha : a.IsReadable) (hb : b.IsReadable)
    (hta : ∀ t ∈ a.parts, Text.StartsName t.text) (htb : ∀ u ∈ b.parts, Text.StartsName u.text)
    (hapart : ∀ t ∈ a.parts, ∀ u ∈ b.parts, t.Apart u) {r s : List Char} (hr : Text.Follows Text.afterAlt r)
    (hs : Text.Follows Text.afterAlt s) (h : a.text.toList ++ r = b.text.toList ++ s) : a = b ∧ r = s := by
  rcases ha.wellNamed.cases with hla | ⟨sig, rfl, -⟩ <;> rcases hb.wellNamed.cases with hlb | ⟨sig', rfl, -⟩
  · exact PartsApart.text_append_inj ⟨hla, hlb, hta, htb, hapart⟩ hr hs h
  · exact absurd h (text_append_ne_signature hla sig' hr)
  · exact absurd h.symm (text_append_ne_signature hlb sig hs)
  · obtain ⟨rfl, hend⟩ := signature_append_inj ha hb hapart hr hs h
    exact ⟨rfl, hend⟩

end Alt

namespace Ty

variable {t u : Ty} {s : List Char}

theorem text_eq_join (h : t.alts ≠ []) : t.text = Text.join " | " (t.alts.map Alt.text) := by
  have htexts : ∀ alts : List Alt, Alt.texts alts = alts.map Alt.text := by
    intro alts
    induction alts with
    | nil => rfl
    | cons a rest ih => rw [Alt.texts, ih, List.map_cons]
  obtain ⟨alts⟩ := t
  rw [Ty.text, if_neg (by simpa using h), htexts]

theorem exists_text_append {a : Alt} {rest : List Alt} (h : t.alts = a :: rest) (hs : Text.Follows Text.afterAlt s) :
    ∃ q, Text.Follows Text.afterAlt q ∧ t.text.toList ++ s = a.text.toList ++ q := by
  rw [text_eq_join (by rw [h]; exact List.cons_ne_nil _ _), h, List.map_cons]
  cases rest with
  | nil => exact ⟨s, hs, rfl⟩
  | cons b rest =>
      refine ⟨" | ".toList ++ ((Text.join " | " ((b :: rest).map Alt.text)).toList ++ s), ?_, ?_⟩
      · exact Text.follows_cons rfl
      · rw [List.map_cons, Text.toList_join_cons_cons]
        simp only [List.append_assoc]

theorem startsName_text (h : ∀ a ∈ t.alts, a.IsReadable) : Text.StartsName t.text := by
  cases halts : t.alts with
  | nil =>
      obtain ⟨alts⟩ := t
      cases halts
      exact ⟨'N', _, rfl, rfl⟩
  | cons a rest =>
      obtain ⟨q, -, htext⟩ := exists_text_append halts (Text.follows_nil _)
      rw [List.append_nil] at htext
      exact (h a (by rw [halts]; exact List.mem_cons_self)).startsName_text.append htext

theorem text_ne_never (h : ∀ a ∈ t.alts, a.IsReadable) (hne : t.alts ≠ []) {r : List Char}
    (hr : Text.Follows Text.afterAlt r) (hs : Text.Follows Text.afterAlt s) :
    "Never".toList ++ r ≠ t.text.toList ++ s := by
  obtain ⟨a, rest, halts⟩ := List.exists_cons_of_ne_nil hne
  obtain ⟨q, hq, htext⟩ := exists_text_append halts hs
  rw [htext]
  exact (h a (by rw [halts]; exact List.mem_cons_self)).never_append_ne hr hq

theorem both_never_or_neither (ht : ∀ a ∈ t.alts, a.IsReadable) (hu : ∀ b ∈ u.alts, b.IsReadable) {r : List Char}
    (hr : Text.Follows Text.afterAlt r) (hs : Text.Follows Text.afterAlt s)
    (h : t.text.toList ++ r = u.text.toList ++ s) : (t = u ∧ r = s) ∨ (t.alts ≠ [] ∧ u.alts ≠ []) := by
  obtain ⟨as⟩ := t
  obtain ⟨bs⟩ := u
  by_cases has : as = [] <;> by_cases hbs : bs = []
  · subst has hbs
    exact Or.inl ⟨rfl, List.append_cancel_left h⟩
  · subst has
    exact absurd h (text_ne_never hu hbs hr hs)
  · subst hbs
    exact absurd h.symm (text_ne_never ht has hs hr)
  · exact Or.inr ⟨has, hbs⟩

theorem map_text_inj {as bs : List Alt} (h : ∀ a ∈ as, ∀ b ∈ bs, a.text = b.text → a = b)
    (heq : as.map Alt.text = bs.map Alt.text) : as = bs := by
  induction as generalizing bs with
  | nil =>
      cases bs with
      | nil => rfl
      | cons b bs => cases heq
  | cons a as ih =>
      cases bs with
      | nil => cases heq
      | cons b bs =>
          obtain ⟨hfirst, hrest⟩ := List.cons.inj heq
          rw [h a List.mem_cons_self b List.mem_cons_self hfirst,
            ih (fun x hx y hy => h x (List.mem_cons_of_mem a hx) y (List.mem_cons_of_mem b hy)) hrest]

theorem apart_of_alts (ht : ∀ a ∈ t.alts, a.IsReadable) (hu : ∀ b ∈ u.alts, b.IsReadable)
    (hsep : ∀ a ∈ t.alts, ∀ b ∈ u.alts, ∀ r s, Text.Follows Text.afterAlt r → Text.Follows Text.afterAlt s →
      a.text.toList ++ r = b.text.toList ++ s → a = b ∧ r = s) : t.Apart u := by
  obtain ⟨as⟩ := t
  obtain ⟨bs⟩ := u
  constructor
  · intro r s hr hs heq
    rcases both_never_or_neither ht hu hr.follows hs.follows heq with hnever | ⟨has, hbs⟩
    · exact hnever
    rw [text_eq_join has, text_eq_join hbs] at heq
    have hitems : ∀ x ∈ as.map Alt.text, ∀ y ∈ bs.map Alt.text, Text.Separable Text.afterAlt x y := by
      rintro x hx y hy r s hr hs h
      obtain ⟨a, ha, rfl⟩ := List.mem_map.mp hx
      obtain ⟨b, hb, rfl⟩ := List.mem_map.mp hy
      obtain ⟨rfl, hrest⟩ := hsep a ha b hb r s hr hs h
      exact ⟨rfl, hrest⟩
    have hseparator : " | ".toList = ' ' :: ['|', ' '] := rfl
    obtain ⟨htexts, hrest⟩ := Text.join_append_inj hseparator rfl hitems (by simpa using has) (by simpa using hbs)
      hr.follows hs.follows hr.no_bar hs.no_bar heq
    have halts := map_text_inj (fun a ha b hb htext => (hsep a ha b hb [] [] (Text.follows_nil _)
      (Text.follows_nil _) (by rw [htext])).1) htexts
    exact ⟨congrArg Ty.mk halts, hrest⟩
  · intro hlen hlen' r s hr hs heq
    rcases both_never_or_neither ht hu hr hs heq with hnever | ⟨has, hbs⟩
    · exact hnever
    obtain ⟨a, rfl⟩ := List.length_eq_one_iff.mp (Nat.le_antisymm hlen (List.length_pos_iff.mpr has))
    obtain ⟨b, rfl⟩ := List.length_eq_one_iff.mp (Nat.le_antisymm hlen' (List.length_pos_iff.mpr hbs))
    obtain ⟨rfl, hrest⟩ := hsep a List.mem_cons_self b List.mem_cons_self r s hr hs heq
    exact ⟨rfl, hrest⟩

theorem Readable.apart (ht : t.Readable) (hu : u.Readable) : t.Apart u := by
  -- The induction is on the nesting of types; alternatives are read from the parts, and types from those.
  induction ht generalizing u with
  | @intro t here inside ih =>
      refine apart_of_alts here hu.here fun a ha b hb r s hr hs h => ?_
      exact Alt.text_append_inj (here a ha) (hu.here b hb) (fun t' ht' => startsName_text (inside a ha t' ht').here)
        (fun u' hu' => startsName_text (hu.alt hb u' hu').here)
        (fun t' ht' u' hu' => ih a ha t' ht' (hu.alt hb u' hu')) hr hs h

theorem Readable.eq_of_text_eq (ht : t.Readable) (hu : u.Readable) (h : t.text = u.text) : t = u :=
  (ht.apart hu).eq_of_text_eq h

theorem text_only (a : Alt) : (only a).text = a.text := text_eq_join (List.cons_ne_nil a [])

end Ty

theorem Alt.eq_of_text_eq {a b : Alt} (ha : (Ty.only a).Readable) (hb : (Ty.only b).Readable)
    (h : a.text = b.text) : a = b := by
  have heq := ha.eq_of_text_eq hb (by rw [Ty.text_only, Ty.text_only, h])
  exact List.singleton_inj.mp (congrArg Ty.alts heq)

theorem Alt.text_injective {a b : Alt} (ha : a.Legible) (hb : b.Legible) (h : a.text = b.text) : a = b :=
  eq_of_text_eq (legible_only_iff.mpr ha).readable (legible_only_iff.mpr hb).readable h

end Gradual
