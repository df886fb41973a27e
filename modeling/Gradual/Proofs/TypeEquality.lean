import Gradual.Proofs.SubtypeOrder

/-! When types count as equal. They are compared by the texts of their alternatives, and a text does not show
where the result of a signature ends: a bar inside brackets may belong to the result or to the union around
the signature. Apart from that, texts tell types apart. Two types are equal, as told by their texts, exactly
if they are the same after every bar is taken for one of the union around; where no result is a union,
equal types are the same type. -/

namespace Gradual

/-! ### Bars taken for those of the union around -/

namespace Alt

/-- The alternative with other types in place of its parts. -/
def mapParts (f : Ty → Ty) : Alt → Alt
  | .list elem => .list (f elem)
  | .tuple elems => .tuple (elems.map f)
  | .tupleOf elem => .tupleOf (f elem)
  | .dict key value => .dict (f key) (f value)
  | .iterable elem => .iterable (f elem)
  | .function (some sig) => .function (some ⟨sig.params.map fun p => { p with type := f p.type }, f sig.result⟩)
  | .struct fields isOpen => .struct (fields.map fun e => (e.1, f e.2)) isOpen
  | a => a

/-- A result that is a union keeps its first alternative; the others come to stand beside the signature. -/
def shed : Alt → List Alt
  | .function (some ⟨params, ⟨a :: rest⟩⟩) => .function (some ⟨params, .only a⟩) :: rest
  | a => [a]

end Alt

mutual

/-- The type that a text is read as, if every bar is taken for one of the union around. -/
def Ty.spread : Ty → Ty
  | ⟨alts⟩ => ⟨Alt.spreads alts⟩

def Alt.spreads : List Alt → List Alt
  | [] => []
  | a :: rest => a.spread ++ Alt.spreads rest

/-- The alternatives that the text of an alternative is read as. -/
def Alt.spread : Alt → List Alt
  | .any => [.any]
  | .prim p => [.prim p]
  | .list elem => [.list elem.spread]
  | .tuple elems => [.tuple (Ty.spreadEach elems)]
  | .tupleOf elem => [.tupleOf elem.spread]
  | .dict key value => [.dict key.spread value.spread]
  | .iterable elem => [.iterable elem.spread]
  | .function none => [.function none]
  | .function (some ⟨params, result⟩) => Alt.shed (.function (some ⟨Param.spreadEach params, result.spread⟩))
  | .struct fields isOpen => [.struct (Ty.spreadFields fields) isOpen]
  | .custom name host => [.custom name host]

def Ty.spreadEach : List Ty → List Ty
  | [] => []
  | t :: rest => t.spread :: Ty.spreadEach rest

def Ty.spreadFields : List (Text × Ty) → List (Text × Ty)
  | [] => []
  | (name, t) :: rest => (name, t.spread) :: Ty.spreadFields rest

def Param.spreadEach : List Param → List Param
  | [] => []
  | ⟨mode, name, type, optional⟩ :: rest => ⟨mode, name, type.spread, optional⟩ :: Param.spreadEach rest

end

theorem Ty.alts_spread (t : Ty) : t.spread.alts = t.alts.flatMap Alt.spread := by
  obtain ⟨alts⟩ := t
  rw [Ty.spread]
  induction alts with
  | nil => rfl
  | cons a rest ih => rw [Alt.spreads, List.flatMap_cons, ← ih]

theorem Ty.spreadEach_eq_map (ts : List Ty) : Ty.spreadEach ts = ts.map Ty.spread := by
  induction ts with
  | nil => rfl
  | cons t rest ih => rw [Ty.spreadEach, ih, List.map_cons]

theorem Ty.spreadFields_eq_map (fields : List (Text × Ty)) :
    Ty.spreadFields fields = fields.map fun e => (e.1, e.2.spread) := by
  induction fields with
  | nil => rfl
  | cons e rest ih =>
      obtain ⟨name, t⟩ := e
      rw [Ty.spreadFields, ih, List.map_cons]

theorem Param.spreadEach_eq_map (params : List Param) :
    Param.spreadEach params = params.map fun p => { p with type := p.type.spread } := by
  induction params with
  | nil => rfl
  | cons p rest ih =>
      obtain ⟨mode, name, type, optional⟩ := p
      rw [Param.spreadEach, ih, List.map_cons]

theorem Alt.spread_eq_shed (a : Alt) : a.spread = (a.mapParts Ty.spread).shed := by
  cases a with
  | tuple elems => rw [Alt.spread, Ty.spreadEach_eq_map]; rfl
  | struct fields isOpen => rw [Alt.spread, Ty.spreadFields_eq_map]; rfl
  | function sig =>
      cases sig with
      | none => rw [Alt.spread]; rfl
      | some sig =>
          obtain ⟨params, result⟩ := sig
          rw [Alt.spread, Param.spreadEach_eq_map]
          rfl
  | _ => rw [Alt.spread]; rfl

/-! ### The text stays -/

section Texts

variable {f : Ty → Ty}

theorem Ty.texts_map {ts : List Ty} (h : ∀ t ∈ ts, (f t).text = t.text) : Ty.texts (ts.map f) = Ty.texts ts := by
  rw [Ty.texts_eq_map, Ty.texts_eq_map, List.map_map]
  exact List.map_congr_left h

theorem Ty.fieldTexts_map {fields : List (Text × Ty)} (h : ∀ e ∈ fields, (f e.2).text = e.2.text) :
    Ty.fieldTexts (fields.map fun e => (e.1, f e.2)) = Ty.fieldTexts fields := by
  rw [Ty.fieldTexts_eq_map, Ty.fieldTexts_eq_map, List.map_map]
  refine List.map_congr_left fun e he => ?_
  simp only [Function.comp, Ty.fieldText, h e he]

theorem Param.parts_map {params : List Param} (h : ∀ p ∈ params, (f p.type).text = p.type.text) (a b : Bool) :
    Param.parts a b (params.map fun p => { p with type := f p.type }) = Param.parts a b params := by
  induction params generalizing a b with
  | nil => rfl
  | cons p rest ih =>
      have htext : Param.text { p with type := f p.type } = p.text := by
        obtain ⟨mode, name, type, optional⟩ := p
        simp only [Param.text, h _ List.mem_cons_self]
      rw [List.map_cons, Param.parts, Param.parts, htext, ih (fun q hq => h q (List.mem_cons_of_mem p hq))]

theorem Alt.text_mapParts {a : Alt} (h : ∀ t ∈ a.parts, (f t).text = t.text) : (a.mapParts f).text = a.text := by
  cases a with
  | list elem | tupleOf elem | iterable elem => simp only [mapParts, text, h elem List.mem_cons_self]
  | tuple elems =>
      have helems : Ty.texts (elems.map f) = Ty.texts elems := Ty.texts_map h
      simp only [mapParts, text, helems, List.isEmpty_map]
  | dict key value =>
      simp only [mapParts, text, h key List.mem_cons_self,
        h value mem_second]
  | struct fields isOpen =>
      have hfields := Ty.fieldTexts_map (f := f) fun e (he : e ∈ fields) => h e.2 (List.mem_map.mpr ⟨e, he, rfl⟩)
      simp only [mapParts, text, hfields]
  | function sig =>
      cases sig with
      | none => rfl
      | some sig =>
          obtain ⟨params, result⟩ := sig
          have hparams := Param.parts_map (f := f) fun p (hp : p ∈ params) =>
            h p.type (List.mem_cons_of_mem _ (List.mem_map.mpr ⟨p, hp, rfl⟩))
          simp only [mapParts, text, Signature.text, hparams, h result List.mem_cons_self]
  | any | prim p | custom name host => rfl

end Texts

namespace Text

theorem join_append_cons (separator x y : Text) (rest : List Text) :
    join separator ((x ++ y) :: rest) = x ++ join separator (y :: rest) := by
  cases rest with
  | nil => rfl
  | cons z rest => simp only [join, String.append_assoc]

theorem join_cons_of_ne_nil (separator x : Text) {rest : List Text} (h : rest ≠ []) :
    join separator (x :: rest) = x ++ separator ++ join separator rest := by
  obtain ⟨y, rest, rfl⟩ := List.exists_cons_of_ne_nil h
  rfl

theorem join_append (separator : Text) {xs ys : List Text} (hxs : xs ≠ []) (hys : ys ≠ []) :
    join separator (xs ++ ys) = join separator xs ++ separator ++ join separator ys := by
  induction xs with
  | nil => exact absurd rfl hxs
  | cons x xs ih =>
      cases xs with
      | nil => exact join_cons_of_ne_nil separator x hys
      | cons y xs =>
          rw [List.cons_append, join_cons_of_ne_nil _ _ (by simp), ih (List.cons_ne_nil y xs),
            join_cons_of_ne_nil separator x (List.cons_ne_nil y xs)]
          simp only [String.append_assoc]

theorem join_flatMap {α : Type} (separator : Text) {f : α → List Text} {g : α → Text} {as : List α}
    (hne : ∀ a ∈ as, f a ≠ []) (h : ∀ a ∈ as, join separator (f a) = g a) :
    join separator (as.flatMap f) = join separator (as.map g) := by
  induction as with
  | nil => rfl
  | cons a as ih =>
      have ih := ih (fun b hb => hne b (List.mem_cons_of_mem a hb)) fun b hb => h b (List.mem_cons_of_mem a hb)
      cases as with
      | nil =>
          rw [List.flatMap_cons, List.flatMap_nil, List.append_nil]
          exact h a List.mem_cons_self
      | cons b as =>
          have hrest : (b :: as).flatMap f ≠ [] := by
            rw [List.flatMap_cons]
            exact List.append_ne_nil_of_left_ne_nil (hne b mem_second) _
          rw [List.flatMap_cons, join_append separator (hne a List.mem_cons_self) hrest, ih, h a List.mem_cons_self]
          rfl

end Text

namespace Alt

theorem shed_ne_nil (a : Alt) : a.shed ≠ [] := by
  unfold shed
  split <;> exact List.cons_ne_nil _ _

theorem join_shed (a : Alt) : Text.join " | " (a.shed.map text) = a.text := by
  unfold shed
  split
  · next params b rest =>
    have hresult : (Ty.mk (b :: rest)).text = Text.join " | " (b.text :: rest.map text) :=
      Ty.text_eq_join (List.cons_ne_nil b rest)
    simp only [List.map_cons, text, Signature.text, Ty.text_only, hresult, Text.join_append_cons]
  · rfl

end Alt

theorem Ty.text_spread_of_parts {t : Ty} (h : ∀ a ∈ t.alts, ∀ u ∈ a.parts, u.spread.text = u.text) :
    t.spread.text = t.text := by
  have hne : ∀ a : Alt, a.spread.map Alt.text ≠ [] := by
    intro a
    rw [Alt.spread_eq_shed, ne_eq, List.map_eq_nil_iff]
    exact Alt.shed_ne_nil _
  have hjoin : ∀ a ∈ t.alts, Text.join " | " (a.spread.map Alt.text) = a.text := by
    intro a ha
    rw [Alt.spread_eq_shed, Alt.join_shed]
    exact Alt.text_mapParts (h a ha)
  by_cases halts : t.alts = []
  · obtain ⟨alts⟩ := t
    cases halts
    rfl
  · have hspread : t.spread.alts ≠ [] := by
      obtain ⟨a, rest, halts⟩ := List.exists_cons_of_ne_nil halts
      rw [Ty.alts_spread, halts, List.flatMap_cons]
      exact List.append_ne_nil_of_left_ne_nil (fun hnil => hne a (by rw [hnil]; rfl)) _
    rw [Ty.text_eq_join hspread, Ty.text_eq_join halts, Ty.alts_spread, List.map_flatMap]
    exact Text.join_flatMap " | " (fun a _ => hne a) hjoin

/-! ### What is read back -/

namespace Alt

theorem parts_mapParts (f : Ty → Ty) (a : Alt) : (a.mapParts f).parts = a.parts.map f := by
  cases a with
  | function sig =>
      cases sig with
      | none => rfl
      | some sig => simp [mapParts, parts, Function.comp_def]
  | struct fields isOpen => simp [mapParts, parts, Function.comp_def]
  | _ => rfl

theorem IsWellNamed.mapParts {a : Alt} (h : a.IsWellNamed) (f : Ty → Ty) : (a.mapParts f).IsWellNamed := by
  cases a with
  | function sig =>
      cases sig with
      | none => exact h
      | some sig => exact ⟨List.forall_mem_map.mpr h.1, List.pairwise_map.mpr h.2⟩
  | struct fields isOpen => exact List.forall_mem_map.mpr h
  | _ => exact h

theorem shed_of_isBrief {a : Alt} (h : a.IsBrief) : a.shed = [a] := by
  cases a with
  | function sig =>
      cases sig with
      | none => rfl
      | some sig =>
          obtain ⟨params, ⟨alts⟩⟩ := sig
          cases alts with
          | nil => rfl
          | cons b rest =>
              cases List.length_eq_zero_iff.mp (Nat.le_zero.mp (Nat.le_of_succ_le_succ h))
              rfl
  | _ => rfl

theorem exists_of_not_isBrief {a : Alt} (h : ¬a.IsBrief) :
    ∃ params b rest, a = .function (some ⟨params, ⟨b :: rest⟩⟩) := by
  cases a with
  | function sig =>
      cases sig with
      | none => exact absurd trivial h
      | some sig =>
          obtain ⟨params, ⟨alts⟩⟩ := sig
          cases alts with
          | nil => exact absurd (Nat.zero_le 1) h
          | cons b rest => exact ⟨params, b, rest, rfl⟩
  | _ => exact absurd trivial h

theorem readable_shed {a : Alt} (h : a.IsWellNamed) (hparts : ∀ t ∈ a.parts, t.Readable) :
    ∀ b ∈ a.shed, b.IsReadable ∧ ∀ t ∈ b.parts, t.Readable := by
  by_cases hbrief : a.IsBrief
  · rw [shed_of_isBrief hbrief]
    exact List.forall_mem_singleton.mpr ⟨⟨h, hbrief⟩, hparts⟩
  · obtain ⟨params, c, rest, rfl⟩ := exists_of_not_isBrief hbrief
    have hresult := hparts ⟨c :: rest⟩ List.mem_cons_self
    have honly : (Ty.only c).Readable := Ty.everywhere_only_iff.mpr
      ⟨List.forall_mem_singleton.mpr (hresult.here c List.mem_cons_self), hresult.alt List.mem_cons_self⟩
    refine List.forall_mem_cons.mpr ⟨⟨⟨h, Nat.le_refl 1⟩, ?_⟩, fun b hb => ?_⟩
    · exact List.forall_mem_cons.mpr ⟨honly, fun t ht => hparts t (List.mem_cons_of_mem _ ht)⟩
    · have hb := List.mem_cons_of_mem c hb
      exact ⟨hresult.here b hb, hresult.alt hb⟩

theorem mapParts_eq_self {f : Ty → Ty} {a : Alt} (h : ∀ t ∈ a.parts, f t = t) : a.mapParts f = a := by
  cases a with
  | list elem | tupleOf elem | iterable elem => simp only [mapParts, h elem List.mem_cons_self]
  | tuple elems =>
      have helems : elems.map f = elems := (List.map_congr_left h).trans (List.map_id' elems)
      simp only [mapParts, helems]
  | dict key value =>
      simp only [mapParts, h key List.mem_cons_self, h value mem_second]
  | struct fields isOpen =>
      have hfields : fields.map (fun e => (e.1, f e.2)) = fields := by
        refine (List.map_congr_left fun e he => ?_).trans (List.map_id' fields)
        exact Prod.ext rfl (h e.2 (List.mem_map.mpr ⟨e, he, rfl⟩))
      simp only [mapParts, hfields]
  | function sig =>
      cases sig with
      | none => rfl
      | some sig =>
          obtain ⟨params, result⟩ := sig
          have hparams : params.map (fun p => { p with type := f p.type }) = params := by
            refine (List.map_congr_left fun p hp => ?_).trans (List.map_id' params)
            have htype := h p.type (List.mem_cons_of_mem _ (List.mem_map.mpr ⟨p, hp, rfl⟩))
            obtain ⟨mode, name, type, optional⟩ := p
            rw [htype]
          simp only [mapParts, hparams, h result List.mem_cons_self]
  | any | prim p | custom name host => rfl

end Alt

namespace Ty

/-- A well-named type has the text of a type that can be read back. -/
theorem WellNamed.spread {t : Ty} (h : t.WellNamed) : t.spread.text = t.text ∧ t.spread.Readable := by
  induction h with
  | @intro t here inside ih =>
      refine ⟨text_spread_of_parts fun a ha u hu => (ih a ha u hu).1, ?_⟩
      have hmembers : ∀ b ∈ t.spread.alts, b.IsReadable ∧ ∀ u ∈ b.parts, u.Readable := by
        intro b hb
        rw [alts_spread] at hb
        obtain ⟨a, ha, hb⟩ := List.mem_flatMap.mp hb
        rw [Alt.spread_eq_shed] at hb
        refine Alt.readable_shed ((here a ha).mapParts _) ?_ b hb
        rw [Alt.parts_mapParts]
        exact List.forall_mem_map.mpr fun u hu => (ih a ha u hu).2
      exact .intro (fun b hb => (hmembers b hb).1) fun b hb => (hmembers b hb).2

theorem eq_of_alts_eq {t u : Ty} (h : t.alts = u.alts) : t = u := by
  obtain ⟨as⟩ := t
  obtain ⟨bs⟩ := u
  exact congrArg Ty.mk h

/-- Where no result is a union, every bar is one of the union around already. -/
theorem Brief.spread_eq {t : Ty} (h : t.Brief) : t.spread = t ∧ ∀ a ∈ t.alts, a.spread = [a] := by
  induction h with
  | @intro t here inside ih =>
      have halts : ∀ a ∈ t.alts, a.spread = [a] := by
        intro a ha
        rw [Alt.spread_eq_shed, Alt.mapParts_eq_self fun u hu => (ih a ha u hu).1]
        exact Alt.shed_of_isBrief (here a ha)
      refine ⟨eq_of_alts_eq ?_, halts⟩
      rw [alts_spread, List.flatMap_congr halts]
      exact List.flatMap_singleton' t.alts

/-- The texts of well-named types are equal exactly if the types are read as the same. -/
theorem text_eq_iff_spread_eq {t u : Ty} (ht : t.WellNamed) (hu : u.WellNamed) :
    t.text = u.text ↔ t.spread = u.spread := by
  constructor
  · intro h
    refine ht.spread.2.eq_of_text_eq hu.spread.2 ?_
    rw [ht.spread.1, hu.spread.1, h]
  · intro h
    rw [← ht.spread.1, h, hu.spread.1]

end Ty

/-! ### Equality -/

theorem Alt.text_eq_iff_spread_eq {a b : Alt} (ha : (Ty.only a).WellNamed) (hb : (Ty.only b).WellNamed) :
    a.text = b.text ↔ a.spread = b.spread := by
  have honly : ∀ c : Alt, (Ty.only c).spread = ⟨c.spread⟩ := by
    intro c
    refine Ty.eq_of_alts_eq ?_
    rw [Ty.alts_spread]
    exact List.flatMap_singleton Alt.spread c
  rw [← Ty.text_only a, ← Ty.text_only b, Ty.text_eq_iff_spread_eq ha hb, honly, honly, Ty.mk.injEq]

theorem map_eq_map_iff_of_forall {α β γ : Type} {f : α → β} {g : α → γ} {xs ys : List α}
    (h : ∀ x ∈ xs, ∀ y ∈ ys, f x = f y ↔ g x = g y) : xs.map f = ys.map f ↔ xs.map g = ys.map g := by
  induction xs generalizing ys with
  | nil => cases ys <;> simp
  | cons x xs ih =>
      cases ys with
      | nil => simp
      | cons y ys =>
          rw [List.map_cons, List.map_cons, List.map_cons, List.map_cons, List.cons.injEq, List.cons.injEq,
            h x List.mem_cons_self y List.mem_cons_self,
            ih fun x' hx y' hy => h x' (List.mem_cons_of_mem x hx) y' (List.mem_cons_of_mem y hy)]

namespace Ty

theorem Everywhere.only {P : Alt → Prop} {t : Ty} (h : t.Everywhere fun u => ∀ a ∈ u.alts, P a) {a : Alt}
    (ha : a ∈ t.alts) : (Ty.only a).Everywhere fun u => ∀ a ∈ u.alts, P a :=
  everywhere_only_iff.mpr ⟨List.forall_mem_singleton.mpr (h.here a ha), h.alt ha⟩

theorem equal_iff_spread_eq {t u : Ty} (ht : t.WellNamed) (hu : u.WellNamed) :
    t.equal u = true ↔ t.alts.map Alt.spread = u.alts.map Alt.spread := by
  rw [equal, beq_iff_eq]
  exact map_eq_map_iff_of_forall fun a ha b hb =>
    Alt.text_eq_iff_spread_eq (Everywhere.only ht ha) (Everywhere.only hu hb)

theorem eq_of_equal {t u : Ty} (ht : t.WellNamed) (hu : u.WellNamed) (htb : t.Brief) (hub : u.Brief)
    (h : t.equal u = true) : t = u := by
  have hspread := (equal_iff_spread_eq ht hu).mp h
  rw [List.map_congr_left htb.spread_eq.2, List.map_congr_left hub.spread_eq.2] at hspread
  exact eq_of_alts_eq (List.map_injective_iff.mpr List.singleton_injective hspread)

/-- What the texts of types tell. Well-named types are equal exactly if they are the same after every bar is
taken for one of the union around. Where no result is a union, equal types are the same, and no
alternative is lost in a union of alternatives. -/
theorem equal_tells_apart {t u : Ty} {alts : List Alt} (hnormal : t.Normal) (ht : t.WellNamed) (hu : u.WellNamed)
    (halts : ∀ a ∈ alts, (only a).WellNamed) (hany : .any ∉ alts) :
    (t.equal u = true ↔ t.alts.map Alt.spread = u.alts.map Alt.spread) ∧
    (t.Brief → u.Brief → t.equal u = true → t = u ∧ t.subtype u = true ∧ u.subtype t = true) ∧
    ((∀ a ∈ alts, (only a).Brief) → ∀ a : Alt, a ∈ (ofAlts alts).alts ↔ a ∈ alts) := by
  refine ⟨equal_iff_spread_eq ht hu, fun htb hub h => ?_, fun hbrief a => ?_⟩
  · cases eq_of_equal ht hu htb hub h
    exact ⟨rfl, subtype_self hnormal, subtype_self hnormal⟩
  · have hreadable : ∀ b ∈ alts, (only b).Readable := fun b hb => (halts b hb).readable (hbrief b hb)
    exact mem_ofAlts_iff hany fun b hb c hc htext => Alt.eq_of_text_eq (hreadable b hb) (hreadable c hc) htext

theorem wellNamed_of_holdsInside (depth : Nat) {t : Ty}
    (h : t.holdsInside (fun t => ∀ a ∈ t.alts, a.IsWellNamed) depth = true) : t.WellNamed :=
  everywhere_of_holdsInside depth h

theorem brief_of_holdsInside (depth : Nat) {t : Ty}
    (h : t.holdsInside (fun t => ∀ a ∈ t.alts, a.IsBrief) depth = true) : t.Brief :=
  everywhere_of_holdsInside depth h

/-- A callable with a parameter of each mode. -/
def everyMode : Alt := .function (some
  ⟨[⟨.posOnly, "a", .int, false⟩, ⟨.posOrNamed, "b", ⟨[.prim .none, .prim .str]⟩, true⟩, ⟨.args, "args", .any, true⟩,
    ⟨.namedOnly, "c", .list .any, false⟩, ⟨.kwargs, "rest", .named "Label", true⟩],
   .list ⟨[.prim .none, .prim .int]⟩⟩)

/-- Lists of callables whose result is a number or a text. -/
def callables : Ty := .list (.function (some ⟨[], ⟨[.prim .int, .prim .str]⟩⟩))

/-- Lists of callables whose result is a number, and of texts. -/
def callablesAndTexts : Ty := .list ⟨[.function (some ⟨[], .int⟩), .prim .str]⟩

theorem equal_tells_apart_callables :
    callables.alts.map Alt.spread = callablesAndTexts.alts.map Alt.spread ∧
    union [.str, only everyMode] = union [only everyMode, .str] ∧
    ∀ a : Alt, a ∈ (ofAlts [.prim .str, everyMode]).alts ↔ a ∈ [.prim .str, everyMode] := by
  have hnormal : callables.Normal := everywhere_of_holdsInside 4 (by decide +kernel)
  have hnamed : callables.WellNamed := wellNamed_of_holdsInside 4 (by decide +kernel)
  have hnamed' : callablesAndTexts.WellNamed := wellNamed_of_holdsInside 4 (by decide +kernel)
  have halts : ∀ a ∈ [.prim .str, everyMode], (only a).WellNamed := by
    refine List.forall_mem_cons.mpr ⟨?_, List.forall_mem_singleton.mpr ?_⟩
    · exact wellNamed_of_holdsInside 1 (by decide +kernel)
    · exact wellNamed_of_holdsInside 4 (by decide +kernel)
  have hbrief : ∀ a ∈ [.prim .str, everyMode], (only a).Brief := by
    refine List.forall_mem_cons.mpr ⟨?_, List.forall_mem_singleton.mpr ?_⟩
    · exact brief_of_holdsInside 1 (by decide +kernel)
    · exact brief_of_holdsInside 4 (by decide +kernel)
  have hany : Alt.any ∉ [.prim .str, everyMode] := by simp [everyMode]
  refine ⟨(equal_tells_apart hnormal hnamed hnamed' halts hany).1.mp (by decide +kernel), ?_,
    (equal_tells_apart hnormal hnamed hnamed halts hany).2.2 hbrief⟩
  refine ((equal_tells_apart ?_ ?_ ?_ halts hany).2.1 ?_ ?_ (by decide +kernel)).1
  · exact everywhere_of_holdsInside 4 (by decide +kernel)
  · exact wellNamed_of_holdsInside 4 (by decide +kernel)
  · exact wellNamed_of_holdsInside 4 (by decide +kernel)
  · exact brief_of_holdsInside 4 (by decide +kernel)
  · exact brief_of_holdsInside 4 (by decide +kernel)

/-- Two normal, well-named types that are equal as told by their texts, and neither is below the other; the
union of both has one of them only. -/
theorem equal_callables :
    (callables.Normal ∧ callables.WellNamed) ∧ (callablesAndTexts.Normal ∧ callablesAndTexts.WellNamed) ∧
    callables.equal callablesAndTexts = true ∧ callables.subtype callablesAndTexts = false ∧
    callablesAndTexts.subtype callables = false ∧ (union [callables, callablesAndTexts]).alts.length = 1 := by
  refine ⟨⟨?_, ?_⟩, ⟨?_, ?_⟩, ?_, ?_, ?_, ?_⟩
  · exact everywhere_of_holdsInside 4 (by decide +kernel)
  · exact wellNamed_of_holdsInside 4 (by decide +kernel)
  · exact everywhere_of_holdsInside 4 (by decide +kernel)
  · exact wellNamed_of_holdsInside 4 (by decide +kernel)
  all_goals decide +kernel

end Ty

end Gradual
