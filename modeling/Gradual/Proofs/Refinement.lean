import Gradual.Check.Annotation
import Gradual.Proofs.NormalOperations
import Gradual.Proofs.SubtypeOrder
import Gradual.Proofs.TypeInvariant

/-! Refinement of types. A type refines another one if it can be made from it by leaving alternatives out and by
replacing types inside containers, `Any` and iterables by more definite ones. Unlike subtyping, refinement is
transitive in the presence of `Any`, which only refines itself. Meets of types as they are written in a program
refine both sides, and what refines a type is a subtype of it. -/

namespace Gradual

/-- The element types of a tuple. -/
def Alt.tupleElems? : Alt → Option (List Ty)
  | .tuple elems => some elems
  | .tupleOf elem => some [elem]
  | _ => none

/-- The types of what a container yields when it is iterated over. -/
def Alt.yields? : Alt → Option (List Ty)
  | .tuple elems => some elems
  | .list elem | .tupleOf elem | .iterable elem | .dict elem _ => some [elem]
  | _ => none

mutual

/-- Each alternative of a type refines one of the other type, its image. -/
inductive Ty.Refines : Ty → Ty → Prop
  | intro {t u : Ty} (image : Alt → Alt) (hmem : ∀ a ∈ t.alts, image a ∈ u.alts)
      (h : ∀ a ∈ t.alts, Alt.Refines a (image a)) : Ty.Refines t u

/-- The rules of refinement between alternatives. -/
inductive Alt.Refines : Alt → Alt → Prop
  | any (a : Alt) : Alt.Refines a .any
  | atom {a : Alt} (h : a.parts = []) : Alt.Refines a a
  | list {t u : Ty} (h : Ty.Refines t u) : Alt.Refines (.list t) (.list u)
  | tuple {ts us : List Ty} (hlength : ts.length = us.length) (h : ∀ p ∈ ts.zip us, Ty.Refines p.1 p.2) :
      Alt.Refines (.tuple ts) (.tuple us)
  | tupleOf {a : Alt} {ts : List Ty} {u : Ty} (ha : a.tupleElems? = some ts) (h : ∀ t ∈ ts, Ty.Refines t u) :
      Alt.Refines a (.tupleOf u)
  | dict {k v k' v' : Ty} (hkey : Ty.Refines k k') (hvalue : Ty.Refines v v') :
      Alt.Refines (.dict k v) (.dict k' v')
  | iterable {a : Alt} {ts : List Ty} {u : Ty} (ha : a.yields? = some ts) (h : ∀ t ∈ ts, Ty.Refines t u) :
      Alt.Refines a (.iterable u)

end

namespace Ty

theorem refines_of_forall {t u : Ty} (h : ∀ a ∈ t.alts, ∃ b ∈ u.alts, Alt.Refines a b) : t.Refines u := by
  have hchoice : ∀ a, ∃ b, a ∈ t.alts → b ∈ u.alts ∧ Alt.Refines a b := by
    intro a
    by_cases ha : a ∈ t.alts
    · obtain ⟨b, hb, hab⟩ := h a ha
      exact ⟨b, fun _ => ⟨hb, hab⟩⟩
    · exact ⟨a, fun ha' => absurd ha' ha⟩
  obtain ⟨image, himage⟩ := Classical.axiomOfChoice hchoice
  exact .intro image (fun a ha => (himage a ha).1) fun a ha => (himage a ha).2

theorem Refines.exists_of_mem {t u : Ty} (h : t.Refines u) {a : Alt} (ha : a ∈ t.alts) :
    ∃ b ∈ u.alts, Alt.Refines a b := by
  obtain ⟨image, hmem, himage⟩ := h
  exact ⟨image a, hmem a ha, himage a ha⟩

theorem refines_any (t : Ty) : t.Refines .any :=
  refines_of_forall fun a _ => ⟨.any, List.mem_cons_self, .any a⟩

theorem refines_filter (t : Ty) (keep : Alt → Bool) {u : Ty} (h : t.Refines u) : (t.filter keep).Refines u :=
  refines_of_forall fun _ ha => h.exists_of_mem (List.mem_filter.mp ha).1

theorem union_refines {ts : List Ty} {u : Ty} (h : ∀ t ∈ ts, t.Refines u) : (union ts).Refines u := by
  refine refines_of_forall fun a ha => ?_
  obtain ⟨t, ht, ha⟩ := mem_of_mem_union ha
  exact (h t ht).exists_of_mem ha

end Ty

/-! ### Subtypes -/

mutual

theorem Ty.Refines.subtype {t u : Ty} : t.Refines u → t.subtype u = true
  | .intro image hmem h => Ty.subtype_of_forall fun a ha => ⟨image a, hmem a ha, (h a ha).toBelow⟩

theorem Alt.Refines.toBelow {a b : Alt} : Alt.Refines a b → Alt.Below a b
  | .any a => .anyRight a
  | .atom hparts => by
      refine Alt.below_refl (fun t ht => absurd ht (hparts ▸ List.not_mem_nil)) fun fields isOpen heq => ?_
      subst heq
      rw [List.map_eq_nil_iff.mp hparts]
      exact .nil
  | .list h => .list h.subtype
  | .tuple hlength h => .tuple (List.forall₂_iff_zip.mpr ⟨hlength, fun hp => (h _ hp).subtype⟩)
  | @Alt.Refines.tupleOf a ts u ha h => by
      have hsub : ∀ t ∈ ts, t.subtype u = true := fun t ht => (h t ht).subtype
      cases a with
      | tuple ts =>
          cases ha
          exact .tupleOf rfl (Ty.union_subtype hsub)
      | tupleOf t =>
          cases ha
          exact .tupleOf rfl (hsub t List.mem_cons_self)
      | _ => cases ha
  | .dict hkey hvalue => .dict hkey.subtype hvalue.subtype
  | @Alt.Refines.iterable a ts u ha h => by
      have hsub : ∀ t ∈ ts, t.subtype u = true := fun t ht => (h t ht).subtype
      cases a with
      | tuple ts =>
          cases ha
          exact .iterable rfl (Ty.union_subtype hsub)
      | list t | tupleOf t | iterable t | dict t v =>
          cases ha
          exact .iterable rfl (hsub t List.mem_cons_self)
      | _ => cases ha

end

/-! ### Transitivity -/

theorem exists_mem_zip {α β : Type} {xs : List α} {ys : List β} (hlength : xs.length = ys.length) {x : α}
    (hx : x ∈ xs) : ∃ y ∈ ys, (x, y) ∈ xs.zip ys := by
  obtain ⟨i, hi, rfl⟩ := List.mem_iff_getElem.mp hx
  refine ⟨ys[i], List.getElem_mem _, List.mem_iff_getElem.mpr ⟨i, ?_, ?_⟩⟩
  · rw [List.length_zip]
    omega
  · rw [List.getElem_zip]

theorem exists_mem_zip_zip {α β γ : Type} {xs : List α} {ys : List β} {zs : List γ} (hlength : xs.length = ys.length)
    {p : α × γ} (hp : p ∈ xs.zip zs) (hlength' : ys.length = zs.length) :
    ∃ y, (p.1, y) ∈ xs.zip ys ∧ (y, p.2) ∈ ys.zip zs := by
  obtain ⟨i, hi, rfl⟩ := List.mem_iff_getElem.mp hp
  rw [List.length_zip] at hi
  refine ⟨ys[i], List.mem_iff_getElem.mpr ⟨i, ?_, ?_⟩, List.mem_iff_getElem.mpr ⟨i, ?_, ?_⟩⟩
  · rw [List.length_zip]
    omega
  · rw [List.getElem_zip, List.getElem_zip]
  · rw [List.length_zip]
    omega
  · rw [List.getElem_zip, List.getElem_zip]

theorem Alt.yields?_of_tupleElems? {a : Alt} {ts : List Ty} (h : a.tupleElems? = some ts) : a.yields? = some ts := by
  cases a with
  | tuple | tupleOf => exact h
  | _ => cases h

mutual

theorem Ty.Refines.trans {t u v : Ty} : t.Refines u → u.Refines v → t.Refines v
  | .intro image hmem h, hv => Ty.refines_of_forall fun a ha => by
      obtain ⟨c, hc, hbc⟩ := hv.exists_of_mem (hmem a ha)
      exact ⟨c, hc, (h a ha).trans hbc⟩

theorem Alt.Refines.trans {a b c : Alt} : Alt.Refines a b → Alt.Refines b c → Alt.Refines a c
  | .any a, h' => by
      cases h' with
      | any => exact .any a
      | atom => exact .any a
      | tupleOf ha | iterable ha => cases ha
  | .atom _, h' => h'
  | .list h, h' => by
      cases h' with
      | any => exact .any _
      | atom hparts => cases hparts
      | list h' => exact .list (h.trans h')
      | tupleOf ha => cases ha
      | iterable ha h' =>
          cases ha
          exact .iterable rfl (List.forall_mem_singleton.mpr (h.trans (h' _ List.mem_cons_self)))
  | .tuple hlength h, h' => by
      cases h' with
      | any => exact .any _
      | atom => exact .tuple hlength h
      | tuple hlength' h' =>
          refine .tuple (hlength.trans hlength') fun p hp => ?_
          obtain ⟨u, hu, hu'⟩ := exists_mem_zip_zip hlength hp hlength'
          exact (h _ hu).trans (h' _ hu')
      | tupleOf hb h' =>
          cases hb
          refine .tupleOf rfl fun t ht => ?_
          obtain ⟨u, hu, hp⟩ := exists_mem_zip hlength ht
          exact (h _ hp).trans (h' u hu)
      | iterable hb h' =>
          cases hb
          refine .iterable rfl fun t ht => ?_
          obtain ⟨u, hu, hp⟩ := exists_mem_zip hlength ht
          exact (h _ hp).trans (h' u hu)
  | .tupleOf ha h, h' => by
      cases h' with
      | any => exact .any _
      | atom hparts => cases hparts
      | tupleOf hb h' =>
          cases hb
          exact .tupleOf ha fun t ht => (h t ht).trans (h' _ List.mem_cons_self)
      | iterable hb h' =>
          cases hb
          exact .iterable (Alt.yields?_of_tupleElems? ha) fun t ht => (h t ht).trans (h' _ List.mem_cons_self)
  | .dict hkey hvalue, h' => by
      cases h' with
      | any => exact .any _
      | atom hparts => cases hparts
      | dict hkey' hvalue' => exact .dict (hkey.trans hkey') (hvalue.trans hvalue')
      | tupleOf ha => cases ha
      | iterable ha h' =>
          cases ha
          exact .iterable rfl (List.forall_mem_singleton.mpr (hkey.trans (h' _ List.mem_cons_self)))
  | .iterable ha h, h' => by
      cases h' with
      | any => exact .any _
      | atom hparts => cases hparts
      | tupleOf hb => cases hb
      | iterable hb h' =>
          cases hb
          exact .iterable ha fun t ht => (h t ht).trans (h' _ List.mem_cons_self)

end

/-! ### Written types -/

/-- Whether an alternative can be written in a program: there it has neither a host nor a signature, and of records
only that they are some. -/
def Alt.isWritten : Alt → Bool
  | .function sig => sig.isNone
  | .struct fields isOpen => fields.isEmpty && isOpen
  | .custom _ host => host.isNone
  | _ => true

/-- A type that can be written in a program. -/
def Ty.Written : Ty → Prop := Ty.Everywhere fun t => ∀ a ∈ t.alts, a.isWritten = true

theorem Ty.invariant_written : Ty.Invariant Ty.Written := by
  refine Ty.invariant_everyAlt fun a hcontainer => ?_
  cases a with
  | list | tuple | tupleOf | dict | iterable => rfl
  | _ => cases hcontainer

theorem Alt.refines_self {a : Alt} (ha : a.isWritten = true) (hparts : ∀ t ∈ a.parts, t.Refines t) :
    Alt.Refines a a := by
  cases a with
  | any | prim => exact .atom rfl
  | list t => exact .list (hparts t List.mem_cons_self)
  | tuple ts =>
      refine .tuple rfl fun p hp => ?_
      obtain ⟨i, hi, rfl⟩ := List.mem_iff_getElem.mp hp
      rw [List.getElem_zip]
      exact hparts _ (List.getElem_mem _)
  | tupleOf t => exact .tupleOf rfl (List.forall_mem_singleton.mpr (hparts t List.mem_cons_self))
  | dict k v => exact .dict (hparts k List.mem_cons_self) (hparts v mem_second)
  | iterable t => exact .iterable rfl (List.forall_mem_singleton.mpr (hparts t List.mem_cons_self))
  | function sig =>
      cases Option.isNone_iff_eq_none.mp ha
      exact .atom rfl
  | struct fields isOpen =>
      rw [Alt.isWritten, Bool.and_eq_true, List.isEmpty_iff] at ha
      exact .atom (List.map_eq_nil_iff.mpr ha.1)
  | custom name host =>
      cases Option.isNone_iff_eq_none.mp ha
      exact .atom rfl

theorem Ty.Written.refines_self {t : Ty} (h : t.Written) : t.Refines t := by
  induction h with
  | intro here _ ih => exact refines_of_forall fun a ha => ⟨a, ha, Alt.refines_self (here a ha) (ih a ha)⟩

/-! ### Meets -/

/-- What two types have in common refines both. -/
def Ty.MeetRefines (t u : Ty) : Prop := (t.meet u).Refines t ∧ (t.meet u).Refines u

theorem Alt.refines_tuple_map {α : Type} {xs : List α} {f : α → Ty} {g : α → Ty} {us : List Ty} (hus : xs.map g = us)
    (h : ∀ x ∈ xs, (f x).Refines (g x)) : Alt.Refines (.tuple (xs.map f)) (.tuple us) := by
  subst hus
  refine .tuple (by rw [List.length_map, List.length_map]) fun p hp => ?_
  rw [List.zip_map'] at hp
  obtain ⟨x, hx, rfl⟩ := List.mem_map.mp hp
  exact h x hx

theorem Alt.eq_of_below {x y : Alt} (hx : x.isWritten = true) (hy : y.isWritten = true) (hany : x.isAny = false)
    (hcx : x.isContainer = false) (hcy : y.isContainer = false) (h : Below x y) : y = .any ∨ x = y := by
  cases h with
  | anyLeft => cases hany
  | anyRight => exact Or.inl rfl
  | prim => exact Or.inr rfl
  | list | tuple | dict => cases hcx
  | tupleOf | iterable => cases hcy
  | function =>
      cases Option.isNone_iff_eq_none.mp hx
      cases Option.isNone_iff_eq_none.mp hy
      exact Or.inr rfl
  | callable h =>
      cases Option.isNone_iff_eq_none.mp hx
      cases h
  | struct =>
      rw [Alt.isWritten, Bool.and_eq_true, List.isEmpty_iff] at hx hy
      rw [hx.1, hx.2, hy.1, hy.2]
      exact Or.inr rfl
  | custom =>
      cases Option.isNone_iff_eq_none.mp hx
      cases Option.isNone_iff_eq_none.mp hy
      exact Or.inr rfl

theorem Alt.refines_of_met {x y z : Alt} (h : Met x y z) (hx : (Ty.only x).Written) (hy : (Ty.only y).Written)
    (hparts : x.RelatesParts Ty.MeetRefines y) : Alt.Refines z x ∧ Alt.Refines z y := by
  have hself : ∀ {a : Alt}, (Ty.only a).Written → Alt.Refines a a := fun ha =>
    Alt.refines_self (ha.here _ List.mem_cons_self) fun _ ht => (Ty.invariant_written.part ha ht).refines_self
  have hfirst : ∀ {w : Ty} {ws : List Ty}, w ∈ w :: ws := List.mem_cons_self
  have hsingle : ∀ {w v : Ty}, w.Refines v → ∀ t ∈ [w], t.Refines v := fun h => List.forall_mem_singleton.mpr h
  induction h with
  | swap _ ih => exact (ih hy hx hparts.swap).symm
  | any => exact ⟨hself hx, .any _⟩
  | lower hany hcx hcy hsub =>
      rcases Alt.eq_of_below (hx.here _ List.mem_cons_self) (hy.here _ List.mem_cons_self) hany hcx hcy
        (subtype_iff.mp hsub) with rfl | rfl
      · exact ⟨hself hx, .any _⟩
      · exact ⟨hself hx, hself hx⟩
  | list =>
      have hab := (hparts rfl rfl _ hfirst _ hfirst).1
      exact ⟨.list hab.1, .list hab.2⟩
  | listIterable =>
      have hab := (hparts rfl rfl _ hfirst _ hfirst).1
      exact ⟨.list hab.1, .iterable rfl (hsingle hab.2)⟩
  | @tuple ts us hlength =>
      have hpairs : ∀ p ∈ ts.zip us, p.1.MeetRefines p.2 := fun p hp =>
        (hparts rfl rfl _ (List.of_mem_zip hp).1 _ (List.of_mem_zip hp).2).1
      refine ⟨Alt.refines_tuple_map (g := Prod.fst) ?_ fun p hp => (hpairs p hp).1,
        Alt.refines_tuple_map (g := Prod.snd) ?_ fun p hp => (hpairs p hp).2⟩
      · exact List.map_fst_zip (Nat.le_of_eq hlength)
      · exact List.map_snd_zip (Nat.le_of_eq hlength.symm)
  | tupleTupleOf ts u =>
      have hab : ∀ t ∈ ts, t.MeetRefines u := fun t ht => (hparts rfl rfl t ht u hfirst).1
      refine ⟨Alt.refines_tuple_map (List.map_id ts) fun t ht => (hab t ht).1, .tupleOf rfl fun v hv => ?_⟩
      obtain ⟨t, ht, rfl⟩ := List.mem_map.mp hv
      exact (hab t ht).2
  | tupleIterable ts u =>
      have hab : ∀ t ∈ ts, t.MeetRefines u := fun t ht => (hparts rfl rfl t ht u hfirst).1
      refine ⟨Alt.refines_tuple_map (List.map_id ts) fun t ht => (hab t ht).1, .iterable rfl fun v hv => ?_⟩
      obtain ⟨t, ht, rfl⟩ := List.mem_map.mp hv
      exact (hab t ht).2
  | tupleOf =>
      have hab := (hparts rfl rfl _ hfirst _ hfirst).1
      exact ⟨.tupleOf rfl (hsingle hab.1), .tupleOf rfl (hsingle hab.2)⟩
  | tupleOfIterable =>
      have hab := (hparts rfl rfl _ hfirst _ hfirst).1
      exact ⟨.tupleOf rfl (hsingle hab.1), .iterable rfl (hsingle hab.2)⟩
  | dict =>
      have hkey := (hparts rfl rfl _ hfirst _ hfirst).1
      have hvalue := (hparts rfl rfl _ mem_second _ mem_second).1
      exact ⟨.dict hkey.1 hvalue.1, .dict hkey.2 hvalue.2⟩
  | dictIterable =>
      have hkey := (hparts rfl rfl _ hfirst _ hfirst).1
      have hvalue := (Ty.invariant_written.part hx mem_second).refines_self
      exact ⟨.dict hkey.1 hvalue, .iterable rfl (hsingle hkey.2)⟩
  | iterable =>
      have hab := (hparts rfl rfl _ hfirst _ hfirst).1
      exact ⟨.iterable rfl (hsingle hab.1), .iterable rfl (hsingle hab.2)⟩
  | host => cases hx.here _ List.mem_cons_self

theorem Ty.meetRefines {t u : Ty} (ht : t.Written) (hu : u.Written) : t.MeetRefines u := by
  refine invariant_written.pair_induction (fun {t u} ht hu hparts => ?_) ht hu
  by_cases htany : t.isAny = true
  · rw [eq_any_of_isAny htany, MeetRefines, any_meet]
    exact ⟨refines_any u, hu.refines_self⟩
  by_cases huany : u.isAny = true
  · rw [eq_any_of_isAny huany, MeetRefines, meet_any]
    exact ⟨ht.refines_self, refines_any t⟩
  have hmeets : ∀ z ∈ (t.meet u).alts, ∃ x ∈ t.alts, ∃ y ∈ u.alts, Alt.Refines z x ∧ Alt.Refines z y := by
    intro z hz
    obtain ⟨x, hx, y, hy, hmet⟩ := exists_of_mem_meet htany huany hz
    exact ⟨x, hx, y, hy, Alt.refines_of_met hmet (invariant_written.alt ht hx) (invariant_written.alt hu hy)
      (hparts x hx y hy)⟩
  refine ⟨refines_of_forall fun z hz => ?_, refines_of_forall fun z hz => ?_⟩
  · obtain ⟨x, hx, _, _, hzx, -⟩ := hmeets z hz
    exact ⟨x, hx, hzx⟩
  · obtain ⟨_, _, y, hy, -, hzy⟩ := hmeets z hz
    exact ⟨y, hy, hzy⟩

/-! ### Names of types -/

/-- What a name with arguments denotes: nothing, an alternative without parts, or a container whose elements are
arguments or `Any`. -/
inductive Ty.NameShape (args : List Ty) : Ty → Prop
  | never : NameShape args .never
  | atom {a : Alt} (ha : a.isWritten = true) (hparts : a.parts = []) : NameShape args (.only a)
  | container {a : Alt} (ha : a.isContainer = true) (hparts : ∀ t ∈ a.parts, t = .any ∨ t ∈ args) :
      NameShape args (.only a)

namespace Ty

theorem nameShape_ofName (name : Text) (args : List Ty) (variadic : Bool) :
    NameShape args (.ofName name args variadic) := by
  have harg : ∀ i : Nat, args[i]?.getD .any = .any ∨ args[i]?.getD .any ∈ args := by
    intro i
    cases hi : args[i]? with
    | none => exact Or.inl rfl
    | some t => exact Or.inr (List.mem_of_getElem? hi)
  unfold ofName
  split
  all_goals try first
    | exact .never
    | exact .atom rfl rfl
    | exact .container rfl (List.forall_mem_singleton.mpr (harg 0))
    | exact .container rfl (List.forall_mem_cons.mpr ⟨harg 0, List.forall_mem_singleton.mpr (harg 1)⟩)
  -- What is left are the three names of tuples.
  iterate 3
    split
    · exact .container rfl (List.forall_mem_singleton.mpr (Or.inl rfl))
    · split
      · exact .container rfl fun _ ht => Or.inr ht
      · exact .container rfl fun _ ht => Or.inr ht
    · exact .container rfl fun _ ht => Or.inr ht

theorem written_atom {a : Alt} (ha : a.isWritten = true) (hparts : a.parts = []) : (only a).Written :=
  everywhere_only_iff.mpr ⟨List.forall_mem_singleton.mpr ha, fun _ ht => absurd (hparts ▸ ht) List.not_mem_nil⟩

theorem written_any : Ty.any.Written := written_atom rfl rfl

theorem written_ofName (name : Text) {args : List Ty} (hargs : ∀ t ∈ args, t.Written) (variadic : Bool) :
    (ofName name args variadic).Written := by
  have hshape := nameShape_ofName name args variadic
  generalize ofName name args variadic = t at hshape ⊢
  cases hshape with
  | never => exact .intro (List.forall_mem_nil _) (List.forall_mem_nil _)
  | atom ha hparts => exact written_atom ha hparts
  | container ha hparts =>
      refine invariant_written.container ha fun t ht => ?_
      rcases hparts t ht with rfl | ht
      · exact written_any
      · exact hargs t ht

theorem keptByNames_written : KeptByNames Written where
  ofName name _ hargs variadic := written_ofName name hargs variadic
  union := invariant_written.union
  unit := written_atom rfl rfl

end Ty

namespace TypeExpr

variable {P : Ty → Prop}

mutual

theorem keeps_denote (hP : Ty.KeptByNames P) : (t : TypeExpr) → P t.denote
  | .hole => hP.ofName "" (List.forall_mem_nil _) false
  | .simple _ name => hP.ofName name.name (List.forall_mem_nil _) false
  | .generic _ base args => by
      cases base with
      | simple _ name => exact hP.ofName name.name (keeps_denoteArgs hP args) _
      | _ => exact hP.ofName "" (List.forall_mem_nil _) false
  | .union _ members => hP.union (keeps_denoteAll hP members)

theorem keeps_denoteArgs (hP : Ty.KeptByNames P) : (ts : List TypeExpr) → ∀ t ∈ denoteArgs ts, P t
  | [] => List.forall_mem_nil _
  | t :: rest => by
      rw [denoteArgs]
      split
      · exact keeps_denoteArgs hP rest
      · exact List.forall_mem_cons.mpr ⟨keeps_denote hP t, keeps_denoteArgs hP rest⟩

theorem keeps_denoteAll (hP : Ty.KeptByNames P) : (ts : List TypeExpr) → ∀ t ∈ denoteAll ts, P t
  | [] => List.forall_mem_nil _
  | t :: rest => List.forall_mem_cons.mpr ⟨keeps_denote hP t, keeps_denoteAll hP rest⟩

end

end TypeExpr

/-! ### Narrowing -/

/-- A written type that refines another one. -/
structure Ty.Narrows (t u : Ty) : Prop where
  written : t.Written
  refines : t.Refines u

namespace Ty.Narrows

variable {t u : Ty}

theorem self (h : t.Written) : t.Narrows t := ⟨h, h.refines_self⟩

theorem meet (h : t.Narrows u) {target : Ty} (htarget : target.Written) : (t.meet target).Narrows u :=
  ⟨invariant_written.meet h.written htarget, (meetRefines h.written htarget).1.trans h.refines⟩

theorem filter (h : t.Narrows u) (keep : Alt → Bool) : (t.filter keep).Narrows u :=
  ⟨invariant_written.filter keep h.written, refines_filter t keep h.refines⟩

theorem union {ts : List Ty} (h : ∀ t ∈ ts, t.Narrows u) : (Ty.union ts).Narrows u :=
  ⟨invariant_written.union fun t ht => (h t ht).written, union_refines fun t ht => (h t ht).refines⟩

theorem union₂ {t' : Ty} (h : t.Narrows u) (h' : t'.Narrows u) : (Ty.union [t, t']).Narrows u :=
  union (List.forall_mem_cons.mpr ⟨h, List.forall_mem_singleton.mpr h'⟩)

end Ty.Narrows

end Gradual
