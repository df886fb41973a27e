import Gradual.Proofs.Survival
import Gradual.Proofs.TextRoundTrip

/-! The meet as a bound of both sides. On normal types without hosts it is a lower bound, whatever else they are
made of: records and callables meet in the lower one, and containers meet element by element. It is the greatest
one on plain types in which neither `Any` nor records occur. Records have to be left out, since two of them have
nothing in common unless one is below the other; with `Any` inside, being below is not transitive. -/

namespace Gradual

theorem Ty.invariant_hostless : Ty.Invariant Ty.Hostless := by
  refine Ty.invariant_everyAlt fun a hcontainer => ?_
  cases a with
  | list | tuple | tupleOf | dict | iterable => trivial
  | _ => cases hcontainer

/-! ### Lower bounds -/

/-- What two types have in common is below both. -/
def Ty.MeetBelow (t u : Ty) : Prop := (t.meet u).subtype t = true ∧ (t.meet u).subtype u = true

namespace Alt

theorem below_tuple_map {α : Type} {entries : List α} {f g : α → Ty}
    (h : ∀ e ∈ entries, (f e).subtype (g e) = true) : Below (.tuple (entries.map f)) (.tuple (entries.map g)) := by
  refine .tuple ?_
  rw [List.forall₂_map_left_iff, List.forall₂_map_right_iff, List.forall₂_same]
  exact h

theorem union_map_subtype {α : Type} {entries : List α} {f : α → Ty} {u : Ty}
    (h : ∀ e ∈ entries, (f e).subtype u = true) : (Ty.union (entries.map f)).subtype u = true := by
  apply Ty.union_subtype
  intro t ht
  obtain ⟨e, he, rfl⟩ := List.mem_map.mp ht
  exact h e he

theorem below_of_met {x y z : Alt} (h : Met x y z) (hx : (Ty.only x).Normal ∧ (Ty.only x).Hostless)
    (hy : (Ty.only y).Normal ∧ (Ty.only y).Hostless) (hparts : x.RelatesParts Ty.MeetBelow y) :
    Below z x ∧ Below z y := by
  have hfirst : ∀ {w : Ty} {ws : List Ty}, w ∈ w :: ws := List.mem_cons_self
  induction h with
  | swap _ ih => exact (ih hy hx hparts.swap).symm
  | any x => exact ⟨hx.1.below_self List.mem_cons_self, .anyRight x⟩
  | lower _ _ _ hsub => exact ⟨hx.1.below_self List.mem_cons_self, subtype_iff.mp hsub⟩
  | list t u =>
      obtain ⟨ht, hu⟩ := (hparts rfl rfl t hfirst u hfirst).1
      exact ⟨.list ht, .list hu⟩
  | listIterable t u =>
      obtain ⟨ht, hu⟩ := (hparts rfl rfl t hfirst u hfirst).1
      exact ⟨.list ht, .iterable rfl hu⟩
  | @tuple ts us hlength =>
      have hpairs : ∀ p ∈ ts.zip us, p.1.MeetBelow p.2 := fun p hp =>
        (hparts rfl rfl p.1 (List.of_mem_zip hp).1 p.2 (List.of_mem_zip hp).2).1
      have hts : (ts.zip us).map Prod.fst = ts := List.map_fst_zip (Nat.le_of_eq hlength)
      have hus : (ts.zip us).map Prod.snd = us := List.map_snd_zip (Nat.le_of_eq hlength.symm)
      constructor
      · conv => rhs; rw [← hts]
        exact below_tuple_map fun p hp => (hpairs p hp).1
      · conv => rhs; rw [← hus]
        exact below_tuple_map fun p hp => (hpairs p hp).2
  | tupleTupleOf ts u =>
      have helems : ∀ t ∈ ts, t.MeetBelow u := fun t ht => (hparts rfl rfl t ht u hfirst).1
      constructor
      · conv => rhs; rw [← List.map_id ts]
        exact below_tuple_map fun t ht => (helems t ht).1
      · exact .tupleOf rfl (union_map_subtype fun t ht => (helems t ht).2)
  | tupleIterable ts u =>
      have helems : ∀ t ∈ ts, t.MeetBelow u := fun t ht => (hparts rfl rfl t ht u hfirst).1
      constructor
      · conv => rhs; rw [← List.map_id ts]
        exact below_tuple_map fun t ht => (helems t ht).1
      · exact .iterable rfl (union_map_subtype fun t ht => (helems t ht).2)
  | tupleOf t u =>
      obtain ⟨ht, hu⟩ := (hparts rfl rfl t hfirst u hfirst).1
      exact ⟨.tupleOf rfl ht, .tupleOf rfl hu⟩
  | tupleOfIterable t u =>
      obtain ⟨ht, hu⟩ := (hparts rfl rfl t hfirst u hfirst).1
      exact ⟨.tupleOf rfl ht, .iterable rfl hu⟩
  | dict k v k' v' =>
      obtain ⟨hk, hk'⟩ := (hparts rfl rfl k hfirst k' hfirst).1
      obtain ⟨hv, hv'⟩ := (hparts rfl rfl v mem_second v' mem_second).1
      exact ⟨.dict hk hv, .dict hk' hv'⟩
  | dictIterable k v u =>
      obtain ⟨hk, hu⟩ := (hparts rfl rfl k hfirst u hfirst).1
      exact ⟨.dict hk (Ty.subtype_self (Ty.invariant_normal.part hx.1 mem_second)), .iterable rfl hu⟩
  | iterable t u =>
      obtain ⟨ht, hu⟩ := (hparts rfl rfl t hfirst u hfirst).1
      exact ⟨.iterable rfl ht, .iterable rfl hu⟩
  | host => cases hx.2.here _ List.mem_cons_self

end Alt

namespace Ty

/-- The meet of normal types without hosts is below both of them. -/
theorem meet_lower_bound {a b : Ty} (ha : a.Normal) (hahost : a.Hostless) (hb : b.Normal) (hbhost : b.Hostless) :
    (a.meet b).subtype a = true ∧ (a.meet b).subtype b = true := by
  have hP : Invariant fun t => t.Normal ∧ t.Hostless := invariant_normal.and invariant_hostless
  refine hP.pair_induction (R := MeetBelow) (fun {t u} ht hu hparts => ?_) ⟨ha, hahost⟩ ⟨hb, hbhost⟩
  by_cases htany : t.isAny = true
  · rw [eq_any_of_isAny htany, MeetBelow, any_meet]
    exact ⟨subtype_any u, subtype_self hu.1⟩
  by_cases huany : u.isAny = true
  · rw [eq_any_of_isAny huany, MeetBelow, meet_any]
    exact ⟨subtype_self ht.1, subtype_any t⟩
  have hmeets : ∀ z ∈ (t.meet u).alts, ∃ x ∈ t.alts, ∃ y ∈ u.alts, Alt.Below z x ∧ Alt.Below z y := by
    intro z hz
    obtain ⟨x, hx, y, hy, hmet⟩ := exists_of_mem_meet htany huany hz
    exact ⟨x, hx, y, hy, Alt.below_of_met hmet (hP.alt ht hx) (hP.alt hu hy) (hparts x hx y hy)⟩
  constructor
  · apply subtype_of_forall
    intro z hz
    obtain ⟨x, hx, _, _, hzx, -⟩ := hmeets z hz
    exact ⟨x, hx, hzx⟩
  · apply subtype_of_forall
    intro z hz
    obtain ⟨_, _, y, hy, -, hzy⟩ := hmeets z hz
    exact ⟨y, hy, hzy⟩

/-- Callables, dictionaries, lists, records and tuples, with `Any` inside, and what they have in common with
callables, iterables, more general records and tuples of any length. -/
theorem meet_lower_bound_containers :
    let a : Ty := ⟨[.function (some ⟨[], .int⟩), .dict .str .any, .list ⟨[.prim .none, .prim .int]⟩,
      .struct [("x", .int), ("y", .any)] false, .tuple [.int, .any]]⟩
    let b : Ty := ⟨[.function (some ⟨[], ⟨[.prim .int, .prim .str]⟩⟩), .iterable ⟨[.prim .int, .prim .str]⟩,
      .struct [("x", .int)] true, .tupleOf .str]⟩
    (a.meet b).text = "def() -> int | dict[str, Any] | list[int] | struct(x = int, y = Any) | " ++
      "tuple[Never, str] | tuple[int, int | str]" ∧
    (a.meet b).subtype a = true ∧ (a.meet b).subtype b = true := by
  intro a b
  refine ⟨by decide +kernel, meet_lower_bound ?_ ?_ ?_ ?_⟩
  all_goals exact everywhere_of_holdsInside 4 (by decide +kernel)

end Ty

/-! ### Greatest lower bounds -/

def Alt.isRecord : Alt → Bool
  | .struct _ _ => true
  | _ => false

/-- Records do not occur in a type. -/
def Ty.RecordFree : Ty → Prop := Ty.Everywhere fun t => ∀ a ∈ t.alts, a.isRecord = false

theorem Ty.invariant_recordFree : Ty.Invariant Ty.RecordFree := by
  refine Ty.invariant_everyAlt fun a hcontainer => ?_
  cases a with
  | list | tuple | tupleOf | dict | iterable => rfl
  | _ => cases hcontainer

theorem Ty.invariant_definite : Ty.Invariant Ty.Definite := by
  refine Ty.invariant_everyAlt fun a hcontainer => ?_
  cases a with
  | list | tuple | tupleOf | dict | iterable => exact ⟨trivial, Alt.noConfusion⟩
  | _ => cases hcontainer

/-- What two types have in common is above whatever is below both. -/
def Ty.MeetAbove (t u : Ty) : Prop :=
  ∀ s : Ty, s.Definite → s.subtype t = true → s.subtype u = true → s.subtype (t.meet u) = true

theorem forall₂_zipWith {α β γ δ : Type} {R : α → β → Prop} {S : α → γ → Prop} {T : α → δ → Prop} {f : β → γ → δ}
    {xs : List α} {ys : List β} {zs : List γ}
    (h : ∀ x ∈ xs, ∀ y ∈ ys, ∀ z ∈ zs, R x y → S x z → T x (f y z)) (hR : List.Forall₂ R xs ys)
    (hS : List.Forall₂ S xs zs) : List.Forall₂ T xs (ys.zipWith f zs) := by
  induction hR generalizing zs with
  | nil =>
      cases hS
      exact .nil
  | @cons x y xs ys hxy _ ih =>
      cases hS with
      | @cons _ z _ zs hxz hrest =>
          refine .cons (h x List.mem_cons_self y List.mem_cons_self z List.mem_cons_self hxy hxz) ?_
          exact ih (fun x' hx y' hy z' hz => h x' (List.mem_cons_of_mem x hx) y' (List.mem_cons_of_mem y hy)
            z' (List.mem_cons_of_mem z hz)) hrest

namespace Alt

/-- Two alternatives have something in common that a third one is below. -/
def IsBelowMeet (s x y : Alt) : Prop := ∃ z, x.meet y = some z ∧ Below s z

theorem iterable_meet_comm {y : Alt} (u : Ty) (hy : y.Definite) (hyiter : ¬∃ v, y = .iterable v) :
    (Alt.iterable u).meet y = y.meet (.iterable u) := by
  cases y with
  | any => exact absurd rfl hy.ne_any
  | iterable v => exact absurd ⟨v, rfl⟩ hyiter
  | custom n host =>
      cases hy.legible.1
      simp [Alt.meet]
  | _ => simp [Alt.meet]

theorem tuple_below_map_meet {ts us : List Ty} {v : Ty} (hts : ∀ t ∈ ts, t.Definite) (hv : v.Definite)
    (hus : List.Forall₂ (fun t u => t.subtype u = true) ts us) (hunion : (Ty.union ts).subtype v = true)
    (hmeet : ∀ u ∈ us, u.MeetAbove v) : Below (.tuple ts) (.tuple (us.map (·.meet v))) := by
  have hall : ∀ t ∈ ts, t.subtype v = true := (Ty.union_subtype_iff hts hv).mp hunion
  obtain ⟨hlength, hzip⟩ := List.forall₂_iff_zip.mp hus
  refine .tuple (List.forall₂_map_right_iff.mpr (List.forall₂_iff_zip.mpr ⟨hlength, fun {t u} hp => ?_⟩))
  obtain ⟨ht, hu⟩ := List.of_mem_zip hp
  exact hmeet u hu t (hts t ht) (hzip hp) (hall t ht)

section

variable {x y : Alt} (hx : x.Definite) (hy : y.Definite) (hparts : x.RelatesParts Ty.MeetAbove y)
include hx hy hparts

theorem tuple_isBelowMeet {ts : List Ty} (hts : ∀ t ∈ ts, t.Definite) (hxiter : ¬∃ u, x = .iterable u)
    (htx : Below (.tuple ts) x) (hty : Below (.tuple ts) y) : (Alt.tuple ts).IsBelowMeet x y := by
  have hfirst : ∀ {w : Ty} {ws : List Ty}, w ∈ w :: ws := List.mem_cons_self
  have hunion : (Ty.union ts).Definite := Ty.definite_union hts
  cases htx with
  | anyRight => exact absurd rfl hx.ne_any
  | iterable => exact absurd ⟨_, rfl⟩ hxiter
  | @tuple _ us htu =>
      cases hty with
      | anyRight => exact absurd rfl hy.ne_any
      | @tuple _ vs htv =>
          refine ⟨_, meet_tuple (htu.length_eq.symm.trans htv.length_eq), .tuple (forall₂_zipWith ?_ htu htv)⟩
          exact fun t ht u hu v hv => (hparts rfl rfl u hu v hv).1 t (hts t ht)
      | @tupleOf _ _ v ha htv | @iterable _ _ v ha htv =>
          cases ha
          refine ⟨.tuple (us.map (·.meet v)), by simp [Alt.meet], ?_⟩
          exact tuple_below_map_meet hts (hy.parts v hfirst) htu htv fun u hu => (hparts rfl rfl u hu v hfirst).1
  | @tupleOf _ _ u ha htu =>
      cases ha
      cases hty with
      | anyRight => exact absurd rfl hy.ne_any
      | @tuple _ vs htv =>
          refine ⟨.tuple (vs.map (·.meet u)), by simp [Alt.meet], ?_⟩
          exact tuple_below_map_meet hts (hx.parts u hfirst) htv htu fun v hv => (hparts rfl rfl u hfirst v hv).2
      | @tupleOf _ _ v ha htv | @iterable _ _ v ha htv =>
          cases ha
          have hmeet := (hparts rfl rfl u hfirst v hfirst).1
          exact ⟨.tupleOf (u.meet v), by simp [Alt.meet], .tupleOf rfl (hmeet _ hunion htu htv)⟩

/-- Where the first alternative is not an iterable, it has the shape of what is below it, unless that is a tuple. -/
theorem isBelowMeet_of_ne_iterable {s : Alt} (hs : s.Definite) (hrecord : x.isRecord = false)
    (hxiter : ¬∃ u, x = .iterable u) (hsx : Below s x) (hsy : Below s y) : s.IsBelowMeet x y := by
  have hfirst : ∀ {w : Ty} {ws : List Ty}, w ∈ w :: ws := List.mem_cons_self
  cases hsx with
  | anyLeft => exact absurd rfl hs.ne_any
  | anyRight => exact absurd rfl hx.ne_any
  | iterable => exact absurd ⟨_, rfl⟩ hxiter
  | prim p =>
      cases hsy with
      | anyRight => exact absurd rfl hy.ne_any
      | prim => exact ⟨.prim p, by simp [Alt.meet], .prim p⟩
      | tupleOf ha | iterable ha => cases ha
  | @list t u htu =>
      have ht : t.Definite := hs.parts t hfirst
      cases hsy with
      | anyRight => exact absurd rfl hy.ne_any
      | tupleOf ha => cases ha
      | @list _ v htv =>
          have hmeet := (hparts rfl rfl u hfirst v hfirst).1
          exact ⟨.list (u.meet v), by simp [Alt.meet], .list (hmeet t ht htu htv)⟩
      | @iterable _ _ v ha htv =>
          cases ha
          have hmeet := (hparts rfl rfl u hfirst v hfirst).1
          exact ⟨.list (u.meet v), by simp [Alt.meet], .list (hmeet t ht htu htv)⟩
  | @tuple ts us htu => exact tuple_isBelowMeet hx hy hparts hs.parts hxiter (.tuple htu) hsy
  | @tupleOf _ t u ha htu =>
      cases s with
      | tuple ts => exact tuple_isBelowMeet hx hy hparts hs.parts hxiter (.tupleOf ha htu) hsy
      | tupleOf =>
          cases ha
          have ht : t.Definite := hs.parts t hfirst
          cases hsy with
          | anyRight => exact absurd rfl hy.ne_any
          | @tupleOf _ _ v ha htv | @iterable _ _ v ha htv =>
              cases ha
              have hmeet := (hparts rfl rfl u hfirst v hfirst).1
              exact ⟨.tupleOf (u.meet v), by simp [Alt.meet], .tupleOf rfl (hmeet t ht htu htv)⟩
      | _ => cases ha
  | @dict k v k' v' hk hv =>
      have hkdef : k.Definite := hs.parts k hfirst
      have hvdef : v.Definite := hs.parts v mem_second
      cases hsy with
      | anyRight => exact absurd rfl hy.ne_any
      | tupleOf ha => cases ha
      | @dict _ _ k'' v'' hk' hv' =>
          have hkey := (hparts rfl rfl k' hfirst k'' hfirst).1 k hkdef hk hk'
          have hvalue := (hparts rfl rfl v' mem_second v'' mem_second).1 v hvdef hv hv'
          exact ⟨.dict (k'.meet k'') (v'.meet v''), by simp [Alt.meet], .dict hkey hvalue⟩
      | @iterable _ _ u ha hku =>
          cases ha
          have hkey := (hparts rfl rfl k' hfirst u hfirst).1 k hkdef hk hku
          exact ⟨.dict (k'.meet u) v', by simp [Alt.meet], .dict hkey hv⟩
  | @function sig sig' h =>
      cases hx.legible
      cases hsy with
      | anyRight => exact absurd rfl hy.ne_any
      | tupleOf ha | iterable ha => cases ha
      | function =>
          cases hy.legible
          exact ⟨.function none, by simp [Alt.meet], .function h⟩
  | callable h =>
      cases hs.legible.1
      cases h
  | struct => cases hrecord
  | custom n host host' =>
      cases hs.legible.1
      cases hsy with
      | anyRight => exact absurd rfl hy.ne_any
      | tupleOf ha | iterable ha => cases ha
      | callable h => cases h
      | custom => exact ⟨.custom n host', by simp [Alt.meet], .custom n none host'⟩

theorem isBelowMeet_of_below {s : Alt} (hs : s.Definite) (hxrecord : x.isRecord = false)
    (hyrecord : y.isRecord = false) (hsx : Below s x) (hsy : Below s y) : s.IsBelowMeet x y := by
  by_cases hxiter : ∃ u, x = .iterable u
  · obtain ⟨u, rfl⟩ := hxiter
    by_cases hyiter : ∃ v, y = .iterable v
    · obtain ⟨v, rfl⟩ := hyiter
      cases hsx with
      | anyLeft => exact absurd rfl hs.ne_any
      | @iterable _ t _ ha htu =>
          cases hsy with
          | anyLeft => exact absurd rfl hs.ne_any
          | @iterable _ t' _ ha' htv =>
              cases ha.symm.trans ha'
              have hmeet := (hparts rfl rfl u List.mem_cons_self v List.mem_cons_self).1
              refine ⟨.iterable (u.meet v), by simp [Alt.meet], .iterable ha ?_⟩
              exact hmeet t (definite_iterElem hs ha) htu htv
    · rw [IsBelowMeet, iterable_meet_comm u hy hyiter]
      exact isBelowMeet_of_ne_iterable hy hx hparts.swap hs hyrecord hyiter hsy hsx
  · exact isBelowMeet_of_ne_iterable hx hy hparts hs hxrecord hxiter hsx hsy

end

end Alt

namespace Ty

/-- On plain types without `Any` and records, nothing that is below both sides is lost in the meet. -/
theorem subtype_meet {a b c : Ty} (ha : a.Plain) (haany : a.AnyFree) (harecord : a.RecordFree) (hb : b.Plain)
    (hbany : b.AnyFree) (hbrecord : b.RecordFree) (hc : c.Plain) (hcany : c.AnyFree) (hca : c.subtype a = true)
    (hcb : c.subtype b = true) : c.subtype (a.meet b) = true := by
  have hP : Invariant fun t => t.Definite ∧ t.RecordFree := invariant_definite.and invariant_recordFree
  have habove : a.MeetAbove b := by
    refine hP.pair_induction (fun {t u} ht hu hparts => ?_) ⟨ha.definite haany, harecord⟩ ⟨hb.definite hbany, hbrecord⟩
    intro s hs hst hsu
    have htany := ht.1.any_not_mem
    have huany := hu.1.any_not_mem
    rw [subtype_iff_forall hs.any_not_mem htany] at hst
    rw [subtype_iff_forall hs.any_not_mem huany] at hsu
    apply subtype_of_forall
    intro e he
    obtain ⟨x, hx, hex⟩ := hst e he
    obtain ⟨y, hy, hey⟩ := hsu e he
    obtain ⟨z, hz, hez⟩ := Alt.isBelowMeet_of_below (ht.1.alt hx) (hu.1.alt hy) (hparts x hx y hy) (hs.alt he)
      (ht.2.here x hx) (hu.2.here y hy) hex hey
    exact ⟨z, (mem_meet_iff htany huany ht.1.legible hu.1.legible).mpr ⟨x, hx, y, hy, hz⟩, hez⟩
  exact habove c (hc.definite hcany) hca hcb

/-- Tuples that are below tuples of known and of any length, and below iterables of unions. -/
theorem subtype_meet_tuples :
    let a : Ty := ⟨[.function Option.none,
      .tuple [⟨[.prim .none, .prim .int]⟩, .iterable ⟨[.prim .int, .prim .str]⟩], .tupleOf .str]⟩
    let b : Ty := ⟨[.function Option.none, .iterable ⟨[.prim .int, .list .int, .prim .str]⟩]⟩
    let c : Ty := ⟨[.function Option.none, .tuple [.int, .list .int], .tuple [.str, .str, .str]]⟩
    c.subtype a = true ∧ c.subtype b = true ∧ c.subtype (a.meet b) = true := by
  intro a b c
  have hca : c.subtype a = true := by decide +kernel
  have hcb : c.subtype b = true := by decide +kernel
  refine ⟨hca, hcb, subtype_meet ?_ ?_ ?_ ?_ ?_ ?_ ?_ ?_ hca hcb⟩
  · exact plain_of_holdsInside 4 (by decide +kernel) (by decide +kernel)
  · exact everywhere_of_holdsInside 4 (by decide +kernel)
  · exact everywhere_of_holdsInside 4 (by decide +kernel)
  · exact plain_of_holdsInside 4 (by decide +kernel) (by decide +kernel)
  · exact everywhere_of_holdsInside 4 (by decide +kernel)
  · exact everywhere_of_holdsInside 4 (by decide +kernel)
  · exact plain_of_holdsInside 4 (by decide +kernel) (by decide +kernel)
  · exact everywhere_of_holdsInside 4 (by decide +kernel)

end Ty

end Gradual
