import Gradual.Call
import Gradual.Interface
import Gradual.Proofs.TypeInvariant
import Gradual.Proofs.Utf8

/-! Vocabularies: which names and which types may occur. A closed vocabulary holds the texts of the messages
that are put together from what it holds, and the types that the operations on types make of it. A part of a
program or of a report is within a vocabulary if its names and types are. -/

namespace Gradual

/-- Names and types that may occur. -/
structure Vocabulary where
  IsName : Text → Prop
  IsType : Ty → Prop

structure Param.Within (v : Vocabulary) (p : Param) : Prop where
  name : v.IsName p.name
  type : v.IsType p.type

structure Signature.Within (v : Vocabulary) (sig : Signature) : Prop where
  params : ∀ p ∈ sig.params, p.Within v
  result : v.IsType sig.result

/-- The types that a host answers with; that of its values as callables is one of them. -/
inductive Host.Answers (host : Host) : Ty → Prop
  | attr {ask : Text → Option Ty} {name : Text} {t : Ty} (h : host.attributes = some ask)
      (ht : ask name = some t) : host.Answers t
  | call {sig : Option Signature} (h : host.call = some sig) : host.Answers (.function sig)
  | binOp {ask : Text → Json → Option Ty} {op : Text} {right : Json} {t : Ty} (h : host.binOps = some ask)
      (ht : ask op right = some t) : host.Answers t
  | iter {t : Ty} (h : host.iter = some t) : host.Answers t

theorem Host.eq_of_answers_having {name : Text} {t u : Ty} (h : (Host.having name t).Answers u) : u = t := by
  cases h with
  | attr h ht =>
      cases h
      dsimp only at ht
      split at ht
      · exact (Option.some.inj ht).symm
      · cases ht
  | call h | binOp h | iter h => cases h

/-- The types that an alternative is made of, or that its host answers with. -/
def Alt.Contains : Alt → Ty → Prop
  | .custom _ (some host) => host.Answers
  | a => (· ∈ a.parts)

theorem Alt.contains_of_mem_parts {a : Alt} {u : Ty} (h : u ∈ a.parts) : a.Contains u := by
  cases a with
  | custom => cases h
  | _ => exact h

/-- A property holds of a type, of every type inside it and of all that the hosts in it answer. -/
inductive Ty.Throughout (P : Ty → Prop) : Ty → Prop
  | intro {t : Ty} (here : P t) (inside : ∀ a ∈ t.alts, ∀ u, a.Contains u → Ty.Throughout P u) : Ty.Throughout P t

namespace Ty

variable {P : Ty → Prop} {t : Ty} {a : Alt}

theorem Throughout.inside (h : t.Throughout P) (ha : a ∈ t.alts) : ∀ u, a.Contains u → u.Throughout P := by
  cases h with
  | intro _ inside => exact inside a ha

theorem throughout_only_iff :
    (only a).Throughout P ↔ P (only a) ∧ ∀ u, a.Contains u → u.Throughout P := by
  constructor
  · rintro ⟨here, inside⟩
    exact ⟨here, inside a List.mem_cons_self⟩
  · rintro ⟨here, inside⟩
    exact .intro here (List.forall_mem_singleton.mpr inside)

theorem Throughout.everywhere (h : t.Throughout P) : t.Everywhere P := by
  induction h with
  | intro here _ ih => exact .intro here fun a ha u hu => ih a ha u (Alt.contains_of_mem_parts hu)

theorem Invariant.throughout (hP : Invariant (Everywhere P)) : Invariant (Throughout P) where
  alt ht ha := throughout_only_iff.mpr ⟨(hP.alt ht.everywhere ha).here, ht.inside ha⟩
  part ha hu := (throughout_only_iff.mp ha).2 _ (Alt.contains_of_mem_parts hu)
  container {a} ha hparts := by
    refine throughout_only_iff.mpr ⟨(hP.container ha fun u hu => (hparts u hu).everywhere).here, ?_⟩
    cases a with
    | custom => cases ha
    | _ => exact hparts
  ofAlts h := .intro (hP.ofAlts fun a ha => (h a ha).everywhere).here fun a ha =>
    (throughout_only_iff.mp (h a (mem_of_mem_ofAlts ha))).2
  filter keep ht := .intro (hP.filter keep ht.everywhere).here fun _ ha => ht.inside (List.mem_filter.mp ha).1

end Ty

/-- A vocabulary that holds what is put together from its names and types. -/
structure Vocabulary.Closed (v : Vocabulary) : Prop extends Ty.Invariant v.IsType where
  append : ∀ {s t : Text}, v.IsName s → v.IsName t → v.IsName (s ++ t)
  ascii : ∀ {t : Text}, t.isAscii = true → v.IsName t
  quoted : ∀ t : Text, v.IsName (Text.quoted t)
  number : ∀ n : Nat, v.IsName (toString n)
  text : ∀ {t : Ty}, v.IsType t → v.IsName t.text
  any : v.IsType .any
  prim : ∀ p : Primitive, v.IsType (.only (.prim p))
  callable : v.IsType (.function none)
  function : ∀ {sig : Signature}, sig.Within v ↔ v.IsType (.function (some sig))
  record : ∀ {fields : List (Text × Ty)} {isOpen : Bool}, NameMap.IsSorted ⟨fields⟩ →
    (∀ f ∈ fields, v.IsName f.1 ∧ v.IsType f.2) → v.IsType (.only (.struct fields isOpen))
  named : ∀ {name : Text}, v.IsName name → Ty.IsFreeName name → v.IsType (.named name)
  host : ∀ {name : Text} {host : Host}, v.IsType (.only (.custom name (some host))) →
    ∀ t, host.Answers t → v.IsType t

namespace Vocabulary.Closed

variable {v : Vocabulary} (hv : v.Closed)

include hv

/-! ### Types -/

theorem never : v.IsType .never := by
  show v.IsType (.ofAlts [])
  exact hv.ofAlts (List.forall_mem_nil _)

theorem list {t : Ty} (h : v.IsType t) : v.IsType (.list t) :=
  hv.container rfl (List.forall_mem_singleton.mpr h)

theorem tupleOf {t : Ty} (h : v.IsType t) : v.IsType (.tupleOf t) :=
  hv.container rfl (List.forall_mem_singleton.mpr h)

theorem iterable {t : Ty} (h : v.IsType t) : v.IsType (.iterable t) :=
  hv.container rfl (List.forall_mem_singleton.mpr h)

theorem tuple {ts : List Ty} (h : ∀ t ∈ ts, v.IsType t) : v.IsType (.tuple ts) := hv.container rfl h

theorem dict {t u : Ty} (ht : v.IsType t) (hu : v.IsType u) : v.IsType (.dict t u) :=
  hv.container rfl (List.forall_mem_cons.mpr ⟨ht, List.forall_mem_singleton.mpr hu⟩)

theorem union₂ {t u : Ty} (ht : v.IsType t) (hu : v.IsType u) : v.IsType (.union [t, u]) :=
  hv.union (List.forall_mem_cons.mpr ⟨ht, List.forall_mem_singleton.mpr hu⟩)

theorem orAny {t : Ty} (h : v.IsType t) : v.IsType t.orAny := by
  rw [Ty.orAny]
  split
  · exact hv.any
  · exact h

theorem struct {fields : List (Text × Ty)} (h : ∀ f ∈ fields, v.IsName f.1 ∧ v.IsType f.2) (isOpen : Bool) :
    v.IsType (.struct fields isOpen) := by
  have hall : (NameMap.ofList fields).All fun name t => v.IsName name ∧ v.IsType t := NameMap.all_ofList h
  exact hv.record (NameMap.isSorted_ofList fields) hall

theorem iterElem? {a : Alt} {t : Ty} (ha : v.IsType (.only a)) (h : a.iterElem? = some t) : v.IsType t := by
  cases a with
  | any =>
      cases h
      exact hv.any
  | list elem | tupleOf elem | iterable elem | dict elem _ =>
      cases h
      exact hv.part ha List.mem_cons_self
  | tuple elems =>
      cases h
      exact hv.union fun u hu => hv.part ha hu
  | custom name host =>
      cases host with
      | none => cases h
      | some host => exact hv.host ha t (.iter h)
  | _ => cases h

theorem element {t : Ty} (h : v.IsType t) : v.IsType t.element := by
  refine hv.union fun u hu => ?_
  obtain ⟨a, ha, rfl⟩ := List.mem_map.mp hu
  cases hiter : a.iterElem? with
  | none => exact hv.any
  | some u => exact hv.iterElem? (hv.alt h ha) hiter

theorem single? {t : Ty} {a : Alt} (ht : v.IsType t) (h : t.single? = some a) : v.IsType (.only a) := by
  rw [Ty.single?] at h
  split at h
  · next b halts =>
    cases h
    exact hv.alt ht (halts ▸ List.mem_cons_self)
  · cases h

theorem fixedTuple? {t : Ty} {elems : List Ty} (ht : v.IsType t) (h : t.fixedTuple? = some elems) :
    ∀ u ∈ elems, v.IsType u := by
  rw [Ty.fixedTuple?] at h
  split at h
  · next es halts =>
    cases h
    have htuple : v.IsType (.only (.tuple elems)) := hv.alt ht (halts ▸ List.mem_cons_self)
    exact fun u hu => hv.part htuple hu
  · cases h

theorem getD_any {o : Option Ty} (h : ∀ t, o = some t → v.IsType t) : v.IsType (o.getD .any) := by
  cases o with
  | none => exact hv.any
  | some t => exact h t rfl

theorem ofName {name : Text} {args : List Ty} (hname : v.IsName name) (hargs : ∀ t ∈ args, v.IsType t)
    (variadic : Bool) : v.IsType (.ofName name args variadic) := by
  have harg : ∀ i, v.IsType (args[i]?.getD .any) := fun i =>
    hv.getD_any fun t ht => hargs t (List.mem_of_getElem? ht)
  unfold Ty.ofName
  split
  all_goals try first
    | exact hv.prim _
    | exact hv.any
    | exact hv.never
    | exact hv.callable
    | exact hv.list (harg 0)
    | exact hv.dict (harg 0) (harg 1)
    | exact hv.iterable (harg 0)
    | exact hv.struct (List.forall_mem_nil _) true
  -- What is left are the three names of tuples and the free names.
  iterate 3
    split
    · exact hv.tupleOf hv.any
    · split
      · exact hv.tupleOf (hargs _ List.mem_cons_self)
      · exact hv.tuple hargs
    · exact hv.tuple hargs
  · refine hv.named hname ?_
    unfold Ty.IsFreeName Ty.ofName
    split <;> first | rfl | contradiction

/-! ### Signatures -/

/-- The types of the parameters of a signature are made anew from those that are given. -/
theorem make {params : List Param} {result : Ty} {sig : Signature} (hparams : ∀ p ∈ params, p.Within v)
    (hresult : v.IsType result) (h : Signature.make params result = .ok sig) : sig.Within v := by
  rw [Signature.make] at h
  split at h
  · cases h
  · cases h
    refine ⟨fun p hp => ?_, hresult⟩
    obtain ⟨q, hq, rfl⟩ := List.mem_map.mp hp
    exact ⟨(hparams q hq).name, hv.orAny (hparams q hq).type⟩

theorem functionOf {sig : Option Signature} (h : ∀ s, sig = some s → s.Within v) : v.IsType (.function sig) := by
  cases sig with
  | none => exact hv.callable
  | some sig => exact hv.function.mp (h sig rfl)

/-! ### Texts -/

theorem embed {s t name : Text} (hs : v.IsName s) (hname : v.IsName name) (ht : t.isAscii = true) :
    v.IsName (s ++ name ++ t) :=
  hv.append (hv.append hs hname) (hv.ascii ht)

theorem altText {a : Alt} (h : v.IsType (.only a)) : v.IsName a.text := by
  have htext : (Ty.only a).text = a.text := rfl
  rw [← htext]
  exact hv.text h

theorem signatureMessage (e : SignatureError) : v.IsName e.message := by
  cases e with
  | outOfOrder name mode =>
      refine hv.embed (hv.embed (hv.ascii rfl) (hv.quoted name) rfl) ?_ rfl
      cases mode <;> exact hv.ascii rfl
  | repeatedCollector name => exact hv.embed (hv.ascii rfl) (hv.quoted name) rfl
  | duplicate name => exact hv.append (hv.ascii rfl) (hv.quoted name)

end Vocabulary.Closed

theorem Signature.Within.withResult {v : Vocabulary} {sig : Signature} (h : sig.Within v) {result : Ty}
    (hresult : v.IsType result) : (sig.withResult result).Within v :=
  ⟨h.params, hresult⟩

/-! ### Reports -/

structure TypingError.Within (v : Vocabulary) (e : TypingError) : Prop where
  message : v.IsName e.message
  param : v.IsName e.param
  expected : v.IsType e.expected
  found : v.IsType e.found

structure Approximation.Within (v : Vocabulary) (a : Approximation) : Prop where
  category : v.IsName a.category
  message : v.IsName a.message

/-- An interface within a vocabulary; its names stand in order. -/
structure Interface.Within (v : Vocabulary) (i : Interface) : Prop where
  sorted : i.exports.IsSorted
  exports : i.exports.All fun name t => v.IsName name ∧ v.IsType t

namespace TypingError

variable {v : Vocabulary}

theorem Within.located {e : TypingError} (h : e.Within v) (span : Span) : (e.located span).Within v :=
  ⟨h.message, h.param, h.expected, h.found⟩

variable (hv : v.Closed)

include hv

theorem within_notSupportedAttribute {recv : Ty} {attr : Text} (ht : v.IsType recv) (hattr : v.IsName attr) :
    (notSupportedAttribute recv attr).Within v where
  message := hv.embed (hv.embed (hv.ascii rfl) (hv.text ht) rfl) hattr rfl
  param := hattr
  expected := hv.never
  found := ht

theorem within_notCallable {t : Ty} (ht : v.IsType t) : (notCallable t).Within v where
  message := hv.embed (hv.ascii rfl) (hv.text ht) rfl
  param := hv.ascii rfl
  expected := hv.never
  found := ht

theorem within_incompatibleBinOp {op : Text} {left right : Ty} (hop : v.IsName op) (hleft : v.IsType left)
    (hright : v.IsType right) : (incompatibleBinOp op left right).Within v where
  message := hv.embed (hv.embed (hv.embed (hv.ascii rfl) hop rfl) (hv.text hleft) rfl) (hv.text hright) rfl
  param := hop
  expected := hleft
  found := hright

theorem within_incompatibleUnOp {op : Text} {operand : Ty} (hop : v.IsName op) (ht : v.IsType operand) :
    (incompatibleUnOp op operand).Within v where
  message := hv.embed (hv.embed (hv.ascii rfl) hop rfl) (hv.text ht) rfl
  param := hop
  expected := hv.never
  found := ht

theorem within_notIterable {t : Ty} (ht : v.IsType t) : (notIterable t).Within v where
  message := hv.embed (hv.ascii rfl) (hv.text ht) rfl
  param := hv.ascii (t := "iter") rfl
  expected := hv.never
  found := ht

theorem within_incompatibleAssignment {declared found : Ty} (hdeclared : v.IsType declared)
    (hfound : v.IsType found) : (incompatibleAssignment declared found).Within v where
  message := hv.embed (hv.embed (hv.ascii rfl) (hv.text hdeclared) rfl) (hv.text hfound) rfl
  param := hv.ascii rfl
  expected := hdeclared
  found := hfound

theorem within_notInScope {name : Text} (hname : v.IsName name) : (notInScope name).Within v where
  message := hv.embed (hv.ascii rfl) hname rfl
  param := hname
  expected := hv.never
  found := hv.never

end TypingError

end Gradual
