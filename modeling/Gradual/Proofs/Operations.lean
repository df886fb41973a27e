import Gradual.Oracle.Rules
import Gradual.Proofs.Vocabulary

/-! Operations stay within a vocabulary: the type of an attribute, an operator, an index, an iteration or a
call, and whatever is reported about it, if the operands and the answers of the oracle are within it. -/

namespace Gradual

structure Arg.Within (v : Vocabulary) (arg : Arg) : Prop where
  type : v.IsType arg.type
  name : ∀ name t, arg.named? = some (name, t) → v.IsName name

/-- An oracle that answers within a vocabulary when it is asked within it. -/
structure Oracle.Within (v : Vocabulary) (o : Oracle) : Prop where
  attr : ∀ {a name t}, v.IsType (.only a) → v.IsName name → o.attr a name = .known t → v.IsType t
  binOp : ∀ {op a b t}, v.IsName op → v.IsType (.only a) → v.IsType (.only b) → o.binOp op a b = .known t →
    v.IsType t
  signature : ∀ {name sig}, v.IsName name → o.signature name = some sig → sig.Within v
  unOp : ∀ {ask op a t}, o.unOp = some ask → v.IsName op → v.IsType (.only a) → ask op a = .known t → v.IsType t
  refine : ∀ {ask name args t}, o.refine = some ask → v.IsName name → (∀ arg ∈ args, Arg.Within v arg) →
    ask name args = some t → v.IsType t

/-- Whether a vocabulary has a custom type that goes by the name of tuples. -/
def Vocabulary.MayBreak (v : Vocabulary) : Prop := ∃ host, v.IsType (.only (.custom "tuple" host))

/-- An oracle within a vocabulary that breaks only if some custom type goes by the name of tuples. -/
structure Oracle.Guarded (v : Vocabulary) (o : Oracle) : Prop extends Oracle.Within v o where
  attr_broken : ∀ {a name}, v.IsType (.only a) → v.IsName name → o.attr a name = .broken → v.MayBreak
  binOp_broken : ∀ {op a b}, v.IsName op → v.IsType (.only a) → v.IsType (.only b) → o.binOp op a b = .broken →
    v.MayBreak
  unOp_broken : ∀ {ask op a}, o.unOp = some ask → v.IsName op → v.IsType (.only a) → ask op a = .broken →
    v.MayBreak

/-! ### Matching calls -/

namespace Call

variable {v : Vocabulary}

structure Slot.Within (v : Vocabulary) (s : Slot) : Prop where
  param : s.param.Within v
  arg : ∀ t, s.arg = some t → v.IsType t

structure Binding.Within (v : Vocabulary) (b : Binding) : Prop where
  slots : ∀ s ∈ b.slots, s.Within v
  repeated : ∀ name ∈ b.repeated, v.IsName name
  strayNamed : ∀ a ∈ b.strayNamed, v.IsName a.1 ∧ v.IsType a.2
  surplus : ∀ t ∈ b.surplus, v.IsType t

theorem within_landNamed {name : Text} {t : Ty} {slots landed : List Slot} (ht : v.IsType t)
    (hslots : ∀ s ∈ slots, s.Within v) (h : landNamed name t slots = .bound landed) :
    ∀ s ∈ landed, s.Within v := by
  induction slots generalizing landed with
  | nil => cases h
  | cons s rest ih =>
      obtain ⟨hs, hrest⟩ := List.forall_mem_cons.mp hslots
      rw [landNamed] at h
      split at h
      · split at h
        · cases h
        · cases h
          refine List.forall_mem_cons.mpr ⟨⟨hs.param, fun u hu => ?_⟩, hrest⟩
          cases hu
          exact ht
      · split at h
        · next hbound =>
          cases h
          exact List.forall_mem_cons.mpr ⟨hs, ih hrest hbound⟩
        · next hother =>
          exact absurd h (hother landed)

theorem within_bindNamed {b : Binding} {arg : Text × Ty} (hb : b.Within v) (hname : v.IsName arg.1)
    (ht : v.IsType arg.2) : (bindNamed b arg).Within v := by
  rw [bindNamed]
  split
  · next hland => exact { hb with slots := within_landNamed ht hb.slots hland }
  · exact { hb with repeated := List.forall_mem_append.mpr ⟨hb.repeated, List.forall_mem_singleton.mpr hname⟩ }
  · exact { hb with
      strayNamed := List.forall_mem_append.mpr ⟨hb.strayNamed, List.forall_mem_singleton.mpr ⟨hname, ht⟩⟩ }

theorem within_foldl_bindNamed {named : List (Text × Ty)} {b : Binding} (hb : b.Within v)
    (hnamed : ∀ a ∈ named, v.IsName a.1 ∧ v.IsType a.2) : (named.foldl bindNamed b).Within v :=
  List.foldlRecOn named _ hb fun _ hb a ha => within_bindNamed hb (hnamed a ha).1 (hnamed a ha).2

theorem within_fillPositional {slots : List Slot} {ts : List Ty} (hslots : ∀ s ∈ slots, s.Within v)
    (hts : ∀ t ∈ ts, v.IsType t) :
    (∀ s ∈ (fillPositional slots ts).1, s.Within v) ∧ ∀ t ∈ (fillPositional slots ts).2, v.IsType t := by
  fun_induction fillPositional slots ts with
  | case1 slots => exact ⟨hslots, hts⟩
  | case2 ts => exact ⟨hslots, hts⟩
  | case3 s rest t ts _ _ _ slots surplus heq ih =>
      obtain ⟨hs, hrest⟩ := List.forall_mem_cons.mp hslots
      rw [heq] at ih
      exact ⟨List.forall_mem_cons.mpr ⟨hs, (ih hrest hts).1⟩, (ih hrest hts).2⟩
  | case4 s rest t ts _ _ slots surplus heq ih =>
      obtain ⟨hs, hrest⟩ := List.forall_mem_cons.mp hslots
      obtain ⟨ht, hts⟩ := List.forall_mem_cons.mp hts
      rw [heq] at ih
      refine ⟨List.forall_mem_cons.mpr ⟨⟨hs.param, fun u hu => ?_⟩, (ih hrest hts).1⟩, (ih hrest hts).2⟩
      cases hu
      exact ht
  | case5 s rest t ts => exact ⟨hslots, hts⟩

section Problems

variable (hv : v.Closed) {params : List Param} {args : List Arg}

include hv

theorem within_positionals (hargs : ∀ arg ∈ args, arg.Within v) :
    ∀ t ∈ args.flatMap Arg.positionals, v.IsType t := by
  intro t ht
  obtain ⟨arg, harg, ht⟩ := List.mem_flatMap.mp ht
  have htype := (hargs arg harg).type
  cases arg with
  | positional u => exact List.mem_singleton.mp ht ▸ htype
  | named name u => cases ht
  | doubleSplat u => cases ht
  | splat u =>
      -- A tuple of known length is spread over its elements.
      have ht : t ∈ u.fixedTuple?.getD [] := ht
      cases helems : u.fixedTuple? with
      | none =>
          rw [helems] at ht
          cases ht
      | some elems =>
          rw [helems] at ht
          exact hv.fixedTuple? htype helems t ht

theorem within_bind (hparams : ∀ p ∈ params, p.Within v) (hargs : ∀ arg ∈ args, arg.Within v) :
    (bind params args).Within v := by
  have hnamed : ∀ a ∈ args.filterMap Arg.named?, v.IsName a.1 ∧ v.IsType a.2 := by
    rintro ⟨name, t⟩ h
    obtain ⟨arg, harg, hname⟩ := List.mem_filterMap.mp h
    refine ⟨(hargs arg harg).name name t hname, ?_⟩
    cases arg with
    | named _ u =>
        cases hname
        exact (hargs _ harg).type
    | _ => cases hname
  have hstart : Binding.Within v ⟨params.map fun p => ⟨p, none⟩, [], [], []⟩ := by
    refine ⟨fun s hs => ?_, fun _ h => ?_, fun _ h => ?_, fun _ h => ?_⟩
    · obtain ⟨p, hp, rfl⟩ := List.mem_map.mp hs
      exact ⟨hparams p hp, fun _ h => by cases h⟩
    all_goals exact absurd h List.not_mem_nil
  have hbound := within_foldl_bindNamed hstart hnamed
  have hfilled := within_fillPositional hbound.slots (within_positionals hv hargs)
  exact { hbound with slots := hfilled.1, surplus := hfilled.2 }

theorem within_unexpected {name : Text} (hname : v.IsName name) : (unexpected name).Within v where
  message := hv.embed (hv.ascii rfl) hname rfl
  param := hname
  expected := hv.never
  found := hv.never

theorem within_multiple {name : Text} (hname : v.IsName name) : (multiple name).Within v where
  message := hv.embed (hv.ascii rfl) hname rfl
  param := hname
  expected := hv.never
  found := hv.never

theorem within_missing {p : Param} (hp : p.Within v) : (missing p).Within v where
  message := hv.embed (hv.ascii rfl) hp.name rfl
  param := hp.name
  expected := hp.type
  found := hv.never

theorem within_tooMany (capacity given : Nat) : (tooMany capacity given).Within v where
  message := hv.append (hv.embed (hv.ascii rfl) (hv.number capacity) rfl) (hv.number given)
  param := hv.ascii rfl
  expected := hv.never
  found := hv.never

theorem within_mismatch {p : Param} {found : Ty} (hp : p.Within v) (hfound : v.IsType found) :
    (mismatch p found).Within v where
  message := hv.embed (hv.embed (hv.embed (hv.ascii rfl) hp.name rfl) (hv.text hp.type) rfl) (hv.text hfound) rfl
  param := hp.name
  expected := hp.type
  found := hfound

theorem within_checkArg {p : Param} {found : Ty} (hp : p.Within v) (hfound : v.IsType found) :
    ∀ e ∈ checkArg p found, e.Within v := by
  rw [checkArg]
  split
  · exact List.forall_mem_nil _
  · exact List.forall_mem_singleton.mpr (within_mismatch hv hp hfound)

theorem within_checkSlot {b : Binding} {s : Slot} (hb : b.Within v) (hs : s.Within v) :
    ∀ e ∈ checkSlot b s, e.Within v := by
  intro e he
  rw [checkSlot] at he
  split at he
  · next t ht => exact within_checkArg hv hs.param (hs.arg t ht) e he
  · split at he
    · obtain ⟨t, ht, he⟩ := List.mem_flatMap.mp he
      exact within_checkArg hv hs.param (hb.surplus t ht) e he
    · obtain ⟨a, ha, he⟩ := List.mem_flatMap.mp he
      exact within_checkArg hv hs.param (hb.strayNamed a (mem_sortByName.mp ha)).2 e he
    · cases he

theorem within_problems (hparams : ∀ p ∈ params, p.Within v) (hargs : ∀ arg ∈ args, arg.Within v) :
    ∀ e ∈ problems params args, e.Within v := by
  have hb := within_bind hv hparams hargs
  have hnone : ∀ e ∈ ([] : List TypingError), e.Within v := List.forall_mem_nil _
  simp only [problems, List.forall_mem_append, List.forall_mem_map]
  refine ⟨⟨⟨⟨?_, ?_⟩, fun name h => ?_⟩, fun s h => ?_⟩, fun e he => ?_⟩
  · split
    · exact List.forall_mem_singleton.mpr (within_tooMany hv _ _)
    · exact hnone
  · split
    · exact hnone
    · refine List.forall_mem_map.mpr fun name h => ?_
      obtain ⟨a, ha, rfl⟩ := List.mem_map.mp (mem_sortedDistinct.mp h)
      exact within_unexpected hv (hb.strayNamed a ha).1
  · exact within_multiple hv (hb.repeated name (mem_sortedDistinct.mp h))
  · exact within_missing hv (hb.slots s (List.mem_filter.mp h).1).param
  · obtain ⟨s, hs, he⟩ := List.mem_flatMap.mp he
    exact within_checkSlot hv hb (hb.slots s hs) e he

end Problems

end Call

/-! ### Verdicts and judgements -/

structure Verdict.Within (v : Vocabulary) (x : Verdict) : Prop where
  type : ∀ t, x.type = some t → v.IsType t
  approximations : ∀ a ∈ x.approximations, a.Within v
  broken : x.broken = true → v.MayBreak

structure Judgement.Within (v : Vocabulary) (j : Judgement) : Prop where
  type : v.IsType j.type
  errors : ∀ e ∈ j.errors, e.Within v
  approximations : ∀ a ∈ j.approximations, a.Within v
  broken : j.broken = true → v.MayBreak

namespace Verdict

variable {v : Vocabulary} {t : Ty}

theorem within_of_type {o : Option Ty} (h : ∀ t, o = some t → v.IsType t) : Verdict.Within v ⟨o, [], false⟩ :=
  ⟨h, List.forall_mem_nil _, fun h => absurd h Bool.false_ne_true⟩

theorem within_ok (h : v.IsType t) : (ok t).Within v := by
  refine within_of_type fun u hu => ?_
  cases hu
  exact h

theorem within_failed : failed.Within v := within_of_type fun _ h => by cases h

theorem within_when (condition : Bool) (h : v.IsType t) : (when condition t).Within v := by
  rw [when]
  split
  · exact within_ok h
  · exact within_failed

variable (hv : v.Closed) {category message : Text}

include hv

theorem within_approximate (hcategory : category.isAscii = true) (hmessage : v.IsName message) (span : Span) :
    (approximate category message span).Within v := by
  refine ⟨fun u hu => ?_, List.forall_mem_singleton.mpr ⟨hv.ascii hcategory, hmessage⟩,
    fun h => absurd h Bool.false_ne_true⟩
  cases hu
  exact hv.any

theorem within_ofFact {fact : Fact} (hfact : ∀ t, fact = .known t → v.IsType t)
    (hbroken : fact = .broken → v.MayBreak) (hcategory : category.isAscii = true) (hmessage : v.IsName message)
    (span : Span) : (ofFact fact category message span).Within v := by
  cases fact with
  | known t => exact within_ok (hfact t rfl)
  | unsupported => exact within_failed
  | unknown => exact within_approximate hv hcategory hmessage span
  | broken =>
      refine ⟨fun u hu => ?_, List.forall_mem_nil _, fun _ => hbroken rfl⟩
      cases hu
      exact hv.any

end Verdict

theorem Judgement.within_of_type {v : Vocabulary} {t : Ty} (h : v.IsType t) : Judgement.Within v { type := t } :=
  ⟨h, List.forall_mem_nil _, List.forall_mem_nil _,
    fun h => absurd h Bool.false_ne_true⟩

namespace Rules

variable {v : Vocabulary} (hv : v.Closed) {r : Rules} (span : Span)

include hv

theorem within_settle {verdicts : List Verdict} {error : TypingError} (hverdicts : ∀ x ∈ verdicts, x.Within v)
    (herror : error.Within v) : (r.settle verdicts error span).Within v := by
  have htypes : ∀ t ∈ verdicts.filterMap (·.type), v.IsType t := by
    intro t ht
    obtain ⟨x, hx, ht⟩ := List.mem_filterMap.mp ht
    exact (hverdicts x hx).type t ht
  refine ⟨?_, ?_, fun a ha => ?_, fun h => ?_⟩
  · dsimp only [settle]
    split
    · exact hv.any
    · exact hv.union htypes
  · dsimp only [settle]
    split
    · exact List.forall_mem_singleton.mpr (herror.located span)
    · exact List.forall_mem_nil _
  · obtain ⟨x, hx, ha⟩ := List.mem_flatMap.mp ha
    exact (hverdicts x hx).approximations a ha
  · obtain ⟨x, hx, hbroken⟩ := List.any_eq_true.mp h
    exact (hverdicts x hx).broken hbroken

theorem within_settle_alts {t : Ty} {verdict : Alt → Verdict} {error : TypingError} (ht : v.IsType t)
    (hverdict : ∀ a, v.IsType (.only a) → (verdict a).Within v) (herror : error.Within v) :
    (r.settle (t.alts.map verdict) error span).Within v := by
  refine within_settle hv span (List.forall_mem_map.mpr fun a ha => ?_) herror
  exact hverdict a (hv.alt ht ha)

omit hv in
theorem isType_of_lookup {fields : List (Text × Ty)} {name : Text} {t : Ty}
    (hfields : ∀ f ∈ fields, v.IsType f.2) (h : fields.lookup name = some t) : v.IsType t := by
  have hall : NameMap.All (fun _ t => v.IsType t) ⟨fields⟩ := hfields
  exact hall.get? h

section Answers

variable (ho : r.oracle.Guarded v)

include ho

theorem within_attrOf {a : Alt} {name : Text} (ha : v.IsType (.only a)) (hname : v.IsName name) :
    (r.attrOf a name span).Within v := by
  have hask : (Verdict.ofFact (r.oracle.attr a name) "attribute"
      ("attribute `" ++ name ++ "` of `" ++ a.text ++ "` is not known") span).Within v :=
    Verdict.within_ofFact hv (fun _ ht => ho.attr ha hname ht) (fun hb => ho.attr_broken ha hname hb) rfl
      (hv.embed (hv.embed (hv.ascii rfl) hname rfl) (hv.altText ha) rfl) span
  unfold attrOf
  dsimp only
  split
  · exact Verdict.within_ok hv.any
  · next fields isOpen =>
    split
    · next t hlookup =>
      refine Verdict.within_ok (isType_of_lookup (fun f hf => ?_) hlookup)
      exact hv.part ha (List.mem_map_of_mem hf)
    · exact Verdict.within_when isOpen hv.any
  · exact Verdict.within_of_type fun t ht => hv.host ha t (.attr rfl ht)
  · exact hask

theorem within_attr {recv : Ty} {name : Text} (ht : v.IsType recv) (hname : v.IsName name) :
    (r.attr recv name span).Within v := by
  rw [attr]
  split
  · exact Judgement.within_of_type hv.never
  · exact within_settle_alts hv span ht (fun a ha => within_attrOf hv span ho ha hname)
      (TypingError.within_notSupportedAttribute hv ht hname)

theorem within_binOpOf {op : Text} {left right : Alt} (hop : v.IsName op) (hleft : v.IsType (.only left))
    (hright : v.IsType (.only right)) : (r.binOpOf op left right span).Within v := by
  unfold binOpOf
  split
  · exact Verdict.within_ok hv.any
  · split
    · exact Verdict.within_of_type fun t ht => hv.host hleft t (.binOp rfl ht)
    · refine Verdict.within_ofFact hv (fun _ ht => ho.binOp hop hleft hright ht)
        (fun hb => ho.binOp_broken hop hleft hright hb) rfl ?_ span
      exact hv.embed (hv.embed (hv.embed (hv.ascii rfl) hop rfl) (hv.altText hleft) rfl) (hv.altText hright) rfl

theorem within_binOp {op : Text} {left right : Ty} (hop : v.IsName op) (hleft : v.IsType left)
    (hright : v.IsType right) : (r.binOp op left right span).Within v := by
  rw [binOp]
  split
  · exact Judgement.within_of_type hv.never
  · split
    · exact Judgement.within_of_type (hv.prim .bool)
    · refine within_settle hv span (fun x hx => ?_) (TypingError.within_incompatibleBinOp hv hop hleft hright)
      obtain ⟨a, ha, hx⟩ := List.mem_flatMap.mp hx
      obtain ⟨b, hb, rfl⟩ := List.mem_map.mp hx
      exact within_binOpOf hv span ho hop (hv.alt hleft ha) (hv.alt hright hb)

theorem within_unOpOf {op : Text} {operand : Alt} (hop : v.IsName op) (ha : v.IsType (.only operand)) :
    (r.unOpOf op operand span).Within v := by
  rw [unOpOf]
  split
  · exact Verdict.within_ok hv.any
  · refine Verdict.within_ofFact hv (fun t ht => ?_) (fun hb => ?_) rfl
      (hv.embed (hv.embed (hv.ascii rfl) hop rfl) (hv.altText ha) rfl) span
    · rw [Oracle.askUnOp] at ht
      split at ht
      · next ask hask => exact ho.unOp hask hop ha ht
      · cases ht
    · rw [Oracle.askUnOp] at hb
      split at hb
      · next ask hask => exact ho.unOp_broken hask hop ha hb
      · cases hb

theorem within_unOp {op : Text} {operand : Ty} (hop : v.IsName op) (ht : v.IsType operand) :
    (r.unOp op operand span).Within v := by
  rw [unOp]
  split
  · exact Judgement.within_of_type (hv.prim .bool)
  · split
    · exact Judgement.within_of_type hv.never
    · exact within_settle_alts hv span ht (fun a ha => within_unOpOf hv span ho hop ha)
        (TypingError.within_incompatibleUnOp hv hop ht)

theorem within_indexCustom {a : Alt} {indices : List Alt} (ha : v.IsType (.only a))
    (hindices : ∀ i ∈ indices, v.IsType (.only i)) : (r.indexCustom a span indices).Within v := by
  induction indices with
  | nil => exact Verdict.within_ok hv.never
  | cons i rest ih =>
      obtain ⟨hi, hrest⟩ := List.forall_mem_cons.mp hindices
      have hfirst := within_binOpOf hv span ho (hv.ascii (t := "[]") rfl) ha hi
      rw [indexCustom]
      split
      · exact hfirst
      · next t ht =>
        refine ⟨fun w hw => ?_, List.forall_mem_append.mpr ⟨hfirst.approximations, (ih hrest).approximations⟩,
          fun h => (Bool.or_eq_true_iff.mp h).elim hfirst.broken (ih hrest).broken⟩
        obtain ⟨u, hu, rfl⟩ := Option.map_eq_some_iff.mp hw
        exact hv.union₂ (hfirst.type t ht) ((ih hrest).type u hu)

theorem within_indexOf {a : Alt} {index : Ty} (constant : Option Int) (ha : v.IsType (.only a))
    (hindex : v.IsType index) : (r.indexOf a index constant span).Within v := by
  cases a with
  | any => exact Verdict.within_ok hv.any
  | list elem | tupleOf elem => exact Verdict.within_when _ (hv.part ha List.mem_cons_self)
  | tuple elems =>
      refine Verdict.within_when _ ?_
      cases helem : elementAt? elems constant with
      | none => exact hv.union fun t ht => hv.part ha ht
      | some t =>
          obtain ⟨i, -, hi⟩ := Option.bind_eq_some_iff.mp helem
          exact hv.part ha (List.mem_of_getElem? (Option.ite_none_left_eq_some.mp hi).2)
  | dict key value => exact Verdict.within_when _ (hv.part ha mem_second)
  | prim p => exact Verdict.within_when _ (hv.prim .str)
  | function _ | struct _ _ | iterable _ => exact Verdict.within_failed
  | custom name host => exact within_indexCustom hv span ho ha fun i hi => hv.alt hindex hi

theorem within_index {value index : Ty} (constant : Option Int) (hvalue : v.IsType value)
    (hindex : v.IsType index) : (r.index value index constant span).Within v := by
  rw [Rules.index]
  split
  · exact Judgement.within_of_type hv.never
  · exact within_settle_alts hv span hvalue (fun a ha => within_indexOf hv span ho constant ha hindex)
      (TypingError.within_incompatibleBinOp hv (hv.ascii rfl) hvalue hindex)

end Answers

theorem within_sliceOf {a : Alt} (ha : v.IsType (.only a)) : (sliceOf a span).Within v := by
  cases a with
  | any | list _ => exact Verdict.within_ok ha
  | tuple elems => exact Verdict.within_ok (hv.tupleOf (hv.union fun t ht => hv.part ha ht))
  | tupleOf elem => exact Verdict.within_ok ha
  | prim p => exact Verdict.within_when _ (hv.prim .str)
  | custom name host => exact Verdict.within_approximate hv rfl (hv.embed (hv.ascii rfl) (hv.altText ha) rfl) span
  | _ => exact Verdict.within_failed

theorem within_slice {value : Ty} (ht : v.IsType value) : (r.slice value span).Within v := by
  rw [slice]
  split
  · exact Judgement.within_of_type hv.never
  · exact within_settle_alts hv span ht (fun a ha => within_sliceOf hv span ha)
      (TypingError.within_incompatibleBinOp hv (hv.ascii rfl) ht hv.any)

theorem within_iterOf {a : Alt} (ha : v.IsType (.only a)) : (iterOf a span).Within v := by
  unfold iterOf
  split
  · next hiter => exact Verdict.within_ok (hv.iterElem? ha hiter)
  · exact Verdict.within_approximate hv rfl (hv.embed (hv.ascii rfl) (hv.altText ha) rfl) span
  · exact Verdict.within_failed

theorem within_iter {t : Ty} (ht : v.IsType t) : (r.iter t span).Within v := by
  rw [iter]
  split
  · exact Judgement.within_of_type hv.never
  · exact within_settle_alts hv span ht (fun a ha => within_iterOf hv span ha)
      (TypingError.within_notIterable hv ht)

/-! ### Calls -/

theorem within_callableOf {a : Alt} {sig : Signature} (ha : v.IsType (.only a))
    (h : callableOf a = .checked sig) : sig.Within v := by
  unfold callableOf at h
  split at h
  · cases h
  · cases h
    exact hv.function.mpr ha
  · cases h
  · cases h
  · cases h
    exact hv.function.mpr (hv.host ha _ (.call rfl))
  · cases h
  · cases h

theorem within_callOf {a : Alt} (ha : v.IsType (.only a)) : (callOf a span).Within v := by
  rw [callOf]
  split
  · exact Verdict.within_failed
  · exact Verdict.within_approximate hv rfl (hv.embed (hv.ascii rfl) (hv.altText ha) rfl) span
  · next hcall => exact Verdict.within_ok (within_callableOf hv ha hcall).result

theorem within_callProblems {a : Alt} {args : List Arg} (ha : v.IsType (.only a))
    (hargs : ∀ arg ∈ args, arg.Within v) : ∀ e ∈ callProblems args a, e.Within v := by
  rw [callProblems]
  split
  · next hcall => exact Call.within_problems hv (within_callableOf hv ha hcall).params hargs
  · exact List.forall_mem_nil _

omit hv in
theorem mem_of_mem_distinctErrors {seen : List (ErrorKind × Text)} {errors : List TypingError} {e : TypingError}
    (h : e ∈ distinctErrors seen errors) : e ∈ errors := by
  induction errors generalizing seen with
  | nil => exact h
  | cons e' rest ih =>
      rw [distinctErrors] at h
      split at h
      · exact List.mem_cons_of_mem e' (ih h)
      · rcases List.mem_cons.mp h with rfl | h
        · exact List.mem_cons_self
        · exact List.mem_cons_of_mem e' (ih h)

theorem within_call {callee : Ty} {args : List Arg} (ht : v.IsType callee) (hargs : ∀ arg ∈ args, arg.Within v) :
    (r.call callee args span).Within v := by
  rw [call]
  split
  · exact Judgement.within_of_type hv.never
  · have hsettled : (r.settle (callee.alts.map fun a => callOf a span) (.notCallable callee) span).Within v :=
      within_settle_alts hv span ht (fun a ha => within_callOf hv span ha) (TypingError.within_notCallable hv ht)
    refine { hsettled with errors := List.forall_mem_append.mpr ⟨?_, hsettled.errors⟩ }
    refine List.forall_mem_map.mpr fun e he => ?_
    obtain ⟨a, ha, he⟩ := List.mem_flatMap.mp (mem_of_mem_distinctErrors he)
    exact (within_callProblems hv (hv.alt ht ha) hargs e he).located span

theorem within_callBuiltin (ho : r.oracle.Within v) {name : Text} {sig : Signature} {args : List Arg}
    (hname : v.IsName name) (hsig : sig.Within v) (hargs : ∀ arg ∈ args, arg.Within v) :
    (r.callBuiltin name sig args span).Within v := by
  have hcalled : (r.call (.function (some sig)) args span).Within v :=
    within_call hv span (hv.function.mp hsig) hargs
  rw [callBuiltin]
  split
  · next t ht =>
    obtain ⟨ask, hask, ht⟩ := Option.bind_eq_some_iff.mp ht
    exact { hcalled with type := ho.refine hask hname hargs ht }
  · exact hcalled

end Rules

end Gradual
