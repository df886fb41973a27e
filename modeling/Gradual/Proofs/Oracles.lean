import Gradual.Oracle.Docs
import Gradual.Oracle.Standard
import Gradual.Proofs.Operations

/-! The oracles of the library answer within every closed vocabulary: the standard one, since what it answers
of itself is put together from plain types, descriptions whose names and types are within the vocabulary, and
chains of such oracles. -/

namespace Gradual

variable {v : Vocabulary}

/-! ### Plain types -/

/-- An alternative that is no custom type and whose names are ASCII. -/
def Alt.isBasic : Alt → Bool
  | .custom _ _ => false
  | .struct fields _ => fields.all fun f => f.1.isAscii
  | .function (some sig) => sig.params.all fun p => p.name.isAscii
  | _ => true

/-- A normal type without custom types whose names are ASCII, as far as `depth` tells. -/
def Ty.isBasic (depth : Nat) (t : Ty) : Bool :=
  t.holdsInside (fun t => t.IsNormalUnion ∧ ∀ a ∈ t.alts, a.isBasic = true) depth

theorem Vocabulary.Closed.isType_of_isBasic (hv : v.Closed) (depth : Nat) {t : Ty} (h : t.isBasic depth = true) :
    v.IsType t := by
  have hall := Ty.everywhere_of_holdsInside depth h
  clear h
  induction hall with
  | @intro t here _ ih =>
      rw [← Ty.ofAlts_alts here.1]
      refine hv.ofAlts fun a ha => ?_
      have hbasic := here.2 a ha
      have hparts := ih a ha
      cases a with
      | any => exact hv.any
      | prim p => exact hv.prim p
      | list | tuple | tupleOf | dict | iterable => exact hv.container rfl hparts
      | function sig =>
          cases sig with
          | none => exact hv.callable
          | some sig =>
              obtain ⟨hresult, hparams⟩ := List.forall_mem_cons.mp hparts
              refine hv.function.mp ⟨fun p hp => ⟨hv.ascii ?_, hparams p.type (List.mem_map_of_mem hp)⟩, hresult⟩
              exact List.all_eq_true.mp hbasic p hp
      | struct fields isOpen =>
          refine hv.record (here.1.fields fields isOpen ha) fun f hf => ⟨hv.ascii ?_, ?_⟩
          · exact List.all_eq_true.mp hbasic f hf
          · exact hparts f.2 (List.mem_map_of_mem hf)
      | custom name host => cases hbasic

/-! ### The standard oracle -/

/-! ### Arguments -/

namespace Arg

variable {P : Ty → Prop} {args : List Arg}

theorem forall_positional (h : ∀ arg ∈ args, P arg.type) : ∀ t ∈ args.filterMap positional?, P t := by
  intro t ht
  obtain ⟨arg, harg, hpositional⟩ := List.mem_filterMap.mp ht
  cases arg <;> cases hpositional
  exact h _ harg

theorem forall_named (h : ∀ arg ∈ args, P arg.type) : ∀ t ∈ (args.filterMap named?).map (·.2), P t := by
  refine List.forall_mem_map.mpr fun a ha => ?_
  obtain ⟨arg, harg, hnamed⟩ := List.mem_filterMap.mp ha
  cases arg <;> cases hnamed
  exact h _ harg

end Arg

namespace Standard

variable {name op : Text} {t : Ty} {a recv : Alt}

theorem invariant_refineBy {P : Ty → Prop} (hP : Ty.Invariant P) (hprim : ∀ p, P (.only (.prim p)))
    {positional named : List Ty} (hpositional : ∀ u ∈ positional, P u) (helements : ∀ u ∈ positional, P u.element)
    (hnamed : ∀ u ∈ named, P u) (h : refineBy name positional named = some t) : P t := by
  have hlist {u : Ty} (hu : P u) : P (.list u) := hP.container rfl (List.forall_mem_singleton.mpr hu)
  have htuple {us : List Ty} (hus : ∀ u ∈ us, P u) : P (.tuple us) := hP.container rfl hus
  unfold refineBy at h
  split at h
  case h_13 =>
    unfold refineDict at h
    split at h
    · next key value halts =>
      cases h
      exact hP.alt (hpositional _ List.mem_cons_self) (halts ▸ List.mem_cons_self)
    · cases h
  case h_14 =>
    cases (Option.ite_none_left_eq_some.mp h).2
    refine hP.container rfl (List.forall_mem_cons.mpr ⟨hprim .str, ?_⟩)
    exact List.forall_mem_singleton.mpr (hP.union hnamed)
  all_goals cases h
  · refine hlist ?_
    show P (.ofAlts [])
    exact hP.ofAlts (List.forall_mem_nil _)
  · exact hlist (helements _ List.mem_cons_self)
  · exact hlist (helements _ List.mem_cons_self)
  · exact hlist (helements _ List.mem_cons_self)
  · exact hP.container rfl (List.forall_mem_singleton.mpr (helements _ List.mem_cons_self))
  · refine hlist (htuple (List.forall_mem_cons.mpr ⟨hprim .int, ?_⟩))
    exact List.forall_mem_singleton.mpr (helements _ List.mem_cons_self)
  · exact hlist (htuple (List.forall_mem_map.mpr helements))
  · exact helements _ List.mem_cons_self
  · exact helements _ List.mem_cons_self
  · exact hP.union hpositional
  · exact hP.union hpositional
  · exact hpositional _ List.mem_cons_self

variable (hv : v.Closed)

include hv

theorem isType_method {result : Ty} {params : List Param} (hresult : v.IsType result)
    (hparams : (params.all fun p => p.name.isAscii && p.type.isBasic 3) = true) :
    v.IsType (method result params) := by
  refine hv.function.mp ⟨fun p hp => ?_, hresult⟩
  obtain ⟨hname, htype⟩ := Bool.and_eq_true_iff.mp (List.all_eq_true.mp hparams p hp)
  exact ⟨hv.ascii hname, hv.isType_of_isBasic 3 htype⟩

theorem isType_strMethod (h : strMethod name = some t) : v.IsType t := by
  unfold strMethod at h
  split at h
  all_goals cases h
  all_goals exact isType_method hv (hv.isType_of_isBasic 3 (by decide +kernel)) (by decide +kernel)

theorem isType_listElem (ha : v.IsType (.only a)) : v.IsType (listElem a) := by
  cases a with
  | list elem => exact hv.part ha List.mem_cons_self
  | _ => exact hv.any

theorem isType_dictKey (ha : v.IsType (.only a)) : v.IsType (dictKey a) := by
  cases a with
  | dict key value => exact hv.part ha List.mem_cons_self
  | _ => exact hv.any

theorem isType_dictValue (ha : v.IsType (.only a)) : v.IsType (dictValue a) := by
  cases a with
  | dict key value => exact hv.part ha mem_second
  | _ => exact hv.any

theorem isType_listMethod (ha : v.IsType (.only recv)) (h : listMethod recv name = some t) : v.IsType t := by
  unfold listMethod at h
  split at h
  all_goals cases h
  case h_7 => exact isType_method hv (isType_listElem hv ha) (by decide +kernel)
  all_goals exact isType_method hv (hv.isType_of_isBasic 1 (by decide +kernel)) (by decide +kernel)

theorem isType_dictMethod (ha : v.IsType (.only recv)) (h : dictMethod recv name = some t) : v.IsType t := by
  have hkey := isType_dictKey hv ha
  have hvalue := isType_dictValue hv ha
  have hpair : v.IsType (.tuple [dictKey recv, dictValue recv]) :=
    hv.tuple (List.forall_mem_cons.mpr ⟨hkey, List.forall_mem_singleton.mpr hvalue⟩)
  unfold dictMethod at h
  split at h
  all_goals cases h
  · exact isType_method hv (hv.prim .none) (by decide +kernel)
  · exact isType_method hv (hv.prim .none) (by decide +kernel)
  · exact isType_method hv (hv.union₂ hvalue (hv.prim .none)) (by decide +kernel)
  · exact isType_method hv (hv.list hpair) (by decide +kernel)
  · exact isType_method hv (hv.list hkey) (by decide +kernel)
  · exact isType_method hv (hv.list hvalue) (by decide +kernel)
  · exact isType_method hv hvalue (by decide +kernel)
  · exact isType_method hv hvalue (by decide +kernel)
  · exact isType_method hv hpair (by decide +kernel)

omit hv in
theorem eq_of_fromTable {o : Option Ty} (h : fromTable o = .known t) : o = some t := by
  cases o with
  | none => cases h
  | some u =>
      cases h
      rfl

theorem isType_attr (ha : v.IsType (.only recv)) (h : attr recv name = .known t) : v.IsType t := by
  unfold attr at h
  split at h
  · exact isType_strMethod hv (eq_of_fromTable h)
  · exact isType_listMethod hv ha (eq_of_fromTable h)
  · exact isType_dictMethod hv ha (eq_of_fromTable h)
  all_goals cases h

theorem isType_numericOp {left right : Text} (h : numericOp op left right = some t) : v.IsType t := by
  unfold numericOp at h
  split at h
  · cases h
    split <;> exact hv.prim _
  · split at h
    · cases h
      exact hv.prim _
    · split at h
      · cases h
        exact hv.prim _
      · split at h
        · cases h
          exact hv.prim _
        · cases h

theorem isType_elementUnion? (ha : v.IsType (.only a)) (h : a.elementUnion? = some t) : v.IsType t := by
  cases a with
  | tuple elems =>
      cases h
      exact hv.union fun u hu => hv.part ha hu
  | tupleOf elem =>
      cases h
      exact hv.part ha List.mem_cons_self
  | _ => cases h

theorem isType_concat {b : Alt} (ha : v.IsType (.only a)) (hb : v.IsType (.only b)) (h : concat a b = .known t) :
    v.IsType t := by
  unfold concat at h
  split at h
  · cases h
    exact hv.tuple (List.forall_mem_append.mpr ⟨fun u hu => hv.part ha hu, fun u hu => hv.part hb hu⟩)
  · split at h
    · next hleft hright =>
      cases h
      exact hv.tupleOf (hv.union₂ (isType_elementUnion? hv ha hleft) (isType_elementUnion? hv hb hright))
    · cases h

theorem isType_repeatTuple (ha : v.IsType (.only a)) (h : repeatTuple a = .known t) : v.IsType t := by
  unfold repeatTuple at h
  split at h
  · next helem =>
    cases h
    exact hv.tupleOf (isType_elementUnion? hv ha helem)
  · cases h

theorem isType_binOpOfKinds {left right : Alt} (hl : v.IsType (.only left)) (hr : v.IsType (.only right))
    (h : binOpOfKinds op left right = some (.known t)) : v.IsType t := by
  have hlists := hv.list (hv.union₂ (isType_listElem hv hl) (isType_listElem hv hr))
  have hdicts := hv.dict (hv.union₂ (isType_dictKey hv hl) (isType_dictKey hv hr))
    (hv.union₂ (isType_dictValue hv hl) (isType_dictValue hv hr))
  unfold binOpOfKinds at h
  split at h
  -- Two operands of one kind: strings, lists, tuples, truth values, dictionaries.
  · split at h
    · cases h
      exact hv.prim .bool
    · cases (Option.ite_none_right_eq_some.mp h).2
      exact hv.prim .str
  · split at h
    · cases h
      exact hv.prim .bool
    · cases (Option.ite_none_right_eq_some.mp h).2
      exact hlists
  · split at h
    · cases h
      exact hv.prim .bool
    · exact isType_concat hv hl hr (Option.some.inj (Option.ite_none_right_eq_some.mp h).2)
  · cases (Option.ite_none_right_eq_some.mp h).2
    exact hv.prim .bool
  · cases (Option.ite_none_right_eq_some.mp h).2
    exact hdicts
  -- A sequence and how often it is repeated.
  · cases (Option.ite_none_right_eq_some.mp h).2
    exact hv.prim .str
  · cases (Option.ite_none_right_eq_some.mp h).2
    exact hv.prim .str
  · cases (Option.ite_none_right_eq_some.mp h).2
    exact hl
  · cases (Option.ite_none_right_eq_some.mp h).2
    exact hr
  · exact isType_repeatTuple hv hl (Option.some.inj (Option.ite_none_right_eq_some.mp h).2)
  · exact isType_repeatTuple hv hr (Option.some.inj (Option.ite_none_right_eq_some.mp h).2)
  · obtain ⟨u, hu, hknown⟩ := Option.map_eq_some_iff.mp (Option.ite_none_right_eq_some.mp h).2
    cases hknown
    exact isType_numericOp hv hu

theorem isType_binOp {left right : Alt} (hl : v.IsType (.only left)) (hr : v.IsType (.only right))
    (h : binOp op left right = .known t) : v.IsType t := by
  unfold binOp at h
  split at h
  · cases h
  · split at h
    · next hfact =>
      rw [h] at hfact
      exact isType_binOpOfKinds hv hl hr hfact
    · split at h
      · cases h
        exact hv.prim .bool
      · split at h
        · cases h
          exact hv.prim .str
        · cases h

theorem isType_unOp {operand : Alt} (h : unOp op operand = .known t) : v.IsType t := by
  unfold unOp at h
  split at h
  · cases h
  · split at h
    all_goals cases h
    all_goals exact hv.prim _

theorem within_signature {sig : Signature} (h : signature name = some sig) : sig.Within v := by
  unfold signature at h
  split at h
  all_goals cases h
  all_goals exact hv.function.mpr (hv.isType_of_isBasic 4 (by decide +kernel))

theorem isType_refineBy {positional named : List Ty} (hpositional : ∀ u ∈ positional, v.IsType u)
    (hnamed : ∀ u ∈ named, v.IsType u) (h : refineBy name positional named = some t) : v.IsType t :=
  invariant_refineBy hv.toInvariant hv.prim hpositional (fun u hu => hv.element (hpositional u hu)) hnamed h

theorem isType_refine {args : List Arg} (hargs : ∀ arg ∈ args, arg.Within v) (h : refine name args = some t) :
    v.IsType t := by
  have htypes : ∀ arg ∈ args, v.IsType arg.type := fun arg harg => (hargs arg harg).type
  exact isType_refineBy hv (Arg.forall_positional htypes) (Arg.forall_named htypes) h

end Standard

theorem Oracle.within_standard (hv : v.Closed) : Oracle.standard.Within v where
  attr ha _ h := Standard.isType_attr hv ha h
  binOp _ ha hb h := Standard.isType_binOp hv ha hb h
  signature _ h := Standard.within_signature hv h
  unOp hask _ _ h := by
    cases hask
    exact Standard.isType_unOp hv h
  refine hask _ hargs h := by
    cases hask
    exact Standard.isType_refine hv hargs h

/-! ### Operands that go by the name of tuples -/

theorem Alt.exists_custom_of_kind {a : Alt} (hkind : a.kind = "tuple") (h : a.elementUnion? = none) :
    ∃ host, a = .custom "tuple" host := by
  cases a with
  | tuple | tupleOf => cases h
  | prim p => cases p <;> exact absurd hkind (by decide)
  | custom name host =>
      cases hkind
      exact ⟨host, rfl⟩
  | _ => simp [kind] at hkind

namespace Standard

theorem fromTable_ne_broken (o : Option Ty) : fromTable o ≠ .broken := by
  cases o <;> exact fun h => by cases h

theorem attr_ne_broken (recv : Alt) (name : Text) : attr recv name ≠ .broken := by
  unfold attr
  split
  · exact fromTable_ne_broken _
  · exact fromTable_ne_broken _
  · exact fromTable_ne_broken _
  all_goals exact fun h => by cases h

theorem unOp_ne_broken (op : Text) (operand : Alt) : unOp op operand ≠ .broken := by
  unfold unOp
  split
  · exact fun h => by cases h
  · split <;> exact fun h => by cases h

theorem exists_custom_of_concat {a b : Alt} (ha : a.kind = "tuple") (hb : b.kind = "tuple")
    (h : concat a b = .broken) : ∃ host, a = .custom "tuple" host ∨ b = .custom "tuple" host := by
  unfold concat at h
  split at h
  · cases h
  · cases helem : a.elementUnion? with
    | none =>
        obtain ⟨host, rfl⟩ := Alt.exists_custom_of_kind ha helem
        exact ⟨host, Or.inl rfl⟩
    | some t =>
        cases helem' : b.elementUnion? with
        | none =>
            obtain ⟨host, rfl⟩ := Alt.exists_custom_of_kind hb helem'
            exact ⟨host, Or.inr rfl⟩
        | some u =>
            rw [helem, helem'] at h
            cases h

theorem exists_custom_of_repeatTuple {a : Alt} (ha : a.kind = "tuple") (h : repeatTuple a = .broken) :
    ∃ host, a = .custom "tuple" host := by
  cases helem : a.elementUnion? with
  | none => exact Alt.exists_custom_of_kind ha helem
  | some t =>
      rw [repeatTuple, helem] at h
      cases h

theorem exists_custom_of_binOp {op : Text} {a b : Alt} (h : binOp op a b = .broken) :
    ∃ host, a = .custom "tuple" host ∨ b = .custom "tuple" host := by
  unfold binOp at h
  split at h
  · cases h
  · split at h
    · next hfact =>
      rw [h] at hfact
      unfold binOpOfKinds at hfact
      split at hfact
      case h_3 ha hb =>
        split at hfact
        · cases hfact
        · exact exists_custom_of_concat ha hb (Option.some.inj (Option.ite_none_right_eq_some.mp hfact).2)
      case h_10 ha _ =>
        obtain ⟨host, rfl⟩ := exists_custom_of_repeatTuple ha
          (Option.some.inj (Option.ite_none_right_eq_some.mp hfact).2)
        exact ⟨host, Or.inl rfl⟩
      case h_11 _ hb =>
        obtain ⟨host, rfl⟩ := exists_custom_of_repeatTuple hb
          (Option.some.inj (Option.ite_none_right_eq_some.mp hfact).2)
        exact ⟨host, Or.inr rfl⟩
      case h_12 =>
        obtain ⟨_, -, hknown⟩ := Option.map_eq_some_iff.mp (Option.ite_none_right_eq_some.mp hfact).2
        cases hknown
      -- The rules that are left never break.
      all_goals first
        | cases (Option.ite_none_right_eq_some.mp hfact).2
        | split at hfact
          · cases hfact
          · cases (Option.ite_none_right_eq_some.mp hfact).2
    · split at h
      · cases h
      · split at h <;> cases h

end Standard

theorem Oracle.guarded_standard (hv : v.Closed) : Oracle.standard.Guarded v where
  toWithin := within_standard hv
  attr_broken _ _ h := absurd h (Standard.attr_ne_broken _ _)
  binOp_broken _ ha hb h := by
    obtain ⟨host, rfl | rfl⟩ := Standard.exists_custom_of_binOp h
    · exact ⟨host, ha⟩
    · exact ⟨host, hb⟩
  unOp_broken hask _ _ h := by
    cases hask
    exact absurd h (Standard.unOp_ne_broken _ _)

/-! ### Descriptions and chains -/

structure Docs.Within (v : Vocabulary) (d : Docs) : Prop where
  functions : d.functions.All fun _ sig => sig.Within v
  members : d.members.All fun _ table => table.All fun _ t => v.IsType t

theorem Docs.Within.oracle {d : Docs} (h : d.Within v) : d.oracle.Within v where
  attr := by
    intro a name t _ _ hknown
    have hattr : d.attr a name = .known t := hknown
    rw [Docs.attr] at hattr
    split at hattr
    · next u hu =>
      cases hattr
      obtain ⟨table, htable, hu⟩ := Option.bind_eq_some_iff.mp hu
      exact (h.members.get? htable).get? hu
    · cases hattr
  binOp _ _ _ hknown := nomatch hknown
  signature _ hsig := h.functions.get? hsig
  unOp hask := nomatch hask
  refine hask := nomatch hask

namespace Oracle

theorem exists_of_firstOpinion {ask : Oracle → Fact} {oracles : List Oracle} {fact : Fact}
    (h : firstOpinion ask oracles = fact) (hfact : fact ≠ .unknown) : ∃ o ∈ oracles, ask o = fact := by
  induction oracles with
  | nil => exact absurd h.symm hfact
  | cons o rest ih =>
      rw [firstOpinion] at h
      split at h
      · obtain ⟨o', ho', hask⟩ := ih h
        exact ⟨o', List.mem_cons_of_mem o ho', hask⟩
      · exact ⟨o, List.mem_cons_self, h⟩

theorem exists_of_chainRefine {name : Text} {args : List Arg} {oracles : List Oracle} {t : Ty}
    (h : chainRefine name args oracles = some t) :
    ∃ o ∈ oracles, ∃ ask, o.refine = some ask ∧ ask name args = some t := by
  induction oracles with
  | nil => cases h
  | cons o rest ih =>
      rw [chainRefine] at h
      split at h
      · obtain ⟨o', ho', hask⟩ := ih h
        exact ⟨o', List.mem_cons_of_mem o ho', hask⟩
      · exact ⟨o, List.mem_cons_self, Option.bind_eq_some_iff.mp h⟩

theorem within_chain {oracles : List Oracle} (h : ∀ o ∈ oracles, o.Within v) : (chain oracles).Within v where
  attr ha hname hknown := by
    obtain ⟨o, ho, hask⟩ := exists_of_firstOpinion hknown nofun
    exact (h o ho).attr ha hname hask
  binOp hop ha hb hknown := by
    obtain ⟨o, ho, hask⟩ := exists_of_firstOpinion hknown nofun
    exact (h o ho).binOp hop ha hb hask
  signature hname hsig := by
    obtain ⟨o, ho, hask⟩ := List.exists_of_findSome?_eq_some hsig
    exact (h o ho).signature hname hask
  unOp hask hop ha hknown := by
    cases hask
    obtain ⟨o, ho, hasked⟩ := exists_of_firstOpinion hknown nofun
    rw [askUnOp] at hasked
    split at hasked
    · next ask hunOp => exact (h o ho).unOp hunOp hop ha hasked
    · cases hasked
  refine hask hname hargs hrefined := by
    cases hask
    obtain ⟨o, ho, ask, hrefine, hanswer⟩ := exists_of_chainRefine hrefined
    exact (h o ho).refine hrefine hname hargs hanswer

end Oracle

end Gradual
