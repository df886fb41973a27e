import Gradual.Proofs.CallMatching
import Gradual.Proofs.NormalOperations
import Gradual.Proofs.Oracles
import Gradual.Proofs.SubtypeOrder

/-! Spread arguments of the standard global functions. Matching a call looks at what a spread sequence may stand
for, but the sharpened result of a call looks only at the arguments that are written as positional ones. So the
result of a call that spreads need not cover that of the same call with its sequences written out. What a call
without problems has to say of its arguments settles most functions; for the others, the arguments decide. -/

namespace Gradual

/-! ### Writing out spread sequences -/

/-- The elements that a spread sequence may stand for: those of a tuple of known length, and any number of the
elements of other sequences. -/
inductive Alt.Yields : Alt → List Ty → Prop
  | tuple (elems : List Ty) : Yields (.tuple elems) elems
  | list (elem : Ty) (n : Nat) : Yields (.list elem) (List.replicate n elem)
  | tupleOf (elem : Ty) (n : Nat) : Yields (.tupleOf elem) (List.replicate n elem)
  | iterable (elem : Ty) (n : Nat) : Yields (.iterable elem) (List.replicate n elem)

/-- The arguments that an argument may stand for: a spread sequence for elements that it yields, and any other
argument for itself. -/
inductive Arg.Unpacks : Arg → List Arg → Prop
  | positional (t : Ty) : Unpacks (.positional t) [.positional t]
  | named (name : Text) (t : Ty) : Unpacks (.named name t) [.named name t]
  | doubleSplat (t : Ty) : Unpacks (.doubleSplat t) [.doubleSplat t]
  | splat {a : Alt} {elems : List Ty} (h : a.Yields elems) : Unpacks (.splat (.only a)) (elems.map .positional)

namespace Call

/-- A call with every spread sequence written out. -/
inductive Unpacks : List Arg → List Arg → Prop
  | nil : Unpacks [] []
  | cons {arg : Arg} {part args unpacked : List Arg} (hpart : arg.Unpacks part) (hargs : Unpacks args unpacked) :
      Unpacks (arg :: args) (part ++ unpacked)

variable {args unpacked : List Arg}

theorem filterMap_positional_map (elems : List Ty) : (elems.map Arg.positional).filterMap Arg.positional? = elems := by
  rw [List.filterMap_map]
  exact List.filterMap_some

theorem filterMap_named_map (elems : List Ty) : (elems.map Arg.positional).filterMap Arg.named? = [] := by
  rw [List.filterMap_map]
  exact List.filterMap_eq_nil_iff.mpr fun _ _ => rfl

theorem Unpacks.sublist (h : Unpacks args unpacked) :
    (args.filterMap Arg.positional?).Sublist (unpacked.filterMap Arg.positional?) := by
  induction h with
  | nil => exact List.Sublist.slnil
  | cons hpart _ ih =>
      rw [List.filterMap_append]
      cases hpart with
      | positional t => exact ih.cons_cons t
      | named => exact ih
      | doubleSplat => exact ih
      | splat => exact ih.trans (List.sublist_append_right _ _)

theorem Unpacks.named (h : Unpacks args unpacked) :
    unpacked.filterMap Arg.named? = args.filterMap Arg.named? := by
  induction h with
  | nil => rfl
  | cons hpart _ ih =>
      rw [List.filterMap_append, ih]
      cases hpart with
      | positional => rfl
      | named => rfl
      | doubleSplat => rfl
      | splat => rw [filterMap_named_map]; rfl

theorem Unpacks.ne_splat (h : Unpacks args unpacked) (t : Ty) : .splat t ∉ unpacked := by
  induction h with
  | nil => exact List.not_mem_nil
  | cons hpart _ ih =>
      rw [List.mem_append, not_or]
      refine ⟨?_, ih⟩
      cases hpart <;> simp

theorem Unpacks.any_isOpenSplat (h : Unpacks args unpacked) : unpacked.any Arg.isOpenSplat = false := by
  refine List.any_eq_false.mpr fun arg harg => ?_
  cases arg with
  | splat t => exact absurd harg (h.ne_splat t)
  | positional | named | doubleSplat => exact Bool.false_ne_true

theorem Unpacks.positionals (h : Unpacks args unpacked) :
    unpacked.flatMap Arg.positionals = unpacked.filterMap Arg.positional? := by
  induction h with
  | nil => rfl
  | cons hpart _ ih =>
      rw [List.flatMap_append, List.filterMap_append, ih]
      cases hpart with
      | positional => rfl
      | named => rfl
      | doubleSplat => rfl
      | splat => rw [filterMap_positional_map, List.flatMap_map]; exact congrArg (· ++ _) (List.flatMap_singleton' _)

/-! ### What a call without problems says of its positional arguments -/

section

variable {params : List Param}

theorem length_filter_paramAt (params : List Param) (q : Param → Bool) :
    ((List.range params.length).filter (paramAt params q)).length = params.countP q := by
  induction params with
  | nil => rfl
  | cons p params ih =>
      rw [List.length_cons, List.range_succ_eq_map, List.countP_cons, ← ih, ← List.countP_eq_length_filter,
        List.countP_cons, List.countP_map, ← List.countP_eq_length_filter]
      rfl

theorem length_openPlaces_le (params : List Param) (named : List (Text × Ty)) :
    (openPlaces params named).length ≤ params.countP (·.mode.takesPositional) := by
  rw [← length_filter_paramAt, openPlaces, ← List.countP_eq_length_filter, ← List.countP_eq_length_filter]
  refine List.countP_mono_left fun i _ h => ?_
  exact (Bool.and_eq_true _ _ ▸ h).1

theorem length_le_of_problems_eq_nil (horder : PositionalFirst params) (hopen : args.any Arg.isOpenSplat = false)
    (hargs : hasMode params .args = false) (h : problems params args = []) :
    (args.flatMap Arg.positionals).length ≤ params.countP (·.mode.takesPositional) := by
  obtain ⟨-, hsurplus, -, -⟩ := bind_spec args horder
  simp only [problems, hopen, hargs, List.append_eq_nil_iff, ite_singleton_eq_nil_iff] at h
  have hempty : (bind params args).surplus = [] := by simpa using h.1.1.1.1
  rw [hsurplus, List.drop_eq_nil_iff] at hempty
  exact Nat.le_trans hempty (length_openPlaces_le params _)

theorem subtype_of_problems_eq_nil (horder : PositionalFirst params) (h : problems params args = []) {i : Nat}
    {p : Param} {t : Ty} (hp : params[i]? = some p)
    (ht : received params (args.filterMap Arg.named?) (args.flatMap Arg.positionals) i = some t) :
    t.subtype p.type = true := by
  obtain ⟨hslots, -, -, -⟩ := bind_spec args horder
  simp only [problems, List.append_eq_nil_iff, List.flatMap_eq_nil_iff] at h
  have hslot := h.2 ⟨p, some t⟩ (hslots ▸ mem_slotsOf.mpr ⟨i, p, hp, ht ▸ rfl⟩)
  exact checkArg_eq_nil_iff.mp hslot

end

end Call

/-! ### Sharpened results -/

theorem Ty.union_singleton {t : Ty} (h : t.IsNormalUnion) : union [t] = t := by
  rw [union_singleton_eq, ofAlts_alts h]

namespace Rules

variable {r : Rules} {name : Text} {sig : Signature} {args : List Arg} {span : Span}

theorem distinctErrors_eq_nil_iff {errors : List TypingError} : distinctErrors [] errors = [] ↔ errors = [] := by
  cases errors <;> simp [distinctErrors]

theorem errors_callBuiltin_eq_nil (h : (r.callBuiltin name sig args span).errors = []) :
    Call.problems sig.params args = [] := by
  have hcall : (r.callBuiltin name sig args span).errors = (r.call (.function (some sig)) args span).errors := by
    rw [callBuiltin]
    split <;> rfl
  rw [hcall, call, if_neg (by simp [Ty.isNever, Ty.function, Ty.only])] at h
  have hproblems := distinctErrors_eq_nil_iff.mp (List.map_eq_nil_iff.mp (List.append_eq_nil_iff.mp h).1)
  simpa [Ty.function, Ty.only, callProblems, callableOf] using hproblems

theorem type_callBuiltin : (r.callBuiltin name sig args span).type =
    (r.oracle.refine.bind fun refine => refine name args).getD (.union [sig.result]) := by
  rw [callBuiltin]
  split
  · next h => rw [h]; rfl
  · next h => rw [h]; rfl

end Rules

namespace Standard

/-- Whether the sharpened result of an accepted call covers that of the call with spread arguments written out, where
`written` are its positional arguments and `given` those with the spread ones among them. A list made from
nothing has no elements, the tuples of `zip` have one element for each argument, `enumerate` looks at the first
argument, `min` and `max` at all of them, and `dict` at the named ones only if no other is written. -/
def coversSpread (name : Text) (written given named : List Ty) : Bool :=
  match name, written with
  | "list", [] => given.all fun t => t.element.subtype .never
  | "zip", _ => given.length == written.length
  | "enumerate", t :: _ => given.head?.all fun u => u.element.subtype t.element
  | "min", [t] | "max", [t] => given.length == 1 || (Ty.union given).subtype t.element
  | "min", _ :: _ :: _ | "max", _ :: _ :: _ => (Ty.union given).subtype (.union written)
  | "dict", [] => named.isEmpty || given.all fun t => (refineDict t).all (·.subtype (.dict .str (.union named)))
  | _, _ => true

/-- The functions of one place whose results are sharpened. -/
def sharpenedOfOne : List Text := ["list", "tuple", "sorted", "reversed", "abs", "dict"]

/-- The functions of several places or of any number of arguments whose results are sharpened. -/
def sharpenedOfMany : List Text := ["enumerate", "zip", "min", "max"]

variable {name : Text} {sig : Signature} {written given named : List Ty}

theorem refineBy_of_not_mem (h : name ∉ sharpenedOfOne ++ sharpenedOfMany) (positional named : List Ty) :
    refineBy name positional named = none := by
  unfold refineBy
  split <;> simp_all [sharpenedOfOne, sharpenedOfMany]

theorem coversSpread_of_not_mem (h : name ∉ sharpenedOfOne ++ sharpenedOfMany) :
    coversSpread name written given named = true := by
  unfold coversSpread
  split <;> simp_all [sharpenedOfOne, sharpenedOfMany]

theorem positionalFirst_signature (h : signature name = some sig) : Call.PositionalFirst sig.params := by
  unfold signature at h
  split at h
  all_goals cases h
  all_goals exact of_decide_eq_true (p := List.Pairwise _ _) rfl

theorem normal_result (h : signature name = some sig) : sig.result.Normal := by
  unfold signature at h
  split at h
  all_goals cases h
  all_goals exact Ty.everywhere_of_holdsInside 4 (by decide +kernel)

theorem normal_sharpened (hsig : signature name = some sig) (hwritten : ∀ t ∈ written, t.Normal)
    (helements : ∀ t ∈ written, t.element.Normal) (hnamed : ∀ t ∈ named, t.Normal) :
    ((refineBy name written named).getD sig.result).Normal := by
  cases hrefined : refineBy name written named with
  | none => exact normal_result hsig
  | some t =>
      exact invariant_refineBy Ty.invariant_normal (fun p => Ty.normal_leaf rfl rfl) hwritten helements hnamed hrefined

theorem coversSpread_self (hwritten : ∀ t ∈ written, t.Normal) (helements : ∀ t ∈ written, t.element.Normal) :
    coversSpread name written written named = true := by
  unfold coversSpread
  split
  · rfl
  · exact beq_self_eq_true _
  · exact Ty.subtype_self (helements _ List.mem_cons_self)
  · rfl
  · rfl
  · exact Ty.subtype_self (Ty.normal_union hwritten)
  · exact Ty.subtype_self (Ty.normal_union hwritten)
  · exact Bool.or_true _
  · rfl

theorem dict_any_subtype (k v : Ty) : (Ty.dict .any .any).subtype (.dict k v) = true :=
  Ty.only_subtype_only_iff.mpr (.dict (Ty.any_subtype k) (Ty.any_subtype v))

theorem subtype_dict_any {t d : Ty} (h : refineDict t = some d) : d.subtype (.dict .any .any) = true := by
  unfold refineDict at h
  split at h
  · cases h
    exact Ty.only_subtype_only_iff.mpr (.dict (Ty.subtype_any _) (Ty.subtype_any _))
  · cases h

theorem length_le_one (hname : name ∈ sharpenedOfOne) (hsig : signature name = some sig)
    (hfits : Call.hasMode sig.params .args = false → given.length ≤ sig.params.countP (·.mode.takesPositional)) :
    given.length ≤ 1 := by
  simp only [sharpenedOfOne, List.mem_cons, List.not_mem_nil, or_false] at hname
  rcases hname with rfl | rfl | rfl | rfl | rfl | rfl
  all_goals cases hsig
  all_goals exact hfits rfl

theorem refines_spread_of_one {t : Ty} (hname : name ∈ sharpenedOfOne) (hsig : signature name = some sig)
    (habs : name = "abs" → t.subtype numeric = true) :
    ((refineBy name [t] named).getD sig.result).subtype ((refineBy name [] named).getD sig.result) = true ↔
      coversSpread name [] [t] named = true := by
  simp only [sharpenedOfOne, List.mem_cons, List.not_mem_nil, or_false] at hname
  rcases hname with rfl | rfl | rfl | rfl | rfl | rfl
  all_goals cases hsig
  · show (Ty.list t.element).subtype (.list .never) = true ↔ (t.element.subtype .never && true) = true
    rw [Ty.list_subtype_list_iff, Bool.and_true]
  · exact iff_of_true (Ty.only_subtype_only_iff.mpr (.tupleOf rfl (Ty.subtype_any _))) rfl
  · exact iff_of_true (Ty.list_subtype_list_iff.mpr (Ty.subtype_any _)) rfl
  · exact iff_of_true (Ty.list_subtype_list_iff.mpr (Ty.subtype_any _)) rfl
  · exact iff_of_true (habs rfl) rfl
  · show ((refineDict t).getD (.dict .any .any)).subtype
        ((if named.isEmpty then none else some (.dict .str (.union named))).getD (.dict .any .any)) = true ↔
      (named.isEmpty || ((refineDict t).all (·.subtype (.dict .str (.union named))) && true)) = true
    cases named.isEmpty <;> cases hrefined : refineDict t with
    | none => simp [dict_any_subtype]
    | some d => simp [subtype_dict_any hrefined]

theorem enumeration_subtype_iff {t u : Ty} :
    (Ty.list (.tuple [.int, t])).subtype (.list (.tuple [.int, u])) = true ↔ t.subtype u = true := by
  have hint : Ty.int.subtype .int = true := Ty.subtype_self (Ty.normal_leaf rfl rfl)
  rw [Ty.list_subtype_list_iff, Ty.tuple_subtype_tuple_iff, List.forall₂_cons, List.forall₂_cons]
  simp [hint]

/-- A function of several places or of any number of arguments, some of which are spread. -/
theorem refines_spread_of_many (hname : name ∈ sharpenedOfMany) (hsig : signature name = some sig)
    (hlength : written.length < given.length) :
    ((refineBy name given named).getD sig.result).subtype ((refineBy name written named).getD sig.result) = true ↔
      coversSpread name written given named = true := by
  obtain ⟨u, us, rfl⟩ := List.exists_cons_of_length_pos (Nat.zero_lt_of_lt hlength)
  simp only [sharpenedOfMany, List.mem_cons, List.not_mem_nil, or_false] at hname
  rcases hname with rfl | rfl | rfl | rfl
  all_goals cases hsig
  case inl =>
    cases written with
    | nil => exact iff_of_true (enumeration_subtype_iff.mpr (Ty.subtype_any _)) rfl
    | cons t ts => exact enumeration_subtype_iff
  case inr.inl =>
    refine iff_of_false (fun h => ?_) fun h => Nat.ne_of_gt hlength (eq_of_beq h)
    have hpairs := Ty.tuple_subtype_tuple_iff.mp (Ty.list_subtype_list_iff.mp h)
    exact Nat.ne_of_gt hlength (by simpa using hpairs.length_eq)
  all_goals
    cases written with
    | nil => exact iff_of_true (Ty.subtype_any _) rfl
    | cons t ts =>
        have hmore : 0 < us.length := Nat.zero_lt_of_lt (Nat.lt_of_succ_lt_succ hlength)
        obtain ⟨v, vs, rfl⟩ := List.exists_cons_of_length_pos hmore
        cases ts with
        | nil => exact Iff.rfl
        | cons t' ts => exact Iff.rfl

/-- The sharpened results of a call without problems, with its spread sequences and with what they stand for. -/
theorem subtype_sharpened_iff (hsig : signature name = some sig) (hsub : written.Sublist given)
    (hfits : Call.hasMode sig.params .args = false → given.length ≤ sig.params.countP (·.mode.takesPositional))
    (habs : ∀ t, name = "abs" → given = [t] → t.subtype numeric = true) (hwritten : ∀ t ∈ written, t.Normal)
    (helements : ∀ t ∈ written, t.element.Normal) (hnamed : ∀ t ∈ named, t.Normal) :
    ((refineBy name given named).getD sig.result).subtype ((refineBy name written named).getD sig.result) = true ↔
      coversSpread name written given named = true := by
  -- The results are told apart only by what is given and not written.
  by_cases hsame : given = written
  · rw [hsame]
    exact iff_of_true (Ty.subtype_self (normal_sharpened hsig hwritten helements hnamed))
      (coversSpread_self hwritten helements)
  have hlength : written.length < given.length :=
    Nat.lt_of_le_of_ne hsub.length_le fun h => hsame (hsub.eq_of_length h).symm
  by_cases hname : name ∈ sharpenedOfOne ++ sharpenedOfMany
  · rcases List.mem_append.mp hname with hone | hmany
    -- With one place only, what is spread is the whole of the call.
    · have hfew := length_le_one hone hsig hfits
      obtain rfl : written = [] := List.length_eq_zero_iff.mp (by omega)
      obtain ⟨t, rfl⟩ : ∃ t, given = [t] := List.length_eq_one_iff.mp (Nat.le_antisymm hfew hlength)
      exact refines_spread_of_one hone hsig fun habsolute => habs t habsolute rfl
    · exact refines_spread_of_many hmany hsig hlength
  · rw [refineBy_of_not_mem hname, refineBy_of_not_mem hname]
    exact iff_of_true (Ty.subtype_self (normal_result hsig)) (coversSpread_of_not_mem hname)

theorem received_need (name : Text) (type t : Ty) (named : List (Text × Ty)) :
    Call.received [need name type] named [t] 0 = some t := by
  have hnone : Call.namedGiven [need name type] named 0 = none := by
    simp [Call.namedGiven, Call.placeOf?, need, Param.posOnly, ParamMode.takesNamed]
  have hopen : Call.isOpenAt [need name type] (Call.namedGiven [need name type] named) 0 = true := by
    rw [Call.isOpenAt, hnone]
    rfl
  rw [Call.received, Call.filled, if_pos hopen]
  rfl

/-- The result of a call that spreads sequences covers the result of the call with the sequences written out, if
there is nothing to say about that call, exactly where the arguments that are not spread settle it: in `list`, `zip`,
`enumerate`, `min`, `max` and `dict` the spread ones may add to the result. -/
theorem callBuiltin_covers_spread_iff {mode : Mode} {sig : Signature} {args unpacked : List Arg} {span : Span}
    (hsig : Oracle.standard.signature name = some sig) (hunpacked : Call.Unpacks args unpacked)
    (hnormal : ∀ arg ∈ args, arg.type.Normal ∧ arg.type.element.Normal)
    (haccepted : (Rules.callBuiltin ⟨.standard, mode⟩ name sig unpacked span).errors = []) :
    (Rules.callBuiltin ⟨.standard, mode⟩ name sig unpacked span).type.subtype
        (Rules.callBuiltin ⟨.standard, mode⟩ name sig args span).type = true ↔
      coversSpread name (args.filterMap Arg.positional?) (unpacked.filterMap Arg.positional?)
        ((args.filterMap Arg.named?).map (·.2)) = true := by
  have hproblems := Rules.errors_callBuiltin_eq_nil haccepted
  have horder := positionalFirst_signature hsig
  have hwritten := Arg.forall_positional (P := fun t => t.Normal ∧ t.element.Normal) hnormal
  have hnamed := Arg.forall_named (P := Ty.Normal) fun arg harg => (hnormal arg harg).1
  have hresult := Ty.union_singleton (normal_result hsig).here
  rw [Rules.type_callBuiltin, Rules.type_callBuiltin, hresult]
  show ((refine name unpacked).getD _).subtype ((refine name args).getD _) = true ↔ _
  rw [refine, refine, hunpacked.named]
  refine subtype_sharpened_iff hsig hunpacked.sublist (fun hargs => ?_) (fun t habs hone => ?_)
    (fun t ht => (hwritten t ht).1) (fun t ht => (hwritten t ht).2) hnamed
  · rw [← hunpacked.positionals]
    exact Call.length_le_of_problems_eq_nil horder hunpacked.any_isOpenSplat hargs hproblems
  · subst habs
    cases hsig
    refine Call.subtype_of_problems_eq_nil horder hproblems (i := 0) rfl ?_
    rw [hunpacked.positionals, hone]
    exact received_need "x" numeric t _

/-- The largest of any number of integers, one more and a string: the spread integers add nothing. -/
theorem callBuiltin_covers_spread_iff_max :
    (Rules.callBuiltin ⟨.standard, .lint⟩ "max" ⟨[.args "args" .any, .namedOnly "key" (.function none) true], .any⟩
        [.positional .int, .positional .int, .positional .int, .positional .str, .named "key" (.function none)]
        default).type.subtype
      (Rules.callBuiltin ⟨.standard, .lint⟩ "max" ⟨[.args "args" .any, .namedOnly "key" (.function none) true], .any⟩
        [.splat (.list .int), .positional .int, .positional .str, .named "key" (.function none)] default).type =
      true := by
  have hunpacked : Call.Unpacks [.splat (.list .int), .positional .int, .positional .str, .named "key" (.function none)]
      [.positional .int, .positional .int, .positional .int, .positional .str, .named "key" (.function none)] :=
    .cons (.splat (.list .int 2)) (.cons (.positional .int) (.cons (.positional .str) (.cons (.named "key" _) .nil)))
  refine (callBuiltin_covers_spread_iff rfl hunpacked (fun arg harg => ?_) ?_).mpr (by decide +kernel)
  · simp only [List.mem_cons, List.not_mem_nil, or_false] at harg
    rcases harg with rfl | rfl | rfl | rfl
    all_goals constructor
    all_goals exact Ty.everywhere_of_holdsInside 2 (by decide +kernel)
  · exact List.isEmpty_iff.mp (by decide +kernel)

/-- A list made from the single element of a spread tuple has elements. Its type with the tuple spread is that of the
list made from nothing. -/
theorem callBuiltin_list_loses_spread :
    Call.Unpacks [.splat (.tuple [.list .int])] [.positional (.list .int)] ∧
    signature "list" = some ⟨[may "x" (.iterable .any)], .list .any⟩ ∧
    (Rules.callBuiltin ⟨.standard, .lint⟩ "list" ⟨[may "x" (.iterable .any)], .list .any⟩
      [.positional (.list .int)] default).errors = [] ∧
    (Rules.callBuiltin ⟨.standard, .lint⟩ "list" ⟨[may "x" (.iterable .any)], .list .any⟩
      [.positional (.list .int)] default).type.subtype
        (Rules.callBuiltin ⟨.standard, .lint⟩ "list" ⟨[may "x" (.iterable .any)], .list .any⟩
          [.splat (.tuple [.list .int])] default).type = false := by
  exact ⟨.cons (.splat (.tuple _)) .nil, rfl, List.isEmpty_iff.mp (by decide +kernel), by decide +kernel⟩

end Standard

end Gradual
