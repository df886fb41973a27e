import Gradual.Proofs.CallMatching

/-! The order of named arguments. Named arguments of distinct names can be written in any order and at any place
among the others: every parameter receives the same argument, and the problems of the call are the same, in the
same order. Nothing is asked of the parameters here, which may be out of order or share names. -/

namespace Gradual

/-- Two argument lists have the same named arguments, no two of one name, wherever they stand, and the same other
arguments in the same order. -/
structure Arg.Rearranged (args args' : List Arg) : Prop where
  distinct : ((args.filterMap Arg.named?).map (·.1)).Nodup
  named : (args.filterMap Arg.named?).Perm (args'.filterMap Arg.named?)
  others : args.filter (·.named?.isNone) = args'.filter (·.named?.isNone)

namespace Call

variable {params : List Param} {named named' : List (Text × Ty)} {args args' : List Arg}

/-! ### Named arguments -/

theorem namedOnce_of_nodup (h : (named.map (·.1)).Nodup) : NamedOnce params named := by
  have hdistinct : named.Pairwise fun a b => a.1 ≠ b.1 := List.pairwise_map.mp h
  refine hdistinct.imp ?_
  intro a b hne _
  exact hne

theorem namedGiven_eq_some_iff (h : NamedOnce params named) {i : Nat} {t : Ty} :
    namedGiven params named i = some t ↔ ∃ name, (name, t) ∈ named ∧ placeOf? params name = some i := by
  constructor
  · exact namedGiven_eq_some
  · rintro ⟨name, ht, hplace⟩
    exact namedGiven_of_mem h ht hplace

theorem namedGiven_eq_of_perm (h : named.Perm named') (hdistinct : (named.map (·.1)).Nodup) :
    namedGiven params named = namedGiven params named' := by
  funext i
  ext t
  rw [namedGiven_eq_some_iff (namedOnce_of_nodup hdistinct),
    namedGiven_eq_some_iff (namedOnce_of_nodup ((h.map _).nodup_iff.mp hdistinct))]
  simp only [h.mem_iff]

/-! ### Other arguments -/

theorem flatMap_filter_others {α : Type} {f : Arg → List α} (hf : ∀ name t, f (.named name t) = []) (args : List Arg) :
    (args.filter (·.named?.isNone)).flatMap f = args.flatMap f := by
  induction args with
  | nil => rfl
  | cons a args ih =>
      cases a with
      | named name t =>
          rw [List.flatMap_cons, hf]
          exact ih
      | positional | splat | doubleSplat => exact congrArg (_ ++ ·) ih

theorem any_filter_others {p : Arg → Bool} (hp : ∀ name t, p (.named name t) = false) (args : List Arg) :
    (args.filter (·.named?.isNone)).any p = args.any p := by
  induction args with
  | nil => rfl
  | cons a args ih =>
      cases a with
      | named name t =>
          rw [List.any_cons, hp]
          exact ih
      | positional | splat | doubleSplat => exact congrArg (_ || ·) ih

/-! ### The whole call -/

/-- Two bindings that differ at most in the order of the named arguments without a parameter. -/
structure Binding.SameUpToOrder (b b' : Binding) : Prop where
  slots : b.slots = b'.slots
  surplus : b.surplus = b'.surplus
  repeated : b.repeated = b'.repeated
  stray : b.strayNamed.Perm b'.strayNamed
  distinct : (b.strayNamed.map (·.1)).Nodup

theorem positionals_eq (h : Arg.Rearranged args args') :
    args.flatMap Arg.positionals = args'.flatMap Arg.positionals := by
  have hothers := flatMap_filter_others (f := Arg.positionals) fun _ _ => rfl
  rw [← hothers args, h.others, hothers]

theorem sameUpToOrder_bind (params : List Param) (h : Arg.Rearranged args args') :
    (bind params args).SameUpToOrder (bind params args') := by
  have hbound := namedBound_foldl params (args.filterMap Arg.named?)
  have hbound' := namedBound_foldl params (args'.filterMap Arg.named?)
  have hslots := hbound.slots.trans ((congrArg _ (namedGiven_eq_of_perm h.named h.distinct)).trans hbound'.slots.symm)
  have hstray := h.named.filter fun a => (placeOf? params a.1).isNone
  rw [← hbound.stray, ← hbound'.stray] at hstray
  refine ⟨?_, ?_, ?_, hstray, ?_⟩
  · simp only [bind, hslots, positionals_eq h]
  · simp only [bind, hslots, positionals_eq h]
  · have hnodup' := (h.named.map _).nodup_iff.mp h.distinct
    exact (hbound.repeated.mpr (namedOnce_of_nodup h.distinct)).trans
      (hbound'.repeated.mpr (namedOnce_of_nodup hnodup')).symm
  · show ((List.foldl bindNamed _ _).strayNamed.map _).Nodup
    rw [hbound.stray]
    exact h.distinct.sublist (List.filter_sublist.map _)

theorem checkSlot_eq_of_sameUpToOrder {b b' : Binding} (h : b.SameUpToOrder b') (s : Slot) :
    checkSlot b s = checkSlot b' s := by
  rw [checkSlot, checkSlot, h.surplus, sortByName_eq_of_perm h.stray h.distinct]

theorem problems_eq_of_rearranged (params : List Param) (h : Arg.Rearranged args args') :
    problems params args = problems params args' := by
  have hbind := sameUpToOrder_bind params h
  have hany {p : Arg → Bool} (hp : ∀ name t, p (.named name t) = false) : args.any p = args'.any p := by
    rw [← any_filter_others hp, h.others, any_filter_others hp]
  have hslots : checkSlot (bind params args) = checkSlot (bind params args') :=
    funext (checkSlot_eq_of_sameUpToOrder hbind)
  simp only [problems, hbind.slots, hbind.surplus, hbind.repeated, hslots, positionals_eq h,
    sortedDistinct_eq_of_perm (hbind.stray.map (·.1)), hany (p := Arg.isOpenSplat) fun _ _ => rfl,
    hany (p := Arg.isDoubleSplat) fun _ _ => rfl]

end Call

namespace Signature

/-- Matching a call does not depend on the order of its named arguments, nor on their places among the others:
the result and the list of problems are the same. -/
theorem matchCall_order_independent (sig : Option Signature) {args args' : List Arg} (h : Arg.Rearranged args args') :
    matchCall sig args = matchCall sig args' := by
  cases sig with
  | none => rfl
  | some sig => rw [matchCall, matchCall, Call.problems_eq_of_rearranged sig.params h]

/-- Parameters that are out of order, two of them of one name. -/
def jumbled : Signature := ⟨[.required "a" .int, .kwargs "more" .str, .required "a" .str], .none⟩

/-- One named argument goes to a parameter, and so keeps the positional one from it; the others go to the
collector, which complains about both in the order of their names. -/
theorem matchCall_order_independent_jumbled :
    matchCall (some jumbled) [.named "z" .int, .positional .str, .named "a" .str, .named "b" .none] =
      matchCall (some jumbled) [.named "b" .none, .named "a" .str, .named "z" .int, .positional .str] ∧
    (matchCall (some jumbled) [.named "z" .int, .positional .str, .named "a" .str, .named "b" .none]).2.map
        (·.message) =
      ["too many positional arguments: accepts at most 2, got 1", "missing required argument `a`",
        "argument `a`: expected type `int`, found `str`", "argument `more`: expected type `str`, found `None`",
        "argument `more`: expected type `str`, found `int`"] := by
  refine ⟨matchCall_order_independent _ ⟨by decide, ?_, rfl⟩, by decide +kernel⟩
  exact (List.reverse_perm [("z", Ty.int), ("a", Ty.str), ("b", Ty.none)]).symm

end Signature

end Gradual
