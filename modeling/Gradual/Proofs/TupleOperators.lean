import Gradual.Proofs.CheckModule
import Gradual.Proofs.NormalOperations
import Gradual.Proofs.Oracles
import Gradual.Proofs.WalkSteps

/-! Tuples and what only goes by their name. Operators pick their rule by the kind of the operands, and a
custom type may have the name of a kind. If no type that is loaded has a custom type `tuple` in it, nor the
answers of its hosts, then no type that comes up in a check has one. The operators are watched by an oracle that
breaks over every operand that poses as a tuple: a check with it does the same as the check without it until it
breaks, and it never does. -/

namespace Gradual

/-! ### Types without a custom type of some name -/

/-- No custom type of the name occurs in a type, nor in what the hosts in it answer. -/
def Ty.Lacks (name : Text) : Ty → Prop := Ty.Throughout fun t => ∀ a ∈ t.alts, a.customName? ≠ some name

/-- All names, and the types without a custom type of some name. -/
def Vocabulary.lacking (name : Text) : Vocabulary where
  IsName _ := True
  IsType := Ty.Lacks name

namespace Ty

variable {name : Text}

theorem lacks_only_iff {a : Alt} :
    (only a).Lacks name ↔ a.customName? ≠ some name ∧ ∀ u, a.Contains u → u.Lacks name :=
  throughout_only_iff.trans (and_congr_left' List.forall_mem_singleton)

theorem lacks_of_parts {a : Alt} (ha : a.customName? = .none) (h : ∀ u ∈ a.parts, u.Lacks name) :
    (only a).Lacks name := by
  refine lacks_only_iff.mpr ⟨fun hname => ?_, ?_⟩
  · rw [ha] at hname
    cases hname
  · cases a with
    | custom => cases ha
    | _ => exact h

theorem invariant_lacks : Invariant (Lacks name) := by
  refine (invariant_everyAlt fun a ha => ?_).throughout
  cases a with
  | custom => cases ha
  | _ => nofun

end Ty

namespace Vocabulary

/-- A name of which no type expression makes a custom type can be kept out. -/
theorem closed_lacking {name : Text} (hname : ¬Ty.IsFreeName name) : (lacking name).Closed where
  toInvariant := Ty.invariant_lacks
  append _ _ := trivial
  ascii _ := trivial
  quoted _ := trivial
  number _ := trivial
  text _ := trivial
  any := Ty.lacks_of_parts rfl (List.forall_mem_nil _)
  prim _ := Ty.lacks_of_parts rfl (List.forall_mem_nil _)
  callable := Ty.lacks_of_parts rfl (List.forall_mem_nil _)
  function {sig} := by
    constructor
    · intro h
      exact Ty.lacks_of_parts rfl (List.forall_mem_cons.mpr
        ⟨h.result, List.forall_mem_map.mpr fun p hp => (h.params p hp).type⟩)
    · intro h
      have hparts := List.forall_mem_cons.mp (Ty.lacks_only_iff.mp h).2
      exact ⟨fun p hp => ⟨trivial, hparts.2 p.type (List.mem_map_of_mem hp)⟩, hparts.1⟩
  record _ h := Ty.lacks_of_parts rfl (List.forall_mem_map.mpr fun f hf => (h f hf).2)
  named {other} _ hfree := by
    refine Ty.lacks_only_iff.mpr ⟨fun h => ?_, List.forall_mem_nil _⟩
    cases h
    exact hname hfree
  host h := (Ty.lacks_only_iff.mp h).2

theorem closed_lacking_tuple : (lacking "tuple").Closed := closed_lacking (by decide +kernel)

theorem not_mayBreak_lacking_tuple : ¬(lacking "tuple").MayBreak := by
  rintro ⟨host, h⟩
  exact (Ty.lacks_only_iff.mp h).1 rfl

end Vocabulary

/-! ### Descriptions -/

namespace Docs

variable {v : Vocabulary} (hv : v.Closed) (hname : ∀ name, v.IsName name)

include hv hname

theorem keptByNames_isType : Ty.KeptByNames v.IsType where
  ofName name _ hargs variadic := hv.ofName (hname name) hargs variadic
  union := hv.union
  unit := hv.tuple (List.forall_mem_nil _)

theorem ensures_parse (source : Text) : Ensures (Ty.parse source) v.IsType :=
  fun _ h => (keptByNames_isType hv hname).parse h

theorem ensures_toParam (p : DocParam) : Ensures p.toParam (Param.Within v) := by
  refine Ensures.bind (P := fun _ => True) (fun _ _ => trivial) fun mode _ => ?_
  refine Ensures.bind (P := v.IsType) ?_ fun type htype => .pure ⟨hname _, htype⟩
  unfold DocParam.readType
  split
  · exact .ok hv.any
  · exact (ensures_parse hv hname p.type).mapError _

theorem ensures_signature (m : DocMember) : Ensures m.signature (Signature.Within v) := by
  have hparams : Ensures ((m.params.getD []).mapM DocParam.toParam) fun ps => ∀ p ∈ ps, p.Within v :=
    .mapM fun p _ => ensures_toParam hv hname p
  unfold DocMember.signature
  dsimp only
  split
  · exact .error _
  · refine hparams.bind fun params hparams => ?_
    have hmake : ∀ {result}, v.IsType result →
        Ensures ((Signature.make params result).mapError DocFault.signature) (Signature.Within v) :=
      fun hresult => Ensures.mapError (fun _ hsig => hv.make hparams hresult hsig) _
    split
    · exact (Ensures.ok hv.any).bind fun _ hresult => hmake hresult
    · exact ((ensures_parse hv hname m.result).mapError _).bind fun _ hresult => hmake hresult

theorem ensures_memberType (m : DocMember) : Ensures m.memberType v.IsType := by
  unfold DocMember.memberType
  split
  · exact (ensures_signature hv hname m).map fun sig hsig => hv.function.mp hsig
  · exact (ensures_parse hv hname m.type).mapError _

theorem within_addFunction {d : Docs × List DocIssue} (hd : d.1.Within v) (m : DocMember) :
    (addFunction d m).1.Within v := by
  unfold addFunction
  split
  · next sig hsig => exact ⟨hd.functions.insert (ensures_signature hv hname m sig hsig), hd.members⟩
  · exact hd

theorem all_addMember (type : Text) {table : NameMap Ty × List DocIssue} (h : table.1.All fun _ t => v.IsType t)
    (m : DocMember) : (addMember type table m).1.All fun _ t => v.IsType t := by
  unfold addMember
  split
  · next t ht => exact h.insert (ensures_memberType hv hname m t ht)
  · exact h

theorem within_addType {d : Docs × List DocIssue} (hd : d.1.Within v) (t : DocType) : (addType d t).1.Within v := by
  have htable : ((d.1.members.get? (kindOfName t.name)).getD .empty).All fun _ t => v.IsType t := by
    cases hget : d.1.members.get? (kindOfName t.name) with
    | none => exact NameMap.all_empty
    | some table => exact hd.members.get? hget
  refine ⟨hd.functions, hd.members.insert ?_⟩
  exact List.foldlRecOn (motive := fun r : NameMap Ty × List DocIssue => r.1.All fun _ t => v.IsType t) _ _ htable
    fun _ h m _ => all_addMember hv hname t.name h m

theorem within_ofFile {file : DocFile} {d : Docs} (h : ofFile file = .ok d) : d.Within v := by
  have hempty : ({} : Docs).Within v := ⟨NameMap.all_empty, NameMap.all_empty⟩
  have hfunctions : ((file.functions.getD []).foldl addFunction ({}, [])).1.Within v :=
    List.foldlRecOn (motive := fun r : Docs × List DocIssue => r.1.Within v) _ _ hempty
      fun _ h m _ => within_addFunction hv hname h m
  have hall := List.foldlRecOn (motive := fun r : Docs × List DocIssue => r.1.Within v) (file.types.getD []) addType
    hfunctions fun _ h t _ => within_addType hv hname h t
  unfold ofFile at h
  dsimp only at h
  split at h
  · cases h
    exact hall
  · cases h

end Docs

namespace Oracle

variable {v : Vocabulary}

theorem guarded_chain {oracles : List Oracle} (h : ∀ o ∈ oracles, o.Guarded v) : (chain oracles).Guarded v where
  toWithin := within_chain fun o ho => (h o ho).toWithin
  attr_broken ha hname hbroken := by
    obtain ⟨o, ho, hask⟩ := exists_of_firstOpinion hbroken nofun
    exact (h o ho).attr_broken ha hname hask
  binOp_broken hop ha hb hbroken := by
    obtain ⟨o, ho, hask⟩ := exists_of_firstOpinion hbroken nofun
    exact (h o ho).binOp_broken hop ha hb hask
  unOp_broken hask hop ha hbroken := by
    cases hask
    obtain ⟨o, ho, hasked⟩ := exists_of_firstOpinion hbroken nofun
    rw [askUnOp] at hasked
    split at hasked
    · next ask hunOp => exact (h o ho).unOp_broken hunOp hop ha hasked
    · cases hasked

theorem guarded_docs {d : Docs} (h : d.Within v) : d.oracle.Guarded v where
  toWithin := h.oracle
  attr_broken {a name} _ _ hbroken := by
    have hattr : d.attr a name = .broken := hbroken
    unfold Docs.attr at hattr
    split at hattr <;> cases hattr
  binOp_broken _ _ _ hbroken := nomatch hbroken
  unOp_broken hask := nomatch hask

/-- The standard oracle, or one that asks descriptions in order before it. -/
def described : Option (List Docs) → Oracle
  | none => standard
  | some docs => chain (docs.map Docs.oracle ++ [standard])

theorem guarded_described (hv : v.Closed) {docs : Option (List Docs)}
    (h : ∀ ds, docs = some ds → ∀ d ∈ ds, d.Within v) : (described docs).Guarded v := by
  cases docs with
  | none => exact guarded_standard hv
  | some ds =>
      refine guarded_chain (List.forall_mem_append.mpr ⟨List.forall_mem_map.mpr fun d hd => ?_, ?_⟩)
      · exact guarded_docs (h ds rfl d hd)
      · exact List.forall_mem_singleton.mpr (guarded_standard hv)

end Oracle

/-! ### Watching the operators -/

/-- Whether an alternative has the kind of tuples and is none. -/
def Alt.posesAsTuple (a : Alt) : Bool :=
  a.kind == "tuple" && a.elementUnion?.isNone

theorem Alt.exists_custom_of_posesAsTuple {a : Alt} (h : a.posesAsTuple = true) : ∃ host, a = .custom "tuple" host := by
  obtain ⟨hkind, helem⟩ := Bool.and_eq_true_iff.mp h
  exact exists_custom_of_kind (eq_of_beq hkind) (Option.isNone_iff_eq_none.mp helem)

/-- The oracle that breaks whenever it is asked about an operand that poses as a tuple. -/
def Oracle.watched (o : Oracle) : Oracle :=
  { o with
    binOp := fun op left right =>
      if left.posesAsTuple || right.posesAsTuple then .broken else o.binOp op left right }

theorem Oracle.Guarded.watched {v : Vocabulary} {o : Oracle} (h : o.Guarded v) : o.watched.Guarded v := by
  refine { h with binOp := ?_, binOp_broken := ?_ }
  · intro op a b t hop ha hb hknown
    dsimp only [Oracle.watched] at hknown
    split at hknown
    · cases hknown
    · exact h.binOp hop ha hb hknown
  · intro op a b hop ha hb hbroken
    dsimp only [Oracle.watched] at hbroken
    split at hbroken
    · next hposes =>
      rcases Bool.or_eq_true_iff.mp hposes with hposes | hposes
      · obtain ⟨host, rfl⟩ := Alt.exists_custom_of_posesAsTuple hposes
        exact ⟨host, ha⟩
      · obtain ⟨host, rfl⟩ := Alt.exists_custom_of_posesAsTuple hposes
        exact ⟨host, hb⟩
    · exact h.binOp_broken hop ha hb hbroken

/-- A verdict is another one, or it is broken. -/
def Verdict.SameUnlessBroken (x' x : Verdict) : Prop := x'.broken = true ∨ x' = x

/-- A judgement is another one, or it is broken. -/
def Judgement.SameUnlessBroken (j' j : Judgement) : Prop := j'.broken = true ∨ j' = j

/-- One of some verdicts is broken, or they are the same as others. -/
def Verdict.AllSameUnlessBroken (xs' xs : List Verdict) : Prop := (∃ x ∈ xs', x.broken = true) ∨ xs' = xs

theorem Verdict.allSameUnlessBroken_flatMap {α : Type} {f' f : α → List Verdict}
    (h : ∀ a, AllSameUnlessBroken (f' a) (f a)) (as : List α) :
    AllSameUnlessBroken (as.flatMap f') (as.flatMap f) := by
  induction as with
  | nil => exact Or.inr rfl
  | cons a rest ih =>
      rw [List.flatMap_cons, List.flatMap_cons]
      rcases h a with ⟨x, hx, hbroken⟩ | hsame
      · exact Or.inl ⟨x, List.mem_append_left _ hx, hbroken⟩
      · rcases ih with ⟨x, hx, hbroken⟩ | hrest
        · exact Or.inl ⟨x, List.mem_append_right _ hx, hbroken⟩
        · exact Or.inr (congrArg₂ (· ++ ·) hsame hrest)

theorem Verdict.allSameUnlessBroken_map {α : Type} {f' f : α → Verdict} (h : ∀ a, (f' a).SameUnlessBroken (f a))
    (as : List α) : AllSameUnlessBroken (as.map f') (as.map f) := by
  rw [List.map_eq_flatMap, List.map_eq_flatMap]
  refine allSameUnlessBroken_flatMap (fun a => ?_) as
  exact (h a).imp (fun hbroken => ⟨_, List.mem_cons_self, hbroken⟩) (congrArg ([·]))

namespace Rules

variable (o : Oracle) (mode : Mode)

theorem sameUnlessBroken_settle {xs' xs : List Verdict} (h : Verdict.AllSameUnlessBroken xs' xs) (error : TypingError)
    (span : Span) : (settle ⟨o.watched, mode⟩ xs' error span).SameUnlessBroken (settle ⟨o, mode⟩ xs error span) := by
  rcases h with ⟨x, hx, hbroken⟩ | rfl
  · exact Or.inl (List.any_eq_true.mpr ⟨x, hx, hbroken⟩)
  · exact Or.inr rfl

theorem sameUnlessBroken_binOpOf (op : Text) (left right : Alt) (span : Span) :
    (binOpOf ⟨o.watched, mode⟩ op left right span).SameUnlessBroken (binOpOf ⟨o, mode⟩ op left right span) := by
  have hasked : o.watched.binOp op left right = .broken ∨ o.watched.binOp op left right = o.binOp op left right := by
    dsimp only [Oracle.watched]
    split
    · exact Or.inl rfl
    · exact Or.inr rfl
  unfold binOpOf
  split
  · exact Or.inr rfl
  · split
    · exact Or.inr rfl
    · rcases hasked with hbroken | hsame
      · rw [hbroken]
        exact Or.inl rfl
      · rw [hsame]
        exact Or.inr rfl

theorem sameUnlessBroken_indexCustom (a : Alt) (span : Span) (index : List Alt) :
    (indexCustom ⟨o.watched, mode⟩ a span index).SameUnlessBroken (indexCustom ⟨o, mode⟩ a span index) := by
  induction index with
  | nil => exact Or.inr rfl
  | cons i rest ih =>
      rw [indexCustom, indexCustom]
      rcases sameUnlessBroken_binOpOf o mode "[]" a i span with hbroken | hsame
      · refine Or.inl ?_
        dsimp only
        split
        · exact hbroken
        · exact Bool.or_eq_true_iff.mpr (Or.inl hbroken)
      · rw [hsame]
        dsimp only
        split
        · exact Or.inr rfl
        · rcases ih with hbroken | hrest
          · exact Or.inl (Bool.or_eq_true_iff.mpr (Or.inr hbroken))
          · rw [hrest]
            exact Or.inr rfl

theorem sameUnlessBroken_indexOf (a : Alt) (index : Ty) (constant : Option Int) (span : Span) :
    (indexOf ⟨o.watched, mode⟩ a index constant span).SameUnlessBroken (indexOf ⟨o, mode⟩ a index constant span) := by
  cases a with
  | custom name host => exact sameUnlessBroken_indexCustom o mode _ span index.alts
  | _ => exact Or.inr rfl

theorem sameUnlessBroken_binOp (op : Text) (left right : Ty) (span : Span) :
    (binOp ⟨o.watched, mode⟩ op left right span).SameUnlessBroken (binOp ⟨o, mode⟩ op left right span) := by
  unfold binOp
  split
  · exact Or.inr rfl
  · split
    · exact Or.inr rfl
    · refine sameUnlessBroken_settle o mode (Verdict.allSameUnlessBroken_flatMap (fun a => ?_) left.alts) _ span
      exact Verdict.allSameUnlessBroken_map (fun b => sameUnlessBroken_binOpOf o mode op a b span) right.alts

theorem sameUnlessBroken_index (value index : Ty) (constant : Option Int) (span : Span) :
    (Rules.index ⟨o.watched, mode⟩ value index constant span).SameUnlessBroken
      (Rules.index ⟨o, mode⟩ value index constant span) := by
  unfold Rules.index
  split
  · exact Or.inr rfl
  · exact sameUnlessBroken_settle o mode (Verdict.allSameUnlessBroken_map
      (fun a => sameUnlessBroken_indexOf o mode a index constant span) value.alts) _ span

/-- Only binary operators, and what is indexed through them, tell whether the oracle is watched. -/
theorem related_watched : Related Judgement.SameUnlessBroken ⟨o.watched, mode⟩ ⟨o, mode⟩ where
  signature := rfl
  attr _ _ _ := Or.inr rfl
  binOp := sameUnlessBroken_binOp o mode
  unOp _ _ _ := Or.inr rfl
  index := sameUnlessBroken_index o mode
  slice _ _ := Or.inr rfl
  iter _ _ := Or.inr rfl
  call _ _ _ := Or.inr rfl
  callBuiltin _ _ _ _ := Or.inr rfl

end Rules

theorem State.isBroken_report (s : State) (errors : List TypingError) : (s.report errors).isBroken = s.isBroken := by
  unfold State.report
  split <;> rfl

namespace Check

variable {α β : Type}

/-- The first of two walks does the same as the second or breaks, and it does not mend what is broken. -/
structure SameUnlessBroken (m' m : Check α) : Prop where
  stays : ∀ s : State, s.isBroken = true → (m'.run s).2.isBroken = true
  same : ∀ s : State, (m'.run s).2.isBroken = true ∨ m'.run s = m.run s

namespace SameUnlessBroken

theorem modify {f : State → State} (h : ∀ s, (f s).isBroken = s.isBroken) :
    SameUnlessBroken (modify f) (modify f) where
  stays s hs := (h s).trans hs
  same _ := Or.inr rfl

theorem bind {m m' : Check α} {k k' : α → Check β} (h : SameUnlessBroken m' m)
    (hnext : ∀ a, SameUnlessBroken (k' a) (k a)) : SameUnlessBroken (m' >>= k') (m >>= k) where
  stays s hs := by
    rw [StateT.run_bind]
    exact (hnext _).stays _ (h.stays s hs)
  same s := by
    rw [StateT.run_bind, StateT.run_bind]
    rcases h.same s with hbroken | hsame
    · exact Or.inl ((hnext _).stays _ hbroken)
    · rw [hsame]
      exact (hnext _).same _

theorem settle {j' j : Judgement} (h : j'.SameUnlessBroken j) :
    SameUnlessBroken (Check.settle j') (Check.settle j) where
  stays s hs := by
    show ((s.report j'.errors).isBroken || j'.broken) = true
    rw [s.isBroken_report, hs, Bool.true_or]
  same s := by
    rcases h with hbroken | rfl
    · refine Or.inl ?_
      show ((s.report j'.errors).isBroken || j'.broken) = true
      rw [hbroken, Bool.or_true]
    · exact Or.inr rfl

theorem around {walk walk' : Check α} {outer outer' : Check β} (h : SameUnlessBroken walk' walk)
    (enter : State → State) (leave : State → α × State → β × State) (henter : ∀ s, (enter s).isBroken = s.isBroken)
    (hleave : ∀ s r, (leave s r).2.isBroken = r.2.isBroken)
    (hrun : ∀ s, outer.run s = leave s (walk.run (enter s)))
    (hrun' : ∀ s, outer'.run s = leave s (walk'.run (enter s))) : SameUnlessBroken outer' outer where
  stays s hs := by
    rw [hrun', hleave]
    exact h.stays _ ((henter s).trans hs)
  same s := by
    rw [hrun, hrun', hleave]
    exact (h.same (enter s)).imp_right (congrArg (leave s))

end SameUnlessBroken

theorem InStep.sameUnlessBroken {K : StepKinds} [K.SamePlace] {m m' : Check α} (h : InStep K m m')
    (hK : ∀ j' j, K.Judged j' j → j'.SameUnlessBroken j) : SameUnlessBroken m' m := by
  have hsame : ∀ path path', K.There path path' → path' = path := fun _ _ => StepKinds.SamePlace.eq_there
  induction h with
  | pure a => exact ⟨fun _ hs => hs, fun _ => Or.inr rfl⟩
  | bind _ _ ih ihnext => exact (ih hK hsame).bind fun a => ihnext a hK hsame
  | look _ ih =>
      have hlooked (s : State) := ih s s.errors s.approximations s.types hK hsame
      exact ⟨fun s hs => (hlooked s).stays s hs, fun s => (hlooked s).same s⟩
  | report e span => exact .modify fun s => s.isBroken_report _
  | settle hjudged => exact .settle (hK _ _ hjudged)
  | note _ hthere form span info =>
      rw [hsame _ _ hthere]
      exact .modify fun _ => rfl
  | approximate | count | rebind => exact .modify fun _ => rfl
  | returned _ info =>
      simp only [returned_eq]
      exact .modify fun _ => rfl
  | leaveLoop _ isExit =>
      rw [leaveLoop_eq]
      exact .modify fun _ => rfl
  | aside enter _ ih =>
      exact (ih hK hsame).around (fun s => { s with scope := enter s.scope })
        (fun s r => (r.1, { r.2 with scope := s.scope })) (fun _ => rfl) (fun _ _ => rfl) (fun _ => rfl) fun _ => rfl
  | unreached _ ih =>
      exact (ih hK hsame).around (fun s => { s with dead := s.dead + 1, scope := s.scope.copy })
        (fun s r => (r.1, { r.2 with dead := r.2.dead - 1, scope := s.scope })) (fun _ => rfl) (fun _ _ => rfl)
        (fun _ => rfl) fun _ => rfl
  | inLoop _ ih =>
      exact (ih hK hsame).around (fun s => { s with loops := {} :: s.loops })
        (fun _ r => ((r.1, r.2.loops.head?.getD {}), { r.2 with loops := r.2.loops.tail })) (fun _ => rfl)
        (fun _ _ => rfl) (fun _ => rfl) fun _ => rfl
  | inBody _ ih =>
      exact (ih hK hsame).around (fun s => { s with depth := s.depth + 1 })
        (fun _ r => (r.1, { r.2 with depth := r.2.depth - 1 })) (fun _ => rfl) (fun _ _ => rfl) (fun _ => rfl)
        fun _ => rfl
  | inFunction declared _ ih =>
      exact (ih hK hsame).around
        (fun s => { s with functions := { declared := declared } :: s.functions, depth := s.depth + 1 })
        (fun _ r => ((r.1, r.2.functions.head?.getD {}),
          { r.2 with functions := r.2.functions.tail, depth := r.2.depth - 1 }))
        (fun _ => rfl) (fun _ _ => rfl) (fun _ => rfl) fun _ => rfl

end Check

/-! ### Modules -/

namespace Module

/-- A watched check that does not break is the check itself. -/
theorem walked_watched (o : Oracle) (mode : Mode) (loads : NameMap Interface) (m : Module)
    (h : (m.walked ⟨o.watched, mode⟩ loads).isBroken = false) :
    m.walked ⟨o.watched, mode⟩ loads = m.walked ⟨o, mode⟩ loads := by
  have hsteps := Check.inStep_block ⟨⟨o, mode⟩, loads, Forward.collect .empty m.body⟩
    (Check.StepKinds.walks_all (Rules.related_watched o mode)) List.suffix_rfl 0 m.body
  rcases (hsteps.sameUnlessBroken fun _ _ h => h).same {} with hbroken | hsame
  · exact absurd hbroken (ne_true_of_eq_false h)
  · exact congrArg Prod.snd hsame

/-- If nothing that is loaded has a custom type `tuple`, then no type of a check has one, the check does not
break, and it does not notice that its operators are watched for operands that pose as tuples. -/
theorem walked_lacks_tuple (mode : Mode) {docs : Option (List Docs)}
    (hdocs : ∀ ds, docs = some ds → ∀ d ∈ ds, ∃ file, Docs.ofFile file = .ok d) {loads : NameMap Interface}
    (hloads : loads.All fun _ i => i.exports.All fun _ t => t.Lacks "tuple") (m : Module) :
    (m.walked ⟨.described docs, mode⟩ loads).Within (.lacking "tuple") ∧
      (m.check ⟨.described docs, mode⟩ loads).isBroken = false ∧
      m.walked ⟨(Oracle.described docs).watched, mode⟩ loads = m.walked ⟨.described docs, mode⟩ loads := by
  have hv := Vocabulary.closed_lacking_tuple
  have horacle : (Oracle.described docs).Guarded (.lacking "tuple") := by
    refine Oracle.guarded_described hv fun ds hds d hd => ?_
    obtain ⟨file, hfile⟩ := hdocs ds hds d hd
    exact Docs.within_ofFile hv (fun _ => trivial) hfile
  have hoffers : loads.All fun _ i => i.Offers (.lacking "tuple") := fun e he f hf => ⟨trivial, hloads e he f hf⟩
  have hwatched : (m.walked ⟨(Oracle.described docs).watched, mode⟩ loads).Within (.lacking "tuple") :=
    m.within_walked hv horacle.watched hoffers fun _ _ => trivial
  have hunbroken : (m.walked ⟨(Oracle.described docs).watched, mode⟩ loads).isBroken = false :=
    Bool.eq_false_iff.mpr fun h => Vocabulary.not_mayBreak_lacking_tuple (hwatched.isBroken h)
  have hsame := walked_watched _ mode loads m hunbroken
  refine ⟨hsame ▸ hwatched, ?_, hsame⟩
  show (m.walked ⟨.described docs, mode⟩ loads).isBroken = false
  rw [← hsame]
  exact hunbroken

/-- A module that loads `b` and adds the attribute `t` of it to itself. -/
def addsAttribute : Module :=
  ⟨{}, [.load {} "m" [.symbol {} none "b"],
    .assign {} "" (.ident ⟨{}, "y"⟩) .hole
      (.binary {} "+" (.member {} (.ident ⟨{}, "b"⟩) ⟨{}, "t"⟩) (.member {} (.ident ⟨{}, "b"⟩) ⟨{}, "t"⟩))]⟩

/-- A value `b` of a custom type whose host gives the type of the attribute `t`. -/
def boxOf (t : Ty) : Interface := ⟨⟨[("b", .only (.custom "box" (some (.having "t" t))))]⟩⟩

theorem walked_lacks_tuple_boxOf :
    let loads : NameMap Interface := ⟨[("m", boxOf (.tuple [.int]))]⟩
    let oracle := Oracle.described (some [{}])
    loads.All (fun _ i => i.exports.All fun _ t => t.Lacks "tuple") ∧
      (addsAttribute.walked ⟨oracle, .lint⟩ loads).Within (.lacking "tuple") ∧
      (addsAttribute.check ⟨oracle, .lint⟩ loads).isBroken = false ∧
      addsAttribute.walked ⟨oracle.watched, .lint⟩ loads = addsAttribute.walked ⟨oracle, .lint⟩ loads := by
  have hint : Ty.int.Lacks "tuple" := Ty.lacks_of_parts rfl fun _ h => absurd h List.not_mem_nil
  have hpair : (Ty.tuple [.int]).Lacks "tuple" := Ty.lacks_of_parts rfl (List.forall_mem_singleton.mpr hint)
  have hbox : (boxOf (.tuple [.int])).exports.All fun _ t => t.Lacks "tuple" := by
    refine List.forall_mem_singleton.mpr (Ty.lacks_only_iff.mpr ⟨by decide, fun u hu => ?_⟩)
    exact Host.eq_of_answers_having hu ▸ hpair
  have hloads : NameMap.All (fun _ i => i.exports.All fun _ t => t.Lacks "tuple") ⟨[("m", boxOf (.tuple [.int]))]⟩ :=
    List.forall_mem_singleton.mpr hbox
  refine ⟨hloads, walked_lacks_tuple .lint (fun ds hds => ?_) hloads addsAttribute⟩
  cases hds
  exact List.forall_mem_singleton.mpr ⟨{}, rfl⟩

/-- What a host answers counts: a custom type `tuple` that only a host knows of breaks the addition. -/
theorem check_breaks_boxOf_named_tuple :
    (boxOf (.named "tuple")).exports.All (fun _ t => t.Everywhere fun u => ∀ host, .custom "tuple" host ∉ u.alts) ∧
      (addsAttribute.check ⟨.described none, .lint⟩ ⟨[("m", boxOf (.named "tuple"))]⟩).isBroken = true := by
  refine ⟨List.forall_mem_singleton.mpr (Ty.everywhere_only_iff.mpr ⟨fun host h => ?_, ?_⟩), by decide +kernel⟩
  · exact absurd (Alt.custom.inj (List.mem_singleton.mp h)).1 (by decide)
  · exact fun _ h => absurd h List.not_mem_nil

end Module

end Gradual
