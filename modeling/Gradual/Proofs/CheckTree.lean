import Gradual.Check.Module
import Gradual.Proofs.CheckState
import Gradual.Proofs.Narrowing

/-! Checking a module within a vocabulary. The names of a tree are those that a check may bind, look up or put
into a message. If they are within a closed vocabulary, and with them the answers of the oracle and the
interfaces that are loaded, then so are the interface and the report of the module. -/

namespace Gradual

/-! ### The names of a tree -/

namespace TypeExpr

mutual

/-- The names in a written type. -/
def names : TypeExpr → List Text
  | .hole => []
  | .simple _ name => [name.name]
  | .generic _ base args => base.names ++ allNames args
  | .union _ members => allNames members

def allNames : List TypeExpr → List Text
  | [] => []
  | t :: rest => t.names ++ allNames rest

end

end TypeExpr

/-- The name of a type that an expression is tested for by comparing it with a string. -/
def Expr.testedName : Expr → Expr → List Text
  | .call _ (.ident callee) _, .str _ typeName => if callee.name = "type" then [typeName] else []
  | _, _ => []

mutual

/-- The names in an expression. A string is no name, unless a type is compared with it. -/
def Expr.names : Expr → List Text
  | .hole | .str _ _ | .int _ _ | .float _ _ | .bool _ _ | .none _ => []
  | .ident id => [id.name]
  | .list _ elems | .tuple _ elems => Expr.allNames elems
  | .dict _ entries => DictEntry.allNames entries
  | .struct _ fields => FieldExpr.allNames fields
  | .call _ callee args => callee.names ++ ArgExpr.allNames args
  | .member _ object name => name.name :: object.names
  | .index _ object index => object.names ++ index.names
  | .slice _ object start stop step => object.names ++ start.names ++ stop.names ++ step.names
  | .binary _ op left right =>
    op :: left.testedName right ++ right.testedName left ++ left.names ++ right.names
  | .unary _ op operand => op :: operand.names
  | .conditional _ condition yes no => condition.names ++ yes.names ++ no.names
  | .lambda _ params body => ParamDecl.allNames params ++ body.names
  | .listComp _ elem clauses => elem.names ++ Clause.allNames clauses
  | .dictComp _ key value clauses => key.names ++ value.names ++ Clause.allNames clauses

def Expr.allNames : List Expr → List Text
  | [] => []
  | e :: rest => e.names ++ Expr.allNames rest

def DictEntry.allNames : List DictEntry → List Text
  | [] => []
  | .hole :: rest => DictEntry.allNames rest
  | .entry _ key value :: rest => key.names ++ value.names ++ DictEntry.allNames rest

def FieldExpr.allNames : List FieldExpr → List Text
  | [] => []
  | .hole :: rest => FieldExpr.allNames rest
  | .field _ name value :: rest => name.name :: value.names ++ FieldExpr.allNames rest

def ArgExpr.allNames : List ArgExpr → List Text
  | [] => []
  | .hole :: rest => ArgExpr.allNames rest
  | .arg _ _ name value :: rest => name :: value.names ++ ArgExpr.allNames rest

def ParamDecl.allNames : List ParamDecl → List Text
  | [] => []
  | .hole :: rest => ParamDecl.allNames rest
  | .param _ name _ type default :: rest =>
    name.name :: type.names ++ default.names ++ ParamDecl.allNames rest

def Clause.allNames : List Clause → List Text
  | [] => []
  | .hole :: rest => Clause.allNames rest
  | .clause _ target iterable condition :: rest =>
    target.names ++ iterable.names ++ condition.names ++ Clause.allNames rest

end

def LoadSymbol.names : LoadSymbol → List Text
  | .hole => []
  | .symbol _ here name => name :: (here.map Ident.name).toList

mutual

/-- The names in a statement. An assignment names the operator that it applies. -/
def Stmt.names : Stmt → List Text
  | .hole | .exit _ | .next _ | .pass _ => []
  | .expr e => e.names
  | .assign _ op target declared value =>
    assignedOperator op :: target.names ++ declared.names ++ value.names
  | .define _ name params result body =>
    name.name :: ParamDecl.allNames params ++ result.names ++ Stmt.allNames body
  | .ret _ value => value.names
  | .branch _ condition yes no => condition.names ++ Stmt.allNames yes ++ Stmt.allNames no
  | .forIn _ target iterable body => target.names ++ iterable.names ++ Stmt.allNames body
  | .whileDo _ condition body => condition.names ++ Stmt.allNames body
  | .load _ _ symbols => symbols.flatMap LoadSymbol.names

def Stmt.allNames : List Stmt → List Text
  | [] => []
  | s :: rest => s.names ++ Stmt.allNames rest

end

def Module.names (m : Module) : List Text := Stmt.allNames m.body

abbrev Interface.Offers (v : Vocabulary) (i : Interface) : Prop :=
  i.exports.All fun name t => v.IsName name ∧ v.IsType t

structure Setup.Within (v : Vocabulary) (c : Setup) : Prop where
  oracle : c.rules.oracle.Guarded v
  loads : c.loads.All fun _ i => i.Offers v
  forward : c.forward.All fun _ f => v.IsType f.type

variable {v : Vocabulary} (hv : v.Closed)

/-! ### Written types -/

namespace TypeExpr

mutual

theorem isType_denote (hv : v.Closed) : (t : TypeExpr) → (∀ n ∈ t.names, v.IsName n) → v.IsType t.denote
  | .hole, _ => hv.any
  | .simple _ name, h => hv.ofName (h name.name List.mem_cons_self) (List.forall_mem_nil _) false
  | .generic _ base args, h => by
      simp only [names, List.forall_mem_append] at h
      cases base with
      | simple _ name => exact hv.ofName (h.1 name.name List.mem_cons_self) (isType_denoteArgs hv args h.2) _
      | _ => exact hv.any
  | .union _ members, h => hv.union (isType_denoteAll hv members h)

theorem isType_denoteArgs (hv : v.Closed) : (ts : List TypeExpr) → (∀ n ∈ allNames ts, v.IsName n) →
    ∀ t ∈ denoteArgs ts, v.IsType t
  | [], _ => List.forall_mem_nil _
  | t :: rest, h => by
      simp only [allNames, List.forall_mem_append] at h
      rw [denoteArgs]
      split
      · exact isType_denoteArgs hv rest h.2
      · exact List.forall_mem_cons.mpr ⟨isType_denote hv t h.1, isType_denoteArgs hv rest h.2⟩

theorem isType_denoteAll (hv : v.Closed) : (ts : List TypeExpr) → (∀ n ∈ allNames ts, v.IsName n) →
    ∀ t ∈ denoteAll ts, v.IsType t
  | [], _ => List.forall_mem_nil _
  | t :: rest, h => by
      simp only [allNames, List.forall_mem_append] at h
      exact List.forall_mem_cons.mpr ⟨isType_denote hv t h.1, isType_denoteAll hv rest h.2⟩

end

end TypeExpr

/-! ### Conditions -/

structure NameFact.Within (v : Vocabulary) (f : NameFact) : Prop where
  name : v.IsName f.name
  current : v.IsType f.current
  yes : v.IsType f.yes
  no : v.IsType f.no

namespace NameFact

variable {s : Scope} {f g : NameFact}

theorem Within.negate (h : f.Within v) : f.negate.Within v := ⟨h.name, h.current, h.no, h.yes⟩

include hv

theorem within_narrowTo {name : Text} {target : Ty} (hs : s.Within v) (ht : v.IsType target)
    (h : narrowTo s name target = some f) : f.Within v := by
  obtain ⟨b, hb, rfl⟩ := Option.map_eq_some_iff.mp h
  obtain ⟨hname, hbound⟩ := hs.resolve? hb
  exact ⟨hname, hbound, hv.meet hbound ht, hv.filter _ hbound⟩

theorem within_ofComparison {subject other : Expr} (hs : s.Within v)
    (hnames : ∀ n ∈ subject.testedName other, v.IsName n) (h : ofComparison s subject other = some f) :
    f.Within v := by
  unfold ofComparison at h
  split at h
  · next callee args =>
    split at h
    · next typeName name _ =>
      split at h
      · next hcallee =>
        have htype : callee.name = "type" := of_decide_eq_true (Bool.and_eq_true_iff.mp hcallee).1
        have htested : v.IsName typeName := by
          rw [Expr.testedName, if_pos htype] at hnames
          exact hnames typeName List.mem_cons_self
        exact within_narrowTo hv hs (hv.ofName htested (List.forall_mem_nil _) false) h
      · cases h
    · cases h
  · split at h
    · exact within_narrowTo hv hs (hv.prim .none) h
    · cases h
  · cases h

theorem within_weaken (conjunction : Bool) (h : f.Within v) : (f.weaken conjunction).Within v := by
  rw [weaken]
  split
  · exact { h with no := hv.union₂ h.no h.current }
  · exact { h with yes := hv.union₂ h.yes h.current }

theorem within_combine (conjunction : Bool) (hf : f.Within v) (hg : g.Within v) :
    (combine conjunction f g).Within v := by
  rw [combine]
  split
  · exact { hf with yes := hv.meet hf.yes hg.yes, no := hv.union₂ hf.no hg.no }
  · exact { hf with yes := hv.union₂ hf.yes hg.yes, no := hv.meet hf.no hg.no }

theorem within_combineAll (conjunction : Bool) {left right : List NameFact} (hleft : ∀ f ∈ left, f.Within v)
    (hright : ∀ f ∈ right, f.Within v) : ∀ f ∈ combineAll conjunction left right, f.Within v := by
  refine List.forall_mem_append.mpr
    ⟨List.forall_mem_map.mpr fun f hf => ?_, List.forall_mem_map.mpr fun g hg => ?_⟩
  · split
    · next g hg => exact within_combine hv conjunction (hleft f hf) (hright g (List.mem_of_find?_eq_some hg))
    · exact within_weaken hv conjunction (hleft f hf)
  · exact within_weaken hv conjunction (hright g (List.mem_filter.mp hg).1)

theorem within_ofCondition (hs : s.Within v) {e : Expr} (hnames : ∀ n ∈ e.names, v.IsName n) :
    ∀ f ∈ ofCondition s e, f.Within v := by
  have hnil : ∀ f ∈ ([] : List NameFact), f.Within v := List.forall_mem_nil _
  fun_induction ofCondition s e with
  | case1 span operand ih =>
      exact List.forall_mem_map.mpr fun f hf => (ih (List.forall_mem_cons.mp hnames).2 f hf).negate
  | case3 span left right ihl ihr =>
      simp only [Expr.names, List.forall_mem_append] at hnames
      exact within_combineAll hv true (ihl hnames.1.2) (ihr hnames.2)
  | case4 span left right _ ihl ihr =>
      simp only [Expr.names, List.forall_mem_append] at hnames
      exact within_combineAll hv false (ihl hnames.1.2) (ihr hnames.2)
  | case5 span op left right _ _ _ g hg =>
      simp only [Expr.names, List.forall_mem_append, List.forall_mem_cons] at hnames
      have hwithin : g.Within v := by
        rw [Option.orElse_eq_orElse, Option.orElse_eq_or, Option.or_eq_some_iff] at hg
        rcases hg with hg | ⟨-, hg⟩
        · exact within_ofComparison hv hs hnames.1.1.1.2 hg
        · exact within_ofComparison hv hs hnames.1.1.2 hg
      refine List.forall_mem_singleton.mpr ?_
      split
      · exact hwithin.negate
      · exact hwithin
  | case8 id b hb =>
      obtain ⟨hname, ht⟩ := hs.resolve? hb
      exact List.forall_mem_singleton.mpr ⟨hname, ht, hv.filter _ ht, ht⟩
  | case2 | case6 | case7 | case9 | case10 => exact hnil

omit hv in
theorem within_narrow {facts : List NameFact} (hs : s.Within v) (hfacts : ∀ f ∈ facts, f.Within v)
    (holds shadow : Bool) : (s.narrow facts holds shadow).Within v := by
  refine List.foldlRecOn facts _ hs fun s hs f hf => ?_
  split
  · refine hs.retype (hfacts f hf).name ?_
    cases holds with
    | true => exact (hfacts f hf).yes
    | false => exact (hfacts f hf).no
  · exact hs

end NameFact

namespace Check

/-! ### Names and calls -/

section Steps

variable {c : Setup} (hc : c.Within v)

include hv

theorem isType_constant? {name : Text} {t : Ty} (h : constant? name = some t) : v.IsType t := by
  unfold constant? at h
  split at h <;> cases h <;> exact hv.prim _

omit hv in
theorem keeps_known {t : Ty} (ht : v.IsType t) (isApproximate : Bool) :
    Keeps v v.IsType (do
      if isApproximate then taint
      return t) :=
  .ite (safe_taint.bind fun _ _ => .pure ht) (.pure ht)

include hc in
theorem keeps_ident {id : Ident} (hid : v.IsName id.name) : Keeps v v.IsType (ident c id) := by
  unfold ident
  refine Keeps.get.bind fun s hs => ?_
  split
  · next t ht => exact .pure (isType_constant? hv ht)
  · split
    · next b hb => exact keeps_known (hs.scope.resolve? hb).2 b.isApproximate
    · split
      · next sig hsig => exact .pure (hv.function.mp (hc.oracle.signature hid hsig))
      · split
        · refine (safe_approximate hv rfl (hv.embed (hv.ascii rfl) hid rfl) _).bind fun _ _ => .pure hv.any
        · split
          · next fwd hfwd =>
            have hget : c.forward.get? id.name = some fwd := (Option.ite_none_right_eq_some.mp hfwd).2
            exact keeps_known (hc.forward.get? hget) fwd.isApproximate
          · exact (safe_report (TypingError.within_notInScope hv hid) _).bind fun _ _ => .pure hv.any

omit hv in
theorem within_argOf {kind name : Text} {t : Ty} (hname : v.IsName name) (ht : v.IsType t) :
    (argOf kind name t).Within v := by
  unfold argOf
  split
  · refine ⟨ht, fun n u h => ?_⟩
    cases h
    exact hname
  all_goals exact ⟨ht, fun _ _ h => nomatch h⟩

theorem isType_record {args : List Arg} (hargs : ∀ arg ∈ args, arg.Within v) (isOpen : Bool) :
    v.IsType (.struct (args.filterMap fun
      | .named name t => some (name, t)
      | _ => none) isOpen) := by
  refine hv.struct (fun f hf => ?_) isOpen
  obtain ⟨arg, harg, hfield⟩ := List.mem_filterMap.mp hf
  cases arg with
  | named name t =>
      cases hfield
      exact ⟨(hargs _ harg).name name t rfl, (hargs _ harg).type⟩
  | _ => cases hfield

include hc in
theorem keeps_recordCall {args : List Arg} (hargs : ∀ arg ∈ args, arg.Within v) (span : Span) :
    Keeps v v.IsType (recordCall c args span) := by
  have hrecord := isType_record hv hargs
  unfold recordCall
  dsimp only
  split
  · split
    · next sig hsig =>
      have hstruct : v.IsType (.function (some sig)) :=
        hv.function.mp (hc.oracle.signature (hv.ascii (t := "struct") rfl) hsig)
      exact (keeps_settle (Rules.within_call hv span hstruct hargs)).discard.bind fun _ _ => .pure (hrecord _)
    · exact Keeps.skip.bind fun _ _ => .pure (hrecord _)
  · exact .pure (hrecord _)

include hc in
theorem keeps_builtinCall {id : Ident} {sig : Signature} {args : List Arg} (hid : v.IsName id.name)
    (hsig : sig.Within v) (hargs : ∀ arg ∈ args, arg.Within v) (before : Nat) (span : Span) :
    Keeps v v.IsType (builtinCall c id sig args before span) := by
  refine (keeps_settle (Rules.within_callBuiltin hv span hc.oracle.toWithin hid hsig hargs)).bind fun t ht => ?_
  refine .ite (Keeps.bind (.modify fun s hs => ?_) fun _ _ => .pure ht) (.pure ht)
  exact { hs with }

/-! ### Lists that come to hold more -/

omit hv in
theorem safe_widen {e : Expr} (hnames : ∀ n ∈ e.names, v.IsName n) (before : Ty) {after : Ty}
    (hafter : v.IsType after) : Safe v (widen e before after) := by
  cases e with
  | ident id =>
      refine safe_modifyScope fun s hs => ?_
      split
      · exact hs.retype (hnames id.name List.mem_cons_self) hafter
      · exact hs
  | _ => exact .skip

theorem isType_addedBy {method : Text} {ts : List Ty} {t : Ty} (hts : ∀ t ∈ ts, v.IsType t)
    (h : addedBy method ts = some t) : v.IsType t := by
  unfold addedBy at h
  split at h
  · cases h
    exact hts t List.mem_cons_self
  · cases h
    exact hts t mem_second
  · cases h
    exact hv.element (hts _ List.mem_cons_self)
  · cases h

omit hv in
theorem isType_placedTypes {args : List Arg} (hargs : ∀ arg ∈ args, arg.Within v) :
    ∀ t ∈ placedTypes args, v.IsType t := by
  intro t ht
  obtain ⟨arg, harg, h⟩ := List.mem_filterMap.mp ht
  cases arg with
  | positional u =>
      cases h
      exact (hargs _ harg).type
  | _ => cases h

theorem safe_widenOnCall {callee : Expr} {args : List Arg} (hnames : ∀ n ∈ callee.names, v.IsName n)
    (hargs : ∀ arg ∈ args, arg.Within v) : Safe v (widenOnCall callee args) := by
  unfold widenOnCall
  split
  · next id method =>
    refine keeps_scope.bind fun s hs => .ite ?_ .skip
    split
    · next b hb =>
      split
      · next elem helem =>
        split
        · next added hadded =>
          have helem : v.IsType elem := hv.part (hv.single? (hs.resolve? hb).2 helem) List.mem_cons_self
          have hmore := hv.union₂ helem (isType_addedBy hv (isType_placedTypes hargs) hadded)
          exact safe_widen (fun n hn => hnames n (List.mem_cons_of_mem _ hn)) b.type (hv.list hmore)
        · exact .skip
      · exact .skip
    · exact .skip
  · exact .skip

/-! ### Slices and parameters -/

theorem safe_sliceBound {value : Ty} {bound : TypeInfo} (hvalue : v.IsType value) (hbound : v.IsType bound.type)
    (span : Span) : Safe v (sliceBound value span bound) :=
  .ite .skip (safe_report (TypingError.within_incompatibleBinOp hv (hv.ascii rfl) hvalue hbound) span)

theorem safe_checkDefault {name : Text} {declared : TypeExpr} {default : Expr} {info : TypeInfo}
    (hname : v.IsName name) (hdeclared : ∀ n ∈ declared.names, v.IsName n) (hinfo : v.IsType info.type) :
    Safe v (checkDefault name declared default info) := by
  have hassigned := TypingError.within_incompatibleAssignment hv (declared.isType_denote hv hdeclared) hinfo
  have herror : TypingError.Within v
      { TypingError.incompatibleAssignment declared.denote info.type with param := name } :=
    ⟨hassigned.message, hname, hassigned.expected, hassigned.found⟩
  exact .ite .skip (safe_report herror _)

theorem within_paramOf {name : Ident} {type : TypeExpr} (hname : v.IsName name.name)
    (htype : ∀ n ∈ type.names, v.IsName n) (kind : Text) (default : Expr) :
    (paramOf name kind type default).Within v :=
  ⟨hname, type.isType_denote hv htype⟩

theorem keeps_signatureOf {params : List Param} {result : Ty} (hparams : ∀ p ∈ params, p.Within v)
    (hresult : v.IsType result) (span : Span) :
    Keeps v (fun sig => ∀ s, sig = some s → s.Within v) (signatureOf params result span) := by
  unfold signatureOf
  split
  · next sig hsig =>
    refine .pure fun s hs => ?_
    cases hs
    exact hv.make hparams hresult hsig
  · next e _ =>
    exact (safe_approximate hv rfl (hv.signatureMessage e) span).bind fun _ _ =>
      .pure fun s h => absurd h.symm (Option.some_ne_none s)

theorem isType_boundType {sig : Option Signature} (hsig : ∀ s, sig = some s → s.Within v) (name : Text) :
    v.IsType (boundType sig name) := by
  have hfound : ∀ p, (sig.bind fun sig => sig.params.reverse.find? (·.name == name)) = some p →
      v.IsType p.type := by
    intro p hp
    obtain ⟨s, hs, hp⟩ := Option.bind_eq_some_iff.mp hp
    exact ((hsig s hs).params p (List.mem_reverse.mp (List.mem_of_find?_eq_some hp))).type
  unfold boundType
  split
  · next t _ h => exact hv.tupleOf (hfound _ h)
  · next t _ h => exact hv.dict (hv.prim .str) (hfound _ h)
  · next p _ _ h => exact hfound p h
  · exact hv.any

theorem safe_bindParams {sig : Option Signature} (hsig : ∀ s, sig = some s → s.Within v) (path : NodePath)
    (i : Nat) {params : List ParamDecl} (hnames : ∀ n ∈ ParamDecl.allNames params, v.IsName n) :
    Safe v (bindParams path sig i params) := by
  induction params generalizing i with
  | nil => exact .skip
  | cons p rest ih =>
      cases p with
      | hole => exact ih (i + 1) hnames
      | param span name kind declared default =>
          simp only [ParamDecl.allNames, List.forall_mem_append, List.forall_mem_cons] at hnames
          have htype := isType_boundType hv hsig name.name
          refine (safe_modifyScope fun s hs => ?_).bind fun _ _ => ?_
          · dsimp only
            split
            · exact hs.bind hnames.1.1.1 htype false
            · exact (hs.bind hnames.1.1.1 htype false).annotate name.name htype
          · exact (safe_note hv _ _ _ htype).bind fun _ _ => ih (i + 1) hnames.2

/-! ### Assignments -/

theorem safe_bindName {id : Ident} {type : Ty} (hid : v.IsName id.name) (ht : v.IsType type) (path : NodePath)
    (isApproximate : Bool) : Safe v (bindName path id type isApproximate) := by
  -- Whatever the name is bound to, the binding is noted.
  have hbind : ∀ info : TypeInfo, v.IsType info.type → Safe v (do
      modify fun st =>
        { st with
          scope := st.scope.bind id.name info.type info.isApproximate
          loaded := if st.scope.isModule then st.loaded.erase id.name else st.loaded }
      note path "Identifier" id.span info) := by
    intro info hinfo
    refine Keeps.bind (.modify fun st hst => ?_) fun _ _ => safe_note hv path _ _ hinfo
    exact { hst with scope := hst.scope.bind hid hinfo info.isApproximate }
  unfold bindName
  refine keeps_scope.bind fun s hs => ?_
  cases hannotation : s.annotation? id.name with
  | none => exact hbind ⟨type, isApproximate⟩ ht
  | some declared =>
      have hdeclared := hs.annotation? hannotation
      have herror := TypingError.within_incompatibleAssignment hv hdeclared ht
      exact .ite (hbind ⟨declared, false⟩ hdeclared)
        ((safe_report herror _).bind fun _ _ => hbind ⟨declared, false⟩ hdeclared)

theorem keeps_unpacked {type : Ty} (ht : v.IsType type) (count : Nat) (span : Span) :
    Keeps v (fun ts => ∀ t ∈ ts, v.IsType t) (unpacked c type count span) := by
  have hreplicate : ∀ {t : Ty}, v.IsType t → ∀ u ∈ List.replicate count t, v.IsType u :=
    fun h u hu => List.eq_of_mem_replicate hu ▸ h
  unfold unpacked
  split
  · next types htypes =>
    refine .ite (.pure (hv.fixedTuple? ht htypes)) ?_
    have hassigned := TypingError.within_incompatibleAssignment hv (hv.tuple (hreplicate hv.any)) ht
    have herror : TypingError.Within v
        { TypingError.incompatibleAssignment (.tuple (List.replicate count .any)) type with
          message := "cannot unpack `" ++ type.text ++ "` into " ++ toString count ++ " targets" } :=
      ⟨hv.embed (hv.embed (hv.ascii rfl) (hv.text ht) rfl) (hv.number count) rfl, hassigned.param,
        hassigned.expected, hassigned.found⟩
    exact (safe_report herror span).bind fun _ _ => .pure (hreplicate hv.any)
  · exact (keeps_settle (Rules.within_iter hv span ht)).bind fun elem helem => .pure (hreplicate helem)

include hc in
theorem safe_storeAt {object index : Expr} {container at_ value : Ty} (hobject : ∀ n ∈ object.names, v.IsName n)
    (hcontainer : v.IsType container) (hat : v.IsType at_) (hvalue : v.IsType value) (path : NodePath)
    (span : Span) : Safe v (storeAt c path span object index container at_ value) := by
  unfold storeAt
  split
  · next key old hdict =>
    have hdict := hv.single? hcontainer hdict
    have hkey : v.IsType key := hv.part hdict List.mem_cons_self
    have hold : v.IsType old := hv.part hdict mem_second
    have hmore := hv.dict (hv.union₂ hkey hat) (hv.union₂ hold hvalue)
    exact (safe_widen hobject container hmore).bind fun _ _ => safe_note hv path _ span hvalue
  · next elem hlist =>
    have helem : v.IsType elem := hv.part (hv.single? hcontainer hlist) List.mem_cons_self
    have herror := TypingError.within_incompatibleBinOp hv (hv.ascii (t := "[]") rfl) hcontainer hat
    have hstore : Safe v (do
        widen object container (.list (.union [elem, value]))
        note path "IndexExpression" span ⟨value, false⟩) :=
      (safe_widen hobject container (hv.list (hv.union₂ helem hvalue))).bind fun _ _ =>
        safe_note hv path _ span hvalue
    exact .ite hstore ((safe_report herror span).bind fun _ _ => hstore)
  · exact (keeps_settle (Rules.within_index hv span hc.oracle _ hcontainer hat)).bind fun t ht =>
      safe_note hv path _ span ht

/-! ### Expressions -/

omit hv in
include hc in
theorem within_calleeOf {s : Scope} {callee : Expr} {id : Ident} {sig : Signature}
    (hnames : ∀ n ∈ callee.names, v.IsName n) (h : calleeOf c s callee = .builtin id sig) :
    v.IsName id.name ∧ sig.Within v := by
  cases callee with
  | ident id' =>
      have hid : v.IsName id'.name := hnames id'.name List.mem_cons_self
      rw [calleeOf] at h
      split at h
      · cases h
      · split at h
        · cases h
        · split at h
          · next hsig =>
            cases h
            exact ⟨hid, hc.oracle.signature hid hsig⟩
          · cases h
  | _ => cases h

include hc in
theorem keeps_call {callee : Expr} {items : List ArgExpr} (hnames : ∀ n ∈ callee.names, v.IsName n)
    (hcallee : ∀ path, Keeps v (TypeInfo.Within v) (expr c path callee))
    (hitems : ∀ path, Keeps v (fun given => ∀ arg ∈ given, arg.Within v) (args c path 0 items))
    (path : NodePath) (span : Span) : Keeps v (TypeInfo.Within v) (expr c path (.call span callee items)) := by
  refine keeps_noted hv (keeps_scope.bind fun s _ => ?_)
  cases hkind : calleeOf c s callee with
  | record => exact (hitems _).bind fun given hgiven => keeps_recordCall hv hc hgiven span
  | builtin id sig =>
      obtain ⟨hid, hsig⟩ := within_calleeOf hc hnames hkind
      refine (safe_note hv _ _ _ (hv.function.mp hsig)).bind fun _ _ => Keeps.get.bind fun before _ => ?_
      exact (hitems _).bind fun given hgiven => keeps_builtinCall hv hc hid hsig hgiven _ span
  | value =>
      refine (hcallee _).bind fun f hf => (hitems _).bind fun given hgiven => ?_
      refine (keeps_settle (Rules.within_call hv span hf hgiven)).bind fun t ht => ?_
      exact (safe_widenOnCall hv hnames hgiven).bind fun _ _ => .pure ht

include hc in
theorem keeps_binary {left right : Expr} {op : Text} {span : Span}
    (hnames : ∀ n ∈ (Expr.binary span op left right).names, v.IsName n)
    (hleft : ∀ path, Keeps v (TypeInfo.Within v) (expr c path left))
    (hright : ∀ path, Keeps v (TypeInfo.Within v) (expr c path right)) (path : NodePath) :
    Keeps v (TypeInfo.Within v) (expr c path (.binary span op left right)) := by
  simp only [Expr.names, List.forall_mem_append, List.forall_mem_cons] at hnames
  refine keeps_noted hv ((hleft _).bind fun l hl => .ite ?_ ?_)
  · refine keeps_scope.bind fun s hs => ?_
    have hfacts := NameFact.within_ofCondition hv hs hnames.1.2
    refine (keeps_aside (fun s hs => NameFact.within_narrow hs.copy hfacts _ _) (hright _)).bind fun r hr => ?_
    exact .pure (hv.union₂ hl hr)
  · exact (hright _).bind fun r hr => keeps_settle (Rules.within_binOp hv span hc.oracle hnames.1.1.1.1 hl hr)

theorem keeps_conditional {condition yes no : Expr} (hnames : ∀ n ∈ condition.names, v.IsName n)
    (hcondition : ∀ path, Keeps v (TypeInfo.Within v) (expr c path condition))
    (hyes : ∀ path, Keeps v (TypeInfo.Within v) (expr c path yes))
    (hno : ∀ path, Keeps v (TypeInfo.Within v) (expr c path no)) (path : NodePath) (span : Span) :
    Keeps v (TypeInfo.Within v) (expr c path (.conditional span condition yes no)) := by
  refine keeps_noted hv ((hcondition _).discard.bind fun _ _ => keeps_scope.bind fun s hs => ?_)
  have hfacts := NameFact.within_ofCondition hv hs hnames
  refine (keeps_aside (fun s hs => NameFact.within_narrow hs.copy hfacts _ _) (hyes _)).bind fun y hy => ?_
  refine (keeps_aside (fun s hs => NameFact.within_narrow hs.copy hfacts _ _) (hno _)).bind fun n hn => ?_
  exact .pure (hv.union₂ hy hn)

theorem keeps_lambda {params : List ParamDecl} {body : Expr}
    (hnames : ∀ n ∈ ParamDecl.allNames params, v.IsName n)
    (hparams : ∀ path, Keeps v (fun ps => ∀ p ∈ ps, p.Within v) (paramDecls c path 0 params))
    (hbody : ∀ path, Keeps v (TypeInfo.Within v) (expr c path body)) (path : NodePath) (span : Span) :
    Keeps v (TypeInfo.Within v) (expr c path (.lambda span params body)) := by
  refine keeps_noted hv ((hparams _).bind fun declared hdeclared => ?_)
  refine (keeps_signatureOf hv hdeclared hv.any span).bind fun sig hsig => ?_
  have hinside : Keeps v (TypeInfo.Within v) (do
      bindParams (1 :: path) sig 0 params
      inBody (expr c (0 :: path) body)) :=
    (safe_bindParams hv hsig _ 0 hnames).bind fun _ _ => keeps_inBody (hbody _)
  refine (keeps_aside (fun _ hs => hs.extend) hinside).bind fun result hresult => .pure ?_
  refine hv.functionOf fun s hs => ?_
  obtain ⟨sig', hsig', rfl⟩ := Option.map_eq_some_iff.mp hs
  exact (hsig sig' hsig').withResult hresult

end Steps

mutual

theorem keeps_expr (hv : v.Closed) {c : Setup} (hc : c.Within v) (path : NodePath) :
    (e : Expr) → (∀ n ∈ e.names, v.IsName n) → Keeps v (TypeInfo.Within v) (expr c path e)
  | .hole, _ => .pure (hv.prim .none)
  | .ident _, h => keeps_noted hv (keeps_ident hv hc (List.forall_mem_singleton.mp h))
  | .str _ _, _ => keeps_noted hv (.pure (hv.prim .str))
  | .int _ _, _ => keeps_noted hv (.pure (hv.prim .int))
  | .float _ _, _ => keeps_noted hv (.pure (hv.prim .float))
  | .bool _ _, _ => keeps_noted hv (.pure (hv.prim .bool))
  | .none _, _ => keeps_noted hv (.pure (hv.prim .none))
  | .list _ elems, h => keeps_noted hv ((keeps_exprs hv hc path 0 elems h).bind fun _ hts =>
      .pure (hv.list (hv.union hts)))
  | .tuple _ elems, h => keeps_noted hv ((keeps_exprs hv hc path 0 elems h).bind fun _ hts =>
      .pure (hv.tuple hts))
  | .dict _ items, h => by
      refine keeps_noted hv ((keeps_entries hv hc path 0 items h).bind fun ts hts => .pure (hv.dict ?_ ?_))
      · exact hv.union (List.forall_mem_map.mpr fun t ht => (hts t ht).1)
      · exact hv.union (List.forall_mem_map.mpr fun t ht => (hts t ht).2)
  | .struct _ items, h => keeps_noted hv ((keeps_fields hv hc path 0 items h).bind fun _ hfs =>
      .pure (hv.struct hfs false))
  | .call span callee items, h => by
      simp only [Expr.names, List.forall_mem_append] at h
      exact keeps_call hv hc h.1 (fun p => keeps_expr hv hc p callee h.1)
        (fun p => keeps_args hv hc p 0 items h.2) path span
  | .member span object name, h => by
      simp only [Expr.names, List.forall_mem_cons] at h
      exact keeps_noted hv ((keeps_expr hv hc _ object h.2).bind fun value hvalue =>
        keeps_settle (Rules.within_attr hv span hc.oracle hvalue h.1))
  | .index span object index, h => by
      simp only [Expr.names, List.forall_mem_append] at h
      exact keeps_noted hv ((keeps_expr hv hc _ object h.1).bind fun value hvalue =>
        (keeps_expr hv hc _ index h.2).bind fun at_ hat =>
          keeps_settle (Rules.within_index hv span hc.oracle _ hvalue hat))
  | .slice span object start stop step, h => by
      simp only [Expr.names, List.forall_mem_append] at h
      refine keeps_noted hv ((keeps_expr hv hc _ object h.1.1.1).bind fun value hvalue => ?_)
      refine (keeps_expr hv hc _ start h.1.1.2).bind fun b hb => ?_
      refine (safe_sliceBound hv hvalue hb _).bind fun _ _ => ?_
      refine (keeps_expr hv hc _ stop h.1.2).bind fun b hb => (safe_sliceBound hv hvalue hb _).bind fun _ _ => ?_
      refine (keeps_expr hv hc _ step h.2).bind fun b hb => (safe_sliceBound hv hvalue hb _).bind fun _ _ => ?_
      exact keeps_settle (Rules.within_slice hv span hvalue)
  | .binary span op left right, h => by
      have hsplit := h
      simp only [Expr.names, List.forall_mem_append] at hsplit
      exact keeps_binary hv hc h (fun p => keeps_expr hv hc p left hsplit.1.2)
        (fun p => keeps_expr hv hc p right hsplit.2) path
  | .unary span op operand, h => by
      simp only [Expr.names, List.forall_mem_cons] at h
      exact keeps_noted hv ((keeps_expr hv hc _ operand h.2).bind fun value hvalue =>
        keeps_settle (Rules.within_unOp hv span hc.oracle h.1 hvalue))
  | .conditional span condition yes no, h => by
      simp only [Expr.names, List.forall_mem_append] at h
      exact keeps_conditional hv h.1.1 (fun p => keeps_expr hv hc p condition h.1.1)
        (fun p => keeps_expr hv hc p yes h.1.2) (fun p => keeps_expr hv hc p no h.2) path span
  | .lambda span params body, h => by
      simp only [Expr.names, List.forall_mem_append] at h
      exact keeps_lambda hv h.1 (fun p => keeps_paramDecls hv hc p 0 params h.1)
        (fun p => keeps_expr hv hc p body h.2) path span
  | .listComp span elem items, h => by
      simp only [Expr.names, List.forall_mem_append] at h
      refine keeps_noted hv (keeps_aside (fun _ hs => hs.extend) ?_)
      exact (safe_clauses hv hc _ 0 items h.2).bind fun _ _ =>
        (keeps_expr hv hc _ elem h.1).bind fun t ht => .pure (hv.list ht)
  | .dictComp span key value items, h => by
      simp only [Expr.names, List.forall_mem_append] at h
      refine keeps_noted hv (keeps_aside (fun _ hs => hs.extend) ?_)
      exact (safe_clauses hv hc _ 0 items h.2).bind fun _ _ => (keeps_expr hv hc _ key h.1.1).bind fun k hk =>
        (keeps_expr hv hc _ value h.1.2).bind fun t ht => .pure (hv.dict hk ht)

theorem keeps_exprs (hv : v.Closed) {c : Setup} (hc : c.Within v) (path : NodePath) (i : Nat) :
    (es : List Expr) → (∀ n ∈ Expr.allNames es, v.IsName n) →
      Keeps v (fun ts => ∀ t ∈ ts, v.IsType t) (exprs c path i es)
  | [], _ => .pure (List.forall_mem_nil _)
  | e :: rest, h => by
      simp only [Expr.allNames, List.forall_mem_append] at h
      exact (keeps_expr hv hc _ e h.1).bind fun first hfirst =>
        (keeps_exprs hv hc path (i + 1) rest h.2).bind fun others hothers =>
          .pure (List.forall_mem_cons.mpr ⟨hfirst, hothers⟩)

theorem keeps_entries (hv : v.Closed) {c : Setup} (hc : c.Within v) (path : NodePath) (i : Nat) :
    (es : List DictEntry) → (∀ n ∈ DictEntry.allNames es, v.IsName n) →
      Keeps v (fun ts => ∀ t ∈ ts, v.IsType t.1 ∧ v.IsType t.2) (entries c path i es)
  | [], _ => .pure (List.forall_mem_nil _)
  | .hole :: rest, h => keeps_entries hv hc path (i + 1) rest h
  | .entry _ key value :: rest, h => by
      simp only [DictEntry.allNames, List.forall_mem_append] at h
      exact (keeps_expr hv hc _ key h.1.1).bind fun k hk => (keeps_expr hv hc _ value h.1.2).bind fun t ht =>
        (keeps_entries hv hc path (i + 1) rest h.2).bind fun others hothers =>
          .pure (List.forall_mem_cons.mpr ⟨⟨hk, ht⟩, hothers⟩)

theorem keeps_fields (hv : v.Closed) {c : Setup} (hc : c.Within v) (path : NodePath) (i : Nat) :
    (es : List FieldExpr) → (∀ n ∈ FieldExpr.allNames es, v.IsName n) →
      Keeps v (fun fs => ∀ f ∈ fs, v.IsName f.1 ∧ v.IsType f.2) (fields c path i es)
  | [], _ => .pure (List.forall_mem_nil _)
  | .hole :: rest, h => keeps_fields hv hc path (i + 1) rest h
  | .field _ name value :: rest, h => by
      simp only [FieldExpr.allNames, List.forall_mem_append, List.forall_mem_cons] at h
      refine (keeps_expr hv hc _ value h.1.2).bind fun info hinfo => (safe_note hv _ _ _ ?_).bind fun _ _ => ?_
      · exact hinfo
      · exact (keeps_fields hv hc path (i + 1) rest h.2).bind fun others hothers =>
          .pure (List.forall_mem_cons.mpr ⟨⟨h.1.1, hinfo⟩, hothers⟩)

theorem keeps_args (hv : v.Closed) {c : Setup} (hc : c.Within v) (path : NodePath) (i : Nat) :
    (es : List ArgExpr) → (∀ n ∈ ArgExpr.allNames es, v.IsName n) →
      Keeps v (fun given => ∀ arg ∈ given, arg.Within v) (args c path i es)
  | [], _ => .pure (List.forall_mem_nil _)
  | .hole :: rest, h => keeps_args hv hc path (i + 1) rest h
  | .arg _ kind name value :: rest, h => by
      simp only [ArgExpr.allNames, List.forall_mem_append, List.forall_mem_cons] at h
      refine (keeps_expr hv hc _ value h.1.2).bind fun info hinfo => (safe_note hv _ _ _ ?_).bind fun _ _ => ?_
      · exact hinfo
      · exact (keeps_args hv hc path (i + 1) rest h.2).bind fun others hothers =>
          .pure (List.forall_mem_cons.mpr ⟨within_argOf h.1.1 hinfo, hothers⟩)

theorem keeps_paramDecls (hv : v.Closed) {c : Setup} (hc : c.Within v) (path : NodePath) (i : Nat) :
    (ps : List ParamDecl) → (∀ n ∈ ParamDecl.allNames ps, v.IsName n) →
      Keeps v (fun params => ∀ p ∈ params, p.Within v) (paramDecls c path i ps)
  | [], _ => .pure (List.forall_mem_nil _)
  | .hole :: rest, h => keeps_paramDecls hv hc path (i + 1) rest h
  | .param _ name kind declared default :: rest, h => by
      simp only [ParamDecl.allNames, List.forall_mem_append, List.forall_mem_cons] at h
      exact (keeps_expr hv hc _ default h.1.2).bind fun info hinfo =>
        (safe_checkDefault hv h.1.1.1 h.1.1.2 hinfo).bind fun _ _ =>
          (keeps_paramDecls hv hc path (i + 1) rest h.2).bind fun others hothers =>
            .pure (List.forall_mem_cons.mpr ⟨within_paramOf hv h.1.1.1 h.1.1.2 kind default, hothers⟩)

theorem safe_clauses (hv : v.Closed) {c : Setup} (hc : c.Within v) (path : NodePath) (i : Nat) :
    (cs : List Clause) → (∀ n ∈ Clause.allNames cs, v.IsName n) → Safe v (clauses c path i cs)
  | [], _ => .skip
  | .hole :: rest, h => safe_clauses hv hc path (i + 1) rest h
  | .clause _ target iterable condition :: rest, h => by
      simp only [Clause.allNames, List.forall_mem_append] at h
      have hrest := safe_clauses hv hc path (i + 1) rest h.2
      refine .ite ?_ ?_
      · refine (keeps_expr hv hc _ condition h.1.2).discard.bind fun _ _ =>
          (safe_modifyScope fun s hs => ?_).bind fun _ _ => hrest
        exact NameFact.within_narrow hs (NameFact.within_ofCondition hv hs h.1.2) true true
      · exact (keeps_expr hv hc _ iterable h.1.1.2).bind fun info hinfo =>
          (keeps_settle (Rules.within_iter hv _ hinfo)).bind fun elem helem =>
            (safe_assign hv hc _ helem _ target h.1.1.1).bind fun _ _ => hrest

theorem safe_assign (hv : v.Closed) {c : Setup} (hc : c.Within v) (path : NodePath) {type : Ty}
    (ht : v.IsType type) (isApproximate : Bool) :
    (e : Expr) → (∀ n ∈ e.names, v.IsName n) → Safe v (assign c path type isApproximate e)
  | .ident _, h => safe_bindName hv (List.forall_mem_singleton.mp h) ht path isApproximate
  | .list span elems, h => (keeps_unpacked hv ht _ span).bind fun _ hts =>
      safe_assignEach hv hc path isApproximate 0 elems h _ hts
  | .tuple span elems, h => (keeps_unpacked hv ht _ span).bind fun _ hts =>
      safe_assignEach hv hc path isApproximate 0 elems h _ hts
  | .index span object index, h => by
      simp only [Expr.names, List.forall_mem_append] at h
      exact (keeps_expr hv hc _ object h.1).bind fun container hcontainer =>
        (keeps_expr hv hc _ index h.2).bind fun at_ hat =>
          safe_storeAt hv hc h.1 hcontainer hat ht path span
  | .member span object name, h => by
      simp only [Expr.names, List.forall_mem_cons] at h
      exact (keeps_expr hv hc _ object h.2).bind fun value hvalue =>
        (keeps_settle (Rules.within_attr hv span hc.oracle hvalue h.1)).bind fun attr hattr =>
          safe_note hv path _ span hattr
  | .hole, _ | .str _ _, _ | .int _ _, _ | .float _ _, _ | .bool _ _, _ | .none _, _ => .skip
  | .dict _ _, _ | .struct _ _, _ | .call _ _ _, _ | .slice _ _ _ _ _, _ | .binary _ _ _ _, _ => .skip
  | .unary _ _ _, _ | .conditional _ _ _ _, _ | .lambda _ _ _, _ | .listComp _ _ _, _ => .skip
  | .dictComp _ _ _ _, _ => .skip

theorem safe_assignEach (hv : v.Closed) {c : Setup} (hc : c.Within v) (path : NodePath) (isApproximate : Bool)
    (i : Nat) : (es : List Expr) → (∀ n ∈ Expr.allNames es, v.IsName n) → (ts : List Ty) →
      (∀ t ∈ ts, v.IsType t) → Safe v (assignEach c path isApproximate i es ts)
  | [], _, _, _ => .skip
  | _ :: _, _, [], _ => .skip
  | e :: rest, h, t :: types, hts => by
      simp only [Expr.allNames, List.forall_mem_append] at h
      obtain ⟨ht, hts⟩ := List.forall_mem_cons.mp hts
      exact (safe_assign hv hc _ ht isApproximate e h.1).bind fun _ _ =>
        safe_assignEach hv hc path isApproximate (i + 1) rest h.2 types hts

end

end Check

end Gradual
