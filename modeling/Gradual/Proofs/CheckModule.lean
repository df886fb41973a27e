import Gradual.Proofs.CheckTree

/-! Statements and modules within a vocabulary: the interface of a module, its errors and its approximations
are within every closed vocabulary that holds the names of the module, the answers of the oracle and the
interfaces that are loaded. -/

namespace Gradual

variable {v : Vocabulary}

namespace Check

section Steps

variable (hv : v.Closed) {c : Setup} (hc : c.Within v)

include hv

/-! ### Assignments and returns -/

include hc in
theorem keeps_augmented {op : Text} {current right : Ty} (hop : v.IsName op) (hcurrent : v.IsType current)
    (hright : v.IsType right) (span rightSpan : Span) :
    Keeps v v.IsType (augmented c op current right span rightSpan) := by
  refine .ite ?_ (keeps_settle (Rules.within_binOp hv span hc.oracle hop hcurrent hright))
  exact (keeps_settle (Rules.within_iter hv rightSpan hright)).bind fun elem helem =>
    .pure (hv.list (hv.union₂ (hv.element hcurrent) helem))

include hc in
theorem keeps_targetValue {target : Expr} (hnames : ∀ n ∈ target.names, v.IsName n) (path : NodePath) :
    Keeps v v.IsType (targetValue c path target) :=
  .ite (.pure hv.any) ((keeps_expr hv hc path target hnames).bind fun _ hinfo => .pure hinfo)

include hc in
theorem safe_assignment {span : Span} {op : Text} {target value : Expr} {declared : TypeExpr}
    (hnames : ∀ n ∈ (Stmt.assign span op target declared value).names, v.IsName n) (path : NodePath) :
    Safe v (assignment c path span op target declared value) := by
  simp only [Stmt.names, List.forall_mem_append, List.forall_mem_cons] at hnames
  obtain ⟨⟨⟨hop, htarget⟩, hdeclared⟩, hvalue⟩ := hnames
  have hdenote := declared.isType_denote hv hdeclared
  refine .ite ?_ ?_
  · refine (keeps_expr hv hc _ value hvalue).bind fun info hinfo => ?_
    have hassign := safe_assign hv hc (0 :: path) hinfo info.isApproximate target htarget
    have herror := TypingError.within_incompatibleAssignment hv hdenote hinfo
    refine .ite ?_ hassign
    split
    · next id => exact (safe_modifyScope fun s hs => hs.annotate id.name hdenote).bind fun _ _ => hassign
    · exact .ite hassign ((safe_report herror _).bind fun _ _ => hassign)
  · refine (keeps_targetValue hv hc htarget _).bind fun current hcurrent =>
      (keeps_expr hv hc _ value hvalue).bind fun right hright =>
        (keeps_augmented hv hc hop hcurrent hright span _).bind fun type htype => ?_
    split
    · next id => exact safe_bindName hv (List.forall_mem_singleton.mp htarget) htype _ _
    · exact .skip

omit hv in
theorem within_returned {s : State} {info : TypeInfo} (hs : s.Within v) (hinfo : v.IsType info.type) :
    (returned s info).Within v := by
  unfold returned
  split
  · next f rest hfunctions =>
    split
    · have hall := hs.functions
      rw [hfunctions] at hall
      obtain ⟨hf, hrest⟩ := List.forall_mem_cons.mp hall
      refine { hs with functions := List.forall_mem_cons.mpr ⟨⟨hf.declared, ?_⟩, hrest⟩ }
      exact List.forall_mem_append.mpr ⟨hf.returns, List.forall_mem_singleton.mpr hinfo⟩
    · exact hs
  · exact hs

theorem within_returnError {declared found : Ty} (hdeclared : v.IsType declared) (hfound : v.IsType found) :
    (returnError declared found).Within v :=
  ⟨hv.embed (hv.embed (hv.ascii rfl) (hv.text hfound) rfl) (hv.text hdeclared) rfl, hv.ascii (t := "") rfl,
    hdeclared, hfound⟩

include hc in
theorem safe_returnStmt {value : Expr} (hnames : ∀ n ∈ value.names, v.IsName n) (path : NodePath) (span : Span) :
    Safe v (returnStmt c path span value) := by
  refine (keeps_expr hv hc _ value hnames).bind fun info hinfo => Keeps.get.bind fun s hs => ?_
  have hreturn : Safe v (modify fun s => returned s info) := .modify fun s hs => within_returned hs hinfo
  split
  · next declared _ _ _ hfunctions =>
    have hdeclared : v.IsType declared :=
      (hs.functions _ (hfunctions ▸ List.mem_cons_self)).declared declared rfl
    exact .ite hreturn ((safe_report (within_returnError hv hdeclared hinfo) span).bind fun _ _ => hreturn)
  · exact hreturn

omit hv in
theorem safe_leaveLoop (isExit : Bool) : Safe v (leaveLoop isExit) := by
  refine .modify fun s hs => ?_
  split
  · next l rest hloops =>
    split
    · have hall := hs.loops
      rw [hloops] at hall
      obtain ⟨hl, hrest⟩ := List.forall_mem_cons.mp hall
      have hown := List.forall_mem_singleton.mpr hs.scope.own
      refine { hs with loops := List.forall_mem_cons.mpr ⟨?_, hrest⟩ }
      cases isExit with
      | true => exact ⟨List.forall_mem_append.mpr ⟨hl.exits, hown⟩, hl.nexts⟩
      | false => exact ⟨hl.exits, List.forall_mem_append.mpr ⟨hl.nexts, hown⟩⟩
    · exact hs
  · exact hs

/-! ### Loads -/

theorem safe_bindLoaded {id : Ident} {info : TypeInfo} (hid : v.IsName id.name) (hinfo : v.IsType info.type)
    (path : NodePath) : Safe v (bindLoaded path id info) := by
  refine Keeps.bind (.modify fun s hs => ?_) fun _ _ => safe_note hv path _ _ hinfo
  exact { hs with scope := hs.scope.bind hid hinfo info.isApproximate }

omit hv in
theorem safe_bindExports {i : Interface} (hi : i.Offers v) : Safe v (bindExports i) := by
  refine .modify fun s hs => { hs with scope := ?_ }
  exact List.foldlRecOn i.exports.entries _ hs.scope fun sc hsc e he =>
    hsc.bind (hi e he).1 (hi e he).2 false

theorem within_notExported {name : Text} (hname : v.IsName name) (module : Text) :
    (notExported module name).Within v :=
  ⟨hv.embed (hv.embed (hv.ascii rfl) (hv.quoted module) rfl) hname rfl, hname, hv.never, hv.never⟩

theorem safe_loadSymbol {source : Option Interface} (hsource : ∀ i, source = some i → i.Offers v)
    {sym : LoadSymbol} (hnames : ∀ n ∈ sym.names, v.IsName n) (path : NodePath) (module : Text) :
    Safe v (loadSymbol path module source sym) := by
  cases sym with
  | hole => exact .skip
  | symbol span here name =>
      have hname : v.IsName name := hnames name List.mem_cons_self
      have hid : v.IsName (here.getD ⟨{}, name⟩).name := by
        cases here with
        | none => exact hname
        | some id => exact hnames id.name mem_second
      cases source with
      | none => exact .ite (safe_modifyScope fun s hs => hs.markWildcard) (safe_bindLoaded hv hid hv.any path)
      | some i =>
          have hi := hsource i rfl
          refine .ite (safe_bindExports hi) ?_
          split
          · next t ht => exact safe_bindLoaded hv hid (hi.get? ht).2 path
          · exact (safe_report (within_notExported hv hname module) span).bind fun _ _ =>
              safe_bindLoaded hv hid hv.any path

theorem safe_loadSymbols {source : Option Interface} (hsource : ∀ i, source = some i → i.Offers v)
    {symbols : List LoadSymbol} (hnames : ∀ n ∈ symbols.flatMap LoadSymbol.names, v.IsName n) (path : NodePath)
    (module : Text) (i : Nat) : Safe v (loadSymbols path module source i symbols) := by
  induction symbols generalizing i with
  | nil => exact .skip
  | cons sym rest ih =>
      rw [List.flatMap_cons, List.forall_mem_append] at hnames
      exact (safe_loadSymbol hv hsource hnames.1 _ module).bind fun _ _ => ih hnames.2 (i + 1)

include hc in
theorem safe_load {symbols : List LoadSymbol} (hnames : ∀ n ∈ symbols.flatMap LoadSymbol.names, v.IsName n)
    (path : NodePath) (span : Span) (module : Text) : Safe v (load c path span module symbols) := by
  have hsource : ∀ i, c.loads.get? module = some i → i.Offers v := fun _ h => hc.loads.get? h
  have hsymbols := safe_loadSymbols hv hsource hnames path module 0
  refine .ite ?_ hsymbols
  exact (safe_approximate hv rfl (hv.embed (hv.ascii rfl) (hv.quoted module) rfl) span).bind fun _ _ => hsymbols

/-! ### Statements -/

omit hv in
theorem within_liveFrame {walked : Bool × Frame} (h : walked.2.Within v) : ∀ f ∈ liveFrame walked, f.Within v := by
  rw [liveFrame]
  split
  · exact List.forall_mem_singleton.mpr h
  · exact List.forall_mem_nil _

theorem safe_mergeLive {branches : List Frame} (hbranches : ∀ f ∈ branches, f.Within v) :
    Safe v (mergeLive branches) :=
  (safe_modifyScope fun _ hs => hs.merge hv hbranches).bind fun _ _ => .pure trivial

theorem safe_mergeLoop {before after : Frame} {loop : LoopFrame} (hbefore : before.Within v)
    (hafter : after.Within v) (hloop : loop.Within v) (live : Bool) :
    Safe v (mergeLive (before :: liveFrame (live, after) ++ loop.nexts ++ loop.exits)) := by
  refine safe_mergeLive hv ?_
  simp only [List.forall_mem_append, List.forall_mem_cons]
  exact ⟨⟨⟨hbefore, within_liveFrame hafter⟩, hloop.nexts⟩, hloop.exits⟩

theorem isType_resultOf {f : FunctionFrame} (hf : f.Within v) (live : Bool) : v.IsType (resultOf f live) := by
  unfold resultOf
  split
  · next t ht => exact hf.declared t ht
  · refine hv.union (List.forall_mem_append.mpr ⟨hf.returns, ?_⟩)
    split
    · exact List.forall_mem_singleton.mpr (hv.prim .none)
    · exact List.forall_mem_nil _

theorem isType_declaredResult {result : TypeExpr} {t : Ty} (hnames : ∀ n ∈ result.names, v.IsName n)
    (h : declaredResult result = some t) : v.IsType t := by
  rw [declaredResult, Option.ite_none_left_eq_some] at h
  cases h.2
  exact result.isType_denote hv hnames

include hc in
theorem safe_define {name : Ident} {params : List ParamDecl} {result : TypeExpr} {body : List Stmt} {span : Span}
    (hnames : ∀ n ∈ (Stmt.define span name params result body).names, v.IsName n)
    (hbody : ∀ path, Safe v (block c path 0 body)) (path : NodePath) :
    Safe v (stmt c path (.define span name params result body)) := by
  simp only [Stmt.names, List.forall_mem_append, List.forall_mem_cons] at hnames
  obtain ⟨⟨⟨hname, hparams⟩, hresult⟩, -⟩ := hnames
  have hdenote := result.isType_denote hv hresult
  refine (keeps_paramDecls hv hc _ 0 params hparams).bind fun given hgiven =>
    (keeps_signatureOf hv hgiven hdenote span).bind fun sig hsig =>
      (safe_modifyScope fun s hs => hs.bind hname (hv.functionOf hsig) _).bind fun _ _ => ?_
  have hinside : Keeps v (fun w => True ∧ w.2.Within v) (do
      bindParams (1 :: path) sig 0 params
      inFunction (declaredResult result) (block c (2 :: path) 0 body)) :=
    (safe_bindParams hv hsig _ 0 hparams).bind fun _ _ =>
      keeps_inFunction (fun t ht => isType_declaredResult hv hresult ht) (hbody _)
  refine (keeps_aside (fun _ hs => hs.extend) hinside).bind fun walked hwalked => ?_
  refine (safe_bindName hv hname (hv.functionOf fun s hs => ?_) _ _).bind fun _ _ => .pure trivial
  obtain ⟨sig', hsig', rfl⟩ := Option.map_eq_some_iff.mp hs
  exact (hsig sig' hsig').withResult (isType_resultOf hv hwalked.2 walked.1)

include hc in
theorem safe_branchStmt {condition : Expr} {yes no : List Stmt} (hcondition : ∀ n ∈ condition.names, v.IsName n)
    (hyes : ∀ path, Safe v (block c path 0 yes)) (hno : ∀ path, Safe v (block c path 0 no)) (path : NodePath)
    (span : Span) : Safe v (stmt c path (.branch span condition yes no)) := by
  refine (keeps_expr hv hc _ condition hcondition).discard.bind fun _ _ => keeps_scope.bind fun s hs => ?_
  have hfacts := NameFact.within_ofCondition hv hs hcondition
  refine (keeps_branch (fun s hs => NameFact.within_narrow hs hfacts true false) (hyes _)).bind fun y hy => ?_
  refine (keeps_branch (fun s hs => NameFact.within_narrow hs hfacts false false) (hno _)).bind fun n hn => ?_
  exact safe_mergeLive hv (List.forall_mem_append.mpr ⟨within_liveFrame hy.2, within_liveFrame hn.2⟩)

include hc in
theorem safe_forIn {target iterable : Expr} {body : List Stmt} (htarget : ∀ n ∈ target.names, v.IsName n)
    (hiterable : ∀ n ∈ iterable.names, v.IsName n) (hbody : ∀ path, Safe v (block c path 0 body))
    (path : NodePath) (span : Span) : Safe v (stmt c path (.forIn span target iterable body)) := by
  refine (keeps_expr hv hc _ iterable hiterable).bind fun info hinfo =>
    (keeps_settle (Rules.within_iter hv _ hinfo)).bind fun elem helem => keeps_scope.bind fun s hs => ?_
  have hround := (safe_assign hv hc (0 :: path) helem info.isApproximate target htarget).bind fun _ _ =>
    keeps_inLoop (hbody (2 :: path))
  exact (keeps_branch (fun _ hs => hs) hround).bind fun w hw => safe_mergeLoop hv hs.own hw.2 hw.1.2 _

include hc in
theorem safe_whileDo {condition : Expr} {body : List Stmt} (hcondition : ∀ n ∈ condition.names, v.IsName n)
    (hbody : ∀ path, Safe v (block c path 0 body)) (path : NodePath) (span : Span) :
    Safe v (stmt c path (.whileDo span condition body)) := by
  refine (keeps_expr hv hc _ condition hcondition).discard.bind fun _ _ => keeps_scope.bind fun s hs =>
    keeps_scope.bind fun s' hs' => ?_
  have hfacts := NameFact.within_ofCondition hv hs hcondition
  refine (keeps_branch (fun s hs => NameFact.within_narrow hs hfacts true false)
    (keeps_inLoop (hbody _))).bind fun w hw => ?_
  exact .ite (safe_mergeLive hv hw.1.2.exits) (safe_mergeLoop hv hs'.own hw.2 hw.1.2 _)

end Steps

mutual

theorem safe_stmt (hv : v.Closed) {c : Setup} (hc : c.Within v) (path : NodePath) :
    (s : Stmt) → (∀ n ∈ s.names, v.IsName n) → Safe v (stmt c path s)
  | .hole, _ | .pass _, _ => .pure trivial
  | .expr e, h => (keeps_expr hv hc path e h).bind fun _ _ => .pure trivial
  | .assign _ _ _ _ _, h => (safe_assignment hv hc h path).bind fun _ _ => .pure trivial
  | .define span name params result body, h => by
      have hbody := h
      simp only [Stmt.names, List.forall_mem_append] at hbody
      exact safe_define hv hc h (fun p => safe_block hv hc p 0 body hbody.2) path
  | .ret span _, h => (safe_returnStmt hv hc h path span).bind fun _ _ => .pure trivial
  | .branch span _ yes no, h => by
      simp only [Stmt.names, List.forall_mem_append] at h
      exact safe_branchStmt hv hc h.1.1 (fun p => safe_block hv hc p 0 yes h.1.2)
        (fun p => safe_block hv hc p 0 no h.2) path span
  | .forIn span _ _ body, h => by
      simp only [Stmt.names, List.forall_mem_append] at h
      exact safe_forIn hv hc h.1.1 h.1.2 (fun p => safe_block hv hc p 0 body h.2) path span
  | .whileDo span _ body, h => by
      simp only [Stmt.names, List.forall_mem_append] at h
      exact safe_whileDo hv hc h.1 (fun p => safe_block hv hc p 0 body h.2) path span
  | .exit _, _ => (safe_leaveLoop true).bind fun _ _ => .pure trivial
  | .next _, _ => (safe_leaveLoop false).bind fun _ _ => .pure trivial
  | .load span module _, h => (safe_load hv hc h path span module).bind fun _ _ => .pure trivial

theorem safe_block (hv : v.Closed) {c : Setup} (hc : c.Within v) (path : NodePath) (i : Nat) :
    (ss : List Stmt) → (∀ n ∈ Stmt.allNames ss, v.IsName n) → Safe v (block c path i ss)
  | [], _ => .pure trivial
  | s :: rest, h => by
      simp only [Stmt.allNames, List.forall_mem_append] at h
      refine (safe_stmt hv hc _ s h.1).bind fun _ _ => .ite (safe_block hv hc path (i + 1) rest h.2) ?_
      exact (safe_unreached (safe_deadBlock hv hc path (i + 1) rest h.2)).bind fun _ _ => .pure trivial

theorem safe_deadBlock (hv : v.Closed) {c : Setup} (hc : c.Within v) (path : NodePath) (i : Nat) :
    (ss : List Stmt) → (∀ n ∈ Stmt.allNames ss, v.IsName n) → Safe v (deadBlock c path i ss)
  | [], _ => .skip
  | s :: rest, h => by
      simp only [Stmt.allNames, List.forall_mem_append] at h
      exact (safe_stmt hv hc _ s h.1).discard.bind fun _ _ => safe_deadBlock hv hc path (i + 1) rest h.2

end

end Check

/-! ### Modules -/

namespace Forward

theorem within_paramOf (hv : v.Closed) {params : List ParamDecl}
    (hnames : ∀ n ∈ ParamDecl.allNames params, v.IsName n) : ∀ p ∈ params.filterMap paramOf, p.Within v := by
  induction params with
  | nil => exact List.forall_mem_nil _
  | cons decl rest ih =>
      cases decl with
      | hole => exact ih hnames
      | param span name kind type default =>
          simp only [ParamDecl.allNames, List.forall_mem_append, List.forall_mem_cons] at hnames
          have hfirst : Param.Within v ⟨.ofKind kind, name.name, type.denote, !default.isHole⟩ :=
            ⟨hnames.1.1.1, type.isType_denote hv hnames.1.1.2⟩
          exact List.forall_mem_cons.mpr ⟨hfirst, ih hnames.2⟩

theorem isType_ofDefinition (hv : v.Closed) {params : List ParamDecl} {result : TypeExpr}
    (hparams : ∀ n ∈ ParamDecl.allNames params, v.IsName n) (hresult : ∀ n ∈ result.names, v.IsName n) :
    v.IsType (ofDefinition params result).type := by
  dsimp only [ofDefinition]
  split
  · next hsig =>
    exact hv.function.mp (hv.make (within_paramOf hv hparams) (result.isType_denote hv hresult) hsig)
  · exact hv.callable

abbrev Known (v : Vocabulary) (known : NameMap Forward) : Prop := known.All fun _ f => v.IsType f.type

theorem known_addName (hv : v.Closed) {known : NameMap Forward} (h : Known v known) (name : Text) :
    Known v (addName known name) := by
  rw [addName]
  split
  · exact h
  · exact h.insert hv.any

mutual

theorem known_collectStmt (hv : v.Closed) {known : NameMap Forward} (h : Known v known) :
    (s : Stmt) → (∀ n ∈ s.names, v.IsName n) → Known v (collectStmt known s)
  | .define _ name params result body, hnames => by
      simp only [Stmt.names, List.forall_mem_append, List.forall_mem_cons] at hnames
      exact h.insert (isType_ofDefinition hv hnames.1.1.2 hnames.1.2)
  | .assign _ _ _ _ _, _ => List.foldlRecOn _ _ h fun _ hknown name _ => known_addName hv hknown name
  | .branch _ _ yes no, hnames => by
      simp only [Stmt.names, List.forall_mem_append] at hnames
      exact known_collect hv (known_collect hv h yes hnames.1.2) no hnames.2
  | .forIn _ _ _ body, hnames => by
      simp only [Stmt.names, List.forall_mem_append] at hnames
      exact known_collect hv h body hnames.2
  | .whileDo _ _ body, hnames => by
      simp only [Stmt.names, List.forall_mem_append] at hnames
      exact known_collect hv h body hnames.2
  | .hole, _ | .expr _, _ | .ret _ _, _ | .exit _, _ | .next _, _ | .pass _, _ | .load _ _ _, _ => h

theorem known_collect (hv : v.Closed) {known : NameMap Forward} (h : Known v known) :
    (ss : List Stmt) → (∀ n ∈ Stmt.allNames ss, v.IsName n) → Known v (collect known ss)
  | [], _ => h
  | s :: rest, hnames => by
      simp only [Stmt.allNames, List.forall_mem_append] at hnames
      exact known_collect hv (known_collectStmt hv h s hnames.1) rest hnames.2

end

end Forward

structure ModuleReport.Within (v : Vocabulary) (r : ModuleReport) : Prop where
  interface : r.interface.Within v
  errors : ∀ e ∈ r.errors, e.Within v
  approximations : ∀ a ∈ r.approximations, a.Within v

theorem Interface.within_ofFrame {f : Frame} (hf : f.Within v) (isExported : Text → Bool) :
    (ofFrame f isExported).Within v where
  sorted := (hf.sorted.filter _).map _ fun _ _ h => h
  exports := List.forall_mem_map.mpr fun e he => hf.symbols e (List.mem_filter.mp he).1

theorem Module.within_walked (hv : v.Closed) {rules : Rules} {loads : NameMap Interface} {m : Module}
    (horacle : rules.oracle.Guarded v) (hloads : loads.All fun _ i => i.Offers v)
    (hnames : ∀ n ∈ m.names, v.IsName n) : (m.walked rules loads).Within v := by
  have hsetup : Setup.Within v ⟨rules, loads, Forward.collect .empty m.body⟩ :=
    ⟨horacle, hloads, Forward.known_collect hv NameMap.all_empty m.body hnames⟩
  exact (Check.safe_block hv hsetup [] 0 m.body hnames {} State.within_empty).2

theorem Module.within_check (hv : v.Closed) {rules : Rules} {loads : NameMap Interface} {m : Module}
    (horacle : rules.oracle.Guarded v) (hloads : loads.All fun _ i => i.Within v)
    (hnames : ∀ n ∈ m.names, v.IsName n) : (m.check rules loads).Within v := by
  have hwalked := m.within_walked hv horacle (fun e he => (hloads e he).exports) hnames
  exact ⟨Interface.within_ofFrame hwalked.scope.own _, hwalked.errors, hwalked.approximations⟩

end Gradual
