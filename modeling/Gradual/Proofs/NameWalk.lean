import Gradual.Proofs.NameEffects

/-! Every walk has the effect on names that the text of the code tells. One lemma for each step of a walk, then one
induction over syntax trees; `effect_block` is what it comes to for the statements of a module. -/

namespace Gradual

theorem Scope.isCopy_narrow (s : Scope) (facts : List NameFact) (holds shadow : Bool) :
    (s.narrow facts holds shadow).isCopy = s.isCopy := by
  induction facts generalizing s with
  | nil => rfl
  | cons f rest ih =>
      refine (ih _).trans ?_
      dsimp only
      by_cases hnarrowed : (shadow || s.hasLocal f.name) = true
      · rw [if_pos hnarrowed]
        rfl
      · rw [if_neg hnarrowed]

theorem Scope.isCopy_foldl_bind (s : Scope) (entries : List (Text × Ty)) :
    (entries.foldl (fun sc e => sc.bind e.1 e.2 false) s).isCopy = s.isCopy := by
  induction entries generalizing s with
  | nil => rfl
  | cons e rest ih => exact ih (s.bind e.1 e.2 false)

theorem Scope.isModule_extend (s : Scope) : s.extend.isModule = false := rfl

theorem Scope.isModule_copy (s : Scope) : s.copy.isModule = false := Bool.and_false _

theorem Scope.isModule_narrow_copy (s : Scope) (facts : List NameFact) (holds shadow : Bool) :
    (s.copy.narrow facts holds shadow).isModule = false := by
  rw [Scope.isModule, Scope.isCopy_narrow]
  exact Bool.and_false _

namespace Check

variable {α : Type} {c : Setup} {isTop : Bool} {xs ys : List Mention} {es : List NameEvent}

/-! ### Steps -/

namespace Does

theorem observe {k : State → Check α}
    (h : ∀ s : State, (s.scope.isModule = true → isTop = true) → s.Effect c xs es ((k s).run s).2) :
    Does c isTop xs es (get >>= k) := h

theorem scope : Does c isTop [] [] Check.scope := look.bind fun s => pure s.scope

theorem modifyScope {f : Scope → Scope} (houter : ∀ s, (f s).outer = s.outer := by exact fun _ => rfl)
    (hcopy : ∀ s, (f s).isCopy = s.isCopy := by exact fun _ => rfl) : Does c isTop [] [] (Check.modifyScope f) :=
  fun s _ => .quiet (houter s.scope) (hcopy s.scope) rfl rfl rfl

theorem report {e : TypingError} (h : e.isUnbound = false) (span : Span) : Does c isTop [] [] (Check.report e span) :=
  fun s _ => s.effect_report_known (knowsNames_singleton.mpr h)

theorem settle {j : Judgement} (h : KnowsNames j.errors) : Does c isTop [] [] (Check.settle j) :=
  fun s _ => (s.effect_report_known h).trans (.quiet rfl rfl rfl rfl rfl)

theorem approximate (category message : Text) (span : Span) :
    Does c isTop [] [] (Check.approximate category message span) :=
  change

theorem taint : Does c isTop [] [] Check.taint := change

theorem note (path : NodePath) (form : Text) (span : Span) (info : TypeInfo) :
    Does c isTop [] [] (Check.note path form span info) :=
  change

theorem noted {path : NodePath} {form : Text} {span : Span} {eval : Check Ty} (h : Does c isTop xs es eval) :
    Does c isTop xs es (Check.noted path form span eval) :=
  look.after fun _ => h.bind_quiet fun _ => look.after fun _ => (note path form span _).after fun _ => pure _

/-- A walk in a scope of its own: it comes back to the scope it began in, and only what it loads stays. -/
theorem aside {walk : Check α} {enter : Scope → Scope} (h : Does c false xs es walk)
    (henter : ∀ s, (enter s).isModule = false) : Does c isTop xs (onlyLoads es) (Check.aside enter walk) := by
  intro s _
  have hinner := h { s with scope := enter s.scope } fun hmodule => (henter s.scope).symm.trans hmodule
  refine ⟨rfl, rfl, hinner.depth, hinner.errors, fun n => ?_⟩
  rw [foldl_after_onlyLoads]
  exact (hinner.loaded n).trans (by rw [henter])

theorem aside_nil {walk : Check α} {enter : Scope → Scope} (h : Does c false xs [] walk)
    (henter : ∀ s, (enter s).isModule = false) : Does c isTop xs [] (Check.aside enter walk) :=
  aside h henter

theorem branch {walk : Check α} {enter : Scope → Scope} (h : Does c false xs es walk)
    (henter : ∀ s : Scope, (enter s.copy).isModule = false) :
    Does c isTop xs (onlyLoads es) (Check.branch enter walk) :=
  aside (h.bind_quiet fun _ => scope.after fun _ => pure _) henter

theorem unreached {walk : Check Unit} (h : Does c false xs es walk) :
    Does c isTop xs (onlyLoads es) (Check.unreached walk) := by
  refine after change fun _ => ?_
  refine bind_quiet (aside h Scope.isModule_copy) fun _ => ?_
  exact change

theorem inLoop {walk : Check α} (h : Does c isTop xs es walk) : Does c isTop xs es (Check.inLoop walk) := by
  refine after change fun _ => ?_
  refine h.bind_quiet fun _ => look.after fun _ => after ?_ fun _ => pure _
  exact change

theorem inBody {walk : Check α} (h : Does c isTop xs es walk) :
    Does c isTop (xs.map Mention.inBody) es (Check.inBody walk) := by
  intro s hs
  have hinner := h { s with depth := s.depth + 1 } hs
  obtain ⟨new, herrors, hnew⟩ := hinner.errors
  rw [Setup.complaints_succ] at hnew
  exact ⟨hinner.outer, hinner.isCopy, congrArg Nat.pred hinner.depth, ⟨new, herrors, hnew⟩, hinner.loaded⟩

theorem inFunction {walk : Check α} (declared : Option Ty) (h : Does c isTop xs es walk) :
    Does c isTop (xs.map Mention.inBody) es (Check.inFunction declared walk) := by
  refine after change fun _ => ?_
  refine h.inBody.bind_quiet fun _ => look.after fun _ => after ?_ fun _ => pure _
  exact change

end Does

/-! ### Names and calls -/

theorem does_known (t : Ty) (isApproximate : Bool) :
    Does c isTop [] [] (do
      if isApproximate then taint
      return t) :=
  .ite (fun _ => Does.taint.after fun _ => .pure t) fun _ => .pure t

theorem does_ident (id : Ident) : Does c isTop [.use false id] [] (ident c id) := by
  have hknown : ∀ (t : Ty) (isApproximate : Bool), Does c isTop [.use false id] [] (do
      if isApproximate then taint
      return t) := fun t isApproximate => (does_known t isApproximate).mono (List.nil_sublist _)
  have hpure : ∀ t : Ty, Does c isTop [.use false id] [] (Pure.pure t) :=
    fun t => (Does.pure t).mono (List.nil_sublist _)
  refine .observe fun s hs => ?_
  dsimp only
  split
  · exact hpure _ s hs
  · split
    · exact hknown _ _ s hs
    · split
      · exact hpure _ s hs
      · split
        · exact ((Does.approximate _ _ _).after fun _ => hpure _) s hs
        · generalize hlater : (if 0 < s.depth then c.forward.get? id.name else none) = later
          cases later with
          | some fwd => exact hknown fwd.type fwd.isApproximate s hs
          | none =>
              have hfree : (Mention.use false id).isForward c.forward s.depth = false := by
                rw [Mention.isForward, Bool.false_or, Bool.and_eq_false_imp]
                intro hdepth
                rw [if_pos (of_decide_eq_true hdepth)] at hlater
                rw [NameMap.contains, hlater]
                rfl
              exact s.effect_report_error hfree

theorem does_recordCall (args : List Arg) (span : Span) : Does c isTop [] [] (recordCall c args span) := by
  unfold recordCall
  dsimp only
  split
  · split
    · exact (Does.settle (Rules.knowsNames_call _ span _ args)).discard.after fun _ => .pure _
    · exact (Does.pure ()).after fun _ => .pure _
  · exact .pure _

theorem does_builtinCall (id : Ident) (sig : Signature) (args : List Arg) (before : Nat) (span : Span) :
    Does c isTop [] [] (builtinCall c id sig args before span) := by
  refine (Does.settle (Rules.knowsNames_callBuiltin _ span _ sig args)).after fun t => ?_
  refine .ite (fun _ => .after ?_ fun _ => .pure t) fun _ => .pure t
  exact .change

theorem does_widen (e : Expr) (before after : Ty) : Does c isTop [] [] (widen e before after) := by
  cases e with
  | ident id =>
      rw [widen]
      refine .modifyScope (fun s => ?_) fun s => ?_
      · split <;> rfl
      · split <;> rfl
  | _ => exact .pure ()

theorem does_widenOnCall (callee : Expr) (args : List Arg) : Does c isTop [] [] (widenOnCall callee args) := by
  unfold widenOnCall
  split
  · refine Does.scope.after fun s => .ite (fun _ => ?_) fun _ => .pure ()
    split
    · split
      · split
        · exact does_widen _ _ _
        · exact .pure ()
      · exact .pure ()
    · exact .pure ()
  · exact .pure ()

/-! ### Slices and parameters -/

theorem does_sliceBound (value : Ty) (span : Span) (bound : TypeInfo) :
    Does c isTop [] [] (sliceBound value span bound) :=
  .ite (fun _ => .pure ()) fun _ => .report rfl _

theorem does_checkDefault (name : Text) (declared : TypeExpr) (default : Expr) (info : TypeInfo) :
    Does c isTop [] [] (checkDefault name declared default info) :=
  .ite (fun _ => .pure ()) fun _ => .report rfl _

theorem does_signatureOf (params : List Param) (result : Ty) (span : Span) :
    Does c isTop [] [] (signatureOf params result span) := by
  unfold signatureOf
  split
  · exact .pure _
  · exact (Does.approximate _ _ _).after fun _ => .pure _

theorem does_bindParams (path : NodePath) (sig : Option Signature) (i : Nat) (params : List ParamDecl) :
    Does c isTop [] [] (bindParams path sig i params) := by
  induction params generalizing i with
  | nil => exact .pure ()
  | cons p rest ih =>
      cases p with
      | hole => exact ih (i + 1)
      | param span name kind declared default =>
          refine .after (.modifyScope (fun s => ?_) fun s => ?_) fun _ =>
            (Does.note _ _ _ _).after fun _ => ih (i + 1)
          · dsimp only
            split <;> rfl
          · dsimp only
            split <;> rfl

/-! ### Assignments -/

theorem does_bindName (path : NodePath) (id : Ident) (type : Ty) (isApproximate : Bool) :
    Does c isTop [] [.bind id.name] (bindName path id type isApproximate) := by
  have hbind : ∀ info : TypeInfo, Does c isTop [] [.bind id.name] (do
      modify fun st =>
        { st with
          scope := st.scope.bind id.name info.type info.isApproximate
          loaded := if st.scope.isModule then st.loaded.erase id.name else st.loaded }
      note path "Identifier" id.span info) := by
    intro info
    refine Does.bind_quiet (fun s _ => ⟨rfl, rfl, rfl, ⟨[], (List.append_nil _).symm, List.nil_sublist _⟩, ?_⟩) fun _ =>
      .note _ _ _ _
    intro n
    show (if s.scope.isModule = true then s.loaded.erase id.name else s.loaded).contains n =
      (s.loaded.contains n && !(s.scope.isModule && n == id.name))
    cases s.scope.isModule with
    | true => exact NameMap.contains_erase ..
    | false => exact (Bool.and_true _).symm
  unfold bindName
  refine Does.scope.after fun s => ?_
  cases s.annotation? id.name with
  | none => exact hbind ⟨type, isApproximate⟩
  | some declared =>
      refine .ite (fun _ => hbind ⟨declared, false⟩) fun _ => ?_
      exact (Does.report rfl _).after fun _ => hbind ⟨declared, false⟩

theorem does_unpacked (type : Ty) (count : Nat) (span : Span) : Does c isTop [] [] (unpacked c type count span) := by
  unfold unpacked
  split
  · exact .ite (fun _ => .pure _) fun _ => (Does.report rfl _).after fun _ => .pure _
  · exact (Does.settle (Rules.knowsNames_iter _ span type)).after fun _ => .pure _

theorem length_unpacked (type : Ty) (count : Nat) (span : Span) (s : State) :
    ((unpacked c type count span).run s).1.length = count := by
  unfold unpacked
  split
  · split
    · next hlength => exact hlength
    · exact List.length_replicate
  · exact List.length_replicate

theorem does_storeAt (path : NodePath) (span : Span) (object index : Expr) (container at_ value : Ty) :
    Does c isTop [] [] (storeAt c path span object index container at_ value) := by
  have hstore : ∀ after, Does c isTop [] [] (do
      widen object container after
      note path "IndexExpression" span ⟨value, false⟩) :=
    fun after => (does_widen object container after).after fun _ => .note _ _ _ _
  unfold storeAt
  split
  · exact hstore _
  · exact .ite (fun _ => hstore _) fun _ => (Does.report rfl _).after fun _ => hstore _
  · exact (Does.settle (Rules.knowsNames_index _ span container at_ _)).after fun _ => .note _ _ _ _

/-! ### Expressions -/

theorem does_call {callee : Expr} {items : List ArgExpr} (hcallee : ∀ path, Does c isTop xs [] (expr c path callee))
    (hitems : ∀ path, Does c isTop ys [] (args c path 0 items)) (path : NodePath) (span : Span) :
    Does c isTop (xs ++ ys) [] (expr c path (.call span callee items)) := by
  refine .noted (Does.scope.after fun s => ?_)
  cases calleeOf c s callee with
  | record =>
      refine Does.mono ?_ (List.sublist_append_right xs ys)
      exact (hitems _).bind_quiet fun given => does_recordCall given span
  | builtin id sig =>
      refine Does.mono ?_ (List.sublist_append_right xs ys)
      refine (Does.note _ _ _ _).after fun _ => Does.look.after fun before => (hitems _).bind_quiet fun given => ?_
      exact does_builtinCall id sig given before.taint span
  | value =>
      refine (hcallee _).bind fun f => (hitems _).bind_quiet fun given => ?_
      refine (Does.settle (Rules.knowsNames_call _ span f.type given)).after fun t => ?_
      exact (does_widenOnCall callee given).after fun _ => .pure t

mutual

theorem does_expr (c : Setup) {isTop : Bool} (path : NodePath) : (e : Expr) → Does c isTop e.mentions [] (expr c path e)
  | .hole => .pure _
  | .ident id => .noted (does_ident id)
  | .str _ _ | .int _ _ | .float _ _ | .bool _ _ | .none _ => .noted (.pure _)
  | .list _ elems | .tuple _ elems => .noted ((does_exprs c path 0 elems).bind_quiet fun _ => .pure _)
  | .dict _ items => .noted ((does_entries c path 0 items).bind_quiet fun _ => .pure _)
  | .struct _ items => .noted ((does_fields c path 0 items).bind_quiet fun _ => .pure _)
  | .call span callee items => does_call (fun p => does_expr c p callee) (fun p => does_args c p 0 items) path span
  | .member span object name => .noted ((does_expr c _ object).bind_quiet fun value =>
      .settle (Rules.knowsNames_attr _ span value.type name.name))
  | .index span object index => .noted ((does_expr c _ object).bind fun value =>
      (does_expr c _ index).bind_quiet fun at_ => .settle (Rules.knowsNames_index _ span value.type at_.type _))
  | .slice span object start stop step => by
      refine .noted ((does_expr c _ object).bind fun value => ?_)
      refine (does_expr c _ start).bind fun b => (does_sliceBound _ _ b).after fun _ => ?_
      refine (does_expr c _ stop).bind fun b => (does_sliceBound _ _ b).after fun _ => ?_
      refine (does_expr c _ step).bind_quiet fun b => (does_sliceBound _ _ b).after fun _ => ?_
      exact .settle (Rules.knowsNames_slice _ span value.type)
  | .binary span op left right => by
      refine .noted ((does_expr c _ left).bind fun l => .ite (fun _ => ?_) fun _ => ?_)
      · refine Does.scope.after fun s => Does.bind_quiet ?_ fun r => .pure _
        exact .aside_nil (does_expr c _ right) fun s => s.isModule_narrow_copy _ _ _
      · exact (does_expr c _ right).bind_quiet fun r => .settle (Rules.knowsNames_binOp _ span op l.type r.type)
  | .unary span op operand => .noted ((does_expr c _ operand).bind_quiet fun value =>
      .settle (Rules.knowsNames_unOp _ span op value.type))
  | .conditional _ condition yes no => by
      refine .noted ((does_expr c _ condition).discard.bind fun _ => Does.scope.after fun s => ?_)
      refine Does.bind (.aside_nil (does_expr c _ yes) fun s => s.isModule_narrow_copy _ _ _) fun y => ?_
      exact Does.bind_quiet (.aside_nil (does_expr c _ no) fun s => s.isModule_narrow_copy _ _ _) fun n => .pure _
  | .lambda span params body => by
      refine .noted ((does_paramDecls c _ 0 params).bind fun declared => ?_)
      refine (does_signatureOf declared .any span).after fun sig => ?_
      refine Does.bind_quiet (.aside_nil ?_ Scope.isModule_extend) fun result => .pure _
      exact (does_bindParams _ sig 0 params).after fun _ => (does_expr c _ body).inBody
  | .listComp _ elem items => by
      refine .noted (.aside_nil ?_ Scope.isModule_extend)
      exact (does_clauses c _ 0 items).bind fun _ => (does_expr c _ elem).bind_quiet fun _ => .pure _
  | .dictComp _ key value items => by
      refine .noted (.aside_nil ?_ Scope.isModule_extend)
      refine (does_clauses c _ 0 items).bind fun _ => (does_expr c _ key).bind fun _ => ?_
      exact (does_expr c _ value).bind_quiet fun _ => .pure _

theorem does_exprs (c : Setup) {isTop : Bool} (path : NodePath) (i : Nat) :
    (es : List Expr) → Does c isTop (mentionsOfExprs es) [] (exprs c path i es)
  | [] => .pure _
  | e :: rest => (does_expr c _ e).bind fun _ => (does_exprs c path (i + 1) rest).bind_quiet fun _ => .pure _

theorem does_entries (c : Setup) {isTop : Bool} (path : NodePath) (i : Nat) :
    (es : List DictEntry) → Does c isTop (mentionsOfEntries es) [] (entries c path i es)
  | [] => .pure _
  | .hole :: rest => does_entries c path (i + 1) rest
  | .entry _ key value :: rest => (does_expr c _ key).bind fun _ => (does_expr c _ value).bind fun _ =>
      (does_entries c path (i + 1) rest).bind_quiet fun _ => .pure _

theorem does_fields (c : Setup) {isTop : Bool} (path : NodePath) (i : Nat) :
    (es : List FieldExpr) → Does c isTop (mentionsOfFields es) [] (fields c path i es)
  | [] => .pure _
  | .hole :: rest => does_fields c path (i + 1) rest
  | .field _ _ value :: rest => (does_expr c _ value).bind fun _ => (Does.note _ _ _ _).after fun _ =>
      (does_fields c path (i + 1) rest).bind_quiet fun _ => .pure _

theorem does_args (c : Setup) {isTop : Bool} (path : NodePath) (i : Nat) :
    (es : List ArgExpr) → Does c isTop (mentionsOfArgs es) [] (args c path i es)
  | [] => .pure _
  | .hole :: rest => does_args c path (i + 1) rest
  | .arg _ _ _ value :: rest => (does_expr c _ value).bind fun _ => (Does.note _ _ _ _).after fun _ =>
      (does_args c path (i + 1) rest).bind_quiet fun _ => .pure _

theorem does_paramDecls (c : Setup) {isTop : Bool} (path : NodePath) (i : Nat) :
    (ps : List ParamDecl) → Does c isTop (mentionsOfParams ps) [] (paramDecls c path i ps)
  | [] => .pure _
  | .hole :: rest => does_paramDecls c path (i + 1) rest
  | .param _ _ _ _ default :: rest => (does_expr c _ default).bind fun _ => (does_checkDefault _ _ _ _).after fun _ =>
      (does_paramDecls c path (i + 1) rest).bind_quiet fun _ => .pure _

/-- Clauses are walked in the scope of their comprehension, so that what they bind is no event. -/
theorem does_clauses (c : Setup) (path : NodePath) (i : Nat) :
    (cs : List Clause) → Does c false (mentionsOfClauses cs) [] (clauses c path i cs)
  | [] => .pure _
  | .hole :: rest => does_clauses c path (i + 1) rest
  | .clause _ target iterable condition :: rest => by
      have hrest := does_clauses c path (i + 1) rest
      refine .ite (fun hhole => ?_) fun hhole => ?_
      · rw [mentionsOfClauses, if_pos hhole]
        refine (does_expr c _ condition).discard.bind fun _ => Does.after ?_ fun _ => hrest
        exact .modifyScope (fun s => s.outer_narrow _ true true) fun s => s.isCopy_narrow _ true true
      · rw [mentionsOfClauses, if_neg hhole, List.append_assoc]
        refine (does_expr c _ iterable).bind fun info => ?_
        refine (Does.settle (Rules.knowsNames_iter _ _ info.type)).after fun elem => ?_
        have hassign : Does c false target.targetMentions []
            (assign c (0 :: i :: path) elem info.isApproximate target) :=
          (does_assign c _ elem info.isApproximate target).of_onlyLoads (onlyLoads_map_bind _)
        exact hassign.bind fun _ => hrest

theorem does_assign (c : Setup) {isTop : Bool} (path : NodePath) (type : Ty) (isApproximate : Bool) :
    (e : Expr) → Does c isTop e.targetMentions ((Forward.targetNames e).map .bind) (assign c path type isApproximate e)
  | .ident id => does_bindName path id type isApproximate
  | .list span elems | .tuple span elems => (does_unpacked type _ span).bind_result fun s =>
      does_assignEach c path isApproximate 0 elems _ (length_unpacked type _ span s)
  | .index span object index => (does_expr c _ object).bind fun container =>
      (does_expr c _ index).bind_quiet fun at_ => does_storeAt path span object index container.type at_.type type
  | .member span object name => (does_expr c _ object).bind_quiet fun value =>
      (Does.settle (Rules.knowsNames_attr _ span value.type name.name)).after fun _ => .note _ _ _ _
  | .hole | .str _ _ | .int _ _ | .float _ _ | .bool _ _ | .none _ => .pure ()
  | .dict _ _ | .struct _ _ | .call _ _ _ | .slice _ _ _ _ _ | .binary _ _ _ _ => .pure ()
  | .unary _ _ _ | .conditional _ _ _ _ | .lambda _ _ _ | .listComp _ _ _ | .dictComp _ _ _ _ => .pure ()

theorem does_assignEach (c : Setup) {isTop : Bool} (path : NodePath) (isApproximate : Bool) (i : Nat) :
    (es : List Expr) → (ts : List Ty) → ts.length = es.length →
      Does c isTop (mentionsOfTargets es) ((Forward.elementNames es).map .bind)
        (assignEach c path isApproximate i es ts)
  | [], _, _ => .pure ()
  | _ :: _, [], hlength => Nat.noConfusion hlength
  | e :: rest, t :: types, hlength => by
      rw [Forward.elementNames, List.map_append]
      refine (does_assign c _ t isApproximate e).bind fun _ => ?_
      exact does_assignEach c path isApproximate (i + 1) rest types (Nat.succ.inj hlength)

end

/-! ### Statements -/

theorem does_augmented (op : Text) (current right : Ty) (span rightSpan : Span) :
    Does c isTop [] [] (augmented c op current right span rightSpan) :=
  .ite (fun _ => (Does.settle (Rules.knowsNames_iter _ rightSpan right)).after fun _ => .pure _)
    fun _ => .settle (Rules.knowsNames_binOp _ span op current right)

theorem does_targetValue (path : NodePath) (target : Expr) :
    Does c isTop target.mentions [] (targetValue c path target) :=
  .ite (fun _ => (Does.pure _).mono (List.nil_sublist _)) fun _ =>
    (does_expr c path target).bind_quiet fun _ => .pure _

theorem does_assignment (path : NodePath) (span : Span) (op : Text) (target : Expr) (declared : TypeExpr)
    (value : Expr) :
    Does c isTop (Stmt.assign span op target declared value).mentions ((assignedNames op target).map .bind)
      (assignment c path span op target declared value) := by
  rw [Stmt.mentions, assignedNames]
  refine .ite (fun hplain => ?_) fun hplain => ?_
  · rw [if_pos hplain, if_pos hplain]
    refine (does_expr c _ value).bind fun info => ?_
    have hassign : Does c isTop target.targetMentions ((Forward.targetNames target).map .bind)
        (assign c (0 :: path) info.type info.isApproximate target) := does_assign c _ _ _ target
    refine .ite (fun _ => ?_) fun _ => hassign
    split
    · exact Does.after .modifyScope fun _ => hassign
    · exact .ite (fun _ => hassign) fun _ => (Does.report rfl _).after fun _ => hassign
  · rw [if_neg hplain, if_neg hplain]
    rw [← List.append_nil value.mentions]
    refine (does_targetValue _ target).bind fun current => (does_expr c _ value).bind fun right => ?_
    refine (does_augmented _ current right.type span _).after fun type => ?_
    cases target with
    | ident id => exact does_bindName _ id type right.isApproximate
    | _ => exact .pure ()

theorem does_returning (span : Span) (info : TypeInfo) : Does c isTop [] [] (do
    match (← get).functions with
    | { declared := some declared, .. } :: _ =>
      if info.type.subtype declared then pure () else report (returnError declared info.type) span
    | _ => pure ()
    modify fun s => returned s info) := by
  have hreturned : Does c isTop [] [] (modify fun s => returned s info) := by
    simp only [returned_eq]
    exact .change
  refine Does.look.after fun s => ?_
  dsimp only
  split
  · exact .ite (fun _ => hreturned) fun _ => (Does.report rfl _).after fun _ => hreturned
  · exact hreturned

theorem does_returnStmt (path : NodePath) (span : Span) (value : Expr) :
    Does c isTop value.mentions [] (returnStmt c path span value) :=
  (does_expr c _ value).bind_quiet fun info => does_returning span info

theorem does_leaveLoop (isExit : Bool) : Does c isTop [] [] (leaveLoop isExit) := by
  rw [leaveLoop_eq]
  exact .change

theorem does_bindLoaded (path : NodePath) (id : Ident) (info : TypeInfo) :
    Does c isTop [] [.load id.name] (bindLoaded path id info) := by
  refine Does.bind_quiet (fun s _ => ⟨rfl, rfl, rfl, ⟨[], (List.append_nil _).symm, List.nil_sublist _⟩, ?_⟩) fun _ =>
    .note _ _ _ _
  exact fun n => NameMap.contains_insert_eq ..

theorem contains_foldl_insert (entries : List (Text × Ty)) (loaded : NameSet) (isModule : Bool) (n : Text) :
    (entries.foldl (fun l e => l.insert e.1 ()) loaded).contains n =
      ((entries.map (·.1)).map NameEvent.load).foldl (NameEvent.after isModule n) (loaded.contains n) := by
  induction entries generalizing loaded with
  | nil => rfl
  | cons e rest ih =>
      refine (ih _).trans ?_
      rw [NameMap.contains_insert_eq]
      rfl

theorem does_bindExports (i : Interface) : Does c isTop [] (i.names.map .load) (bindExports i) :=
  fun s _ => ⟨s.scope.outer_foldl_bind _, s.scope.isCopy_foldl_bind _, rfl,
    ⟨[], (List.append_nil _).symm, List.nil_sublist _⟩, contains_foldl_insert _ _ _⟩

theorem does_loadSymbol (path : NodePath) (module : Text) (source : Option Interface) (sym : LoadSymbol) :
    Does c isTop (mentionsOfSymbols module [sym]) ((sym.loadedNames source).map .load)
      (loadSymbol path module source sym) := by
  cases sym with
  | hole => exact .pure ()
  | symbol span here name =>
      have hquiet : ∀ {events : List NameEvent} {m : Check Unit}, Does c isTop [] events m →
          Does c isTop [.symbol module span name] events m := fun h => h.mono (List.nil_sublist _)
      rw [LoadSymbol.loadedNames]
      cases source with
      | none =>
          refine .ite (fun hall => ?_) fun hall => ?_
          · rw [if_pos hall]
            exact hquiet .modifyScope
          · rw [if_neg hall]
            exact hquiet (does_bindLoaded _ _ _)
      | some i =>
          refine .ite (fun hall => ?_) fun hall => ?_
          · rw [if_pos hall]
            exact hquiet (does_bindExports i)
          · rw [if_neg hall]
            cases i.get? name with
            | some t => exact hquiet (does_bindLoaded _ _ _)
            | none =>
                have hreport : Does c isTop [.symbol module span name] [] (report (notExported module name) span) :=
                  fun s _ => s.effect_report_error rfl
                exact hreport.bind fun _ => does_bindLoaded _ _ _

theorem does_loadSymbols (path : NodePath) (module : Text) (source : Option Interface) (i : Nat)
    (symbols : List LoadSymbol) :
    Does c isTop (mentionsOfSymbols module symbols) ((symbols.flatMap (LoadSymbol.loadedNames source)).map .load)
      (loadSymbols path module source i symbols) := by
  induction symbols generalizing i with
  | nil => exact .pure ()
  | cons sym rest ih =>
      have hmentions : mentionsOfSymbols module (sym :: rest) =
          mentionsOfSymbols module [sym] ++ mentionsOfSymbols module rest := by cases sym <;> rfl
      rw [hmentions, List.flatMap_cons, List.map_append]
      exact (does_loadSymbol _ module source sym).bind fun _ => ih (i + 1)

theorem does_load (path : NodePath) (span : Span) (module : Text) (symbols : List LoadSymbol) :
    Does c isTop (mentionsOfSymbols module symbols)
      ((symbols.flatMap (LoadSymbol.loadedNames (c.loads.get? module))).map .load) (load c path span module symbols) :=
  .ite (fun _ => (Does.approximate _ _ _).after fun _ => does_loadSymbols _ _ _ _ _) fun _ =>
    does_loadSymbols _ _ _ _ _

theorem does_mergeLive (branches : List Frame) : Does c isTop [] [] (mergeLive branches) :=
  Does.after .modifyScope fun _ => .pure _

/-- The events of statements from a state on. Those after a statement that does not come to its end are not reached,
and of them only the loads count. -/
def blockEvents (c : Setup) (path : NodePath) (i : Nat) : List Stmt → State → List NameEvent
  | [], _ => []
  | stmt :: rest, s =>
    let walked := (Check.stmt c (i :: path) stmt).run s
    stmt.events c.loads ++
      if walked.1 then blockEvents c path (i + 1) rest walked.2 else onlyLoads (eventsOfStmts c.loads rest)

theorem onlyLoads_blockEvents (path : NodePath) (i : Nat) (stmts : List Stmt) (s : State) :
    onlyLoads (blockEvents c path i stmts s) = onlyLoads (eventsOfStmts c.loads stmts) := by
  induction stmts generalizing i s with
  | nil => rfl
  | cons stmt rest ih =>
      rw [blockEvents, eventsOfStmts, onlyLoads_append, onlyLoads_append]
      split
      · rw [ih]
      · rw [onlyLoads_onlyLoads]

/-- Outside the scope of the module it does not matter which statements are reached. -/
theorem does_block {path : NodePath} {i : Nat} {stmts : List Stmt}
    (h : ∀ s : State, s.Effect c xs (blockEvents c path i stmts s) ((block c path i stmts).run s).2) :
    Does c false xs (eventsOfStmts c.loads stmts) (block c path i stmts) := fun s hs =>
  (h s).of_onlyLoads (by simpa using hs) (onlyLoads_blockEvents path i stmts s)

theorem effect_block_rest {path : NodePath} {i : Nat} (first : Stmt) {rest : List Stmt}
    (hlive : ∀ s : State, s.Effect c xs (blockEvents c path (i + 1) rest s) ((block c path (i + 1) rest).run s).2)
    (hdead : Does c false xs (eventsOfStmts c.loads rest) (deadBlock c path (i + 1) rest)) (s : State) :
    ((stmt c (i :: path) first).run s).2.Effect c xs
      (if ((stmt c (i :: path) first).run s).1 then
        blockEvents c path (i + 1) rest ((stmt c (i :: path) first).run s).2
      else onlyLoads (eventsOfStmts c.loads rest))
      ((block c path i (first :: rest)).run s).2 := by
  show State.Effect c _ _ _ (StateT.run (if ((stmt c (i :: path) first).run s).1 then block c path (i + 1) rest
    else unreached (deadBlock c path (i + 1) rest) >>= fun _ => pure false) _).2
  split
  · exact hlive _
  · exact (Does.bind_quiet (.unreached hdead) fun _ => .pure false) _ fun _ => rfl

mutual

theorem does_stmt (c : Setup) {isTop : Bool} (path : NodePath) :
    (s : Stmt) → Does c isTop s.mentions (s.events c.loads) (stmt c path s)
  | .hole => .pure _
  | .expr e => (does_expr c path e).bind_quiet fun _ => .pure _
  | .assign span op target declared value =>
      (does_assignment path span op target declared value).bind_quiet fun _ => .pure _
  | .define span name params result body => by
      rw [Stmt.mentions, ← List.append_nil ((mentionsOfStmts body).map Mention.inBody)]
      refine (does_paramDecls c _ 0 params).bind fun given => ?_
      refine (does_signatureOf given result.denote span).after fun sig => ?_
      refine Does.after .modifyScope fun _ => ?_
      refine Does.bind (.aside ?_ Scope.isModule_extend) fun walked => ?_
      · exact (does_bindParams _ sig 0 params).after fun _ => .inFunction _ (does_block (effect_block c _ 0 body))
      · exact (does_bindName _ name _ _).bind_quiet fun _ => .pure _
  | .ret span value => (does_returnStmt path span value).bind_quiet fun _ => .pure _
  | .branch _ condition yes no => by
      refine (does_expr c _ condition).discard.bind fun _ => Does.scope.after fun s => ?_
      have hyes := does_block (effect_block c (1 :: path) 0 yes)
      have hno := does_block (effect_block c (2 :: path) 0 no)
      refine Does.bind (hyes.branch fun s => s.isModule_narrow_copy _ _ _) fun y => ?_
      exact Does.bind_quiet (hno.branch fun s => s.isModule_narrow_copy _ _ _) fun n => does_mergeLive _
  | .forIn _ target iterable body => by
      have hround : ∀ (elem : Ty) (isApproximate : Bool),
          Does c false (target.targetMentions ++ mentionsOfStmts body) (eventsOfStmts c.loads body) (do
            assign c (0 :: path) elem isApproximate target
            inLoop (block c (2 :: path) 0 body)) := by
        intro elem isApproximate
        have hassign : Does c false target.targetMentions [] (assign c (0 :: path) elem isApproximate target) :=
          (does_assign c _ elem isApproximate target).of_onlyLoads (onlyLoads_map_bind _)
        exact hassign.bind fun _ => (does_block (effect_block c _ 0 body)).inLoop
      refine (does_expr c _ iterable).bind fun info => ?_
      refine (Does.settle (Rules.knowsNames_iter _ _ info.type)).after fun elem => Does.scope.after fun s => ?_
      exact Does.bind_quiet (.branch (hround elem _) Scope.isModule_copy) fun walked => does_mergeLive _
  | .whileDo _ condition body => by
      refine (does_expr c _ condition).discard.bind fun _ => Does.scope.after fun s => Does.scope.after fun before => ?_
      have hbody := does_block (effect_block c (1 :: path) 0 body)
      refine Does.bind_quiet (hbody.inLoop.branch fun s => s.isModule_narrow_copy _ _ _) ?_
      exact fun walked => .ite (fun _ => does_mergeLive _) fun _ => does_mergeLive _
  | .exit _ => (does_leaveLoop true).after fun _ => .pure _
  | .next _ => (does_leaveLoop false).after fun _ => .pure _
  | .pass _ => .pure _
  | .load span module symbols => (does_load path span module symbols).bind_quiet fun _ => .pure _

theorem effect_block (c : Setup) (path : NodePath) (i : Nat) : (stmts : List Stmt) → (s : State) →
    s.Effect c (mentionsOfStmts stmts) (blockEvents c path i stmts s) ((block c path i stmts).run s).2
  | [], s => .refl s
  | first :: rest, s => (does_stmt c (i :: path) first s fun _ => rfl).trans
      (effect_block_rest first (effect_block c path (i + 1) rest) (does_deadBlock c path (i + 1) rest) s)

theorem does_deadBlock (c : Setup) {isTop : Bool} (path : NodePath) (i : Nat) : (stmts : List Stmt) →
    Does c isTop (mentionsOfStmts stmts) (eventsOfStmts c.loads stmts) (deadBlock c path i stmts)
  | [] => .pure ()
  | s :: rest => (does_stmt c _ s).discard.bind fun _ => does_deadBlock c path (i + 1) rest

end

end Check

end Gradual
