import Gradual.Proofs.DeadCode
import Gradual.Proofs.StepEffects

/-! Whether statements can complete, which breaks are reached and what a function returns, as rules on the
syntax. Only calls that never return depend on types, and those are read off the notes of the check. The walk
tells the same by other means: results of blocks, a count of enclosing dead code, and frames on stacks to which
breaks and returns add. -/

namespace Gradual

/-! ### Rules -/

namespace Stmt

mutual

/-- Whether a statement can complete normally. A loop over elements always can; an endless loop can if a
reachable break leaves it. -/
def completes (types : TypeMap) (path : NodePath) : Stmt → Bool
  | .expr e => !(e.isCall && (types.get? path).any fun info => info.type.isNever)
  | .ret _ _ | .exit _ | .next _ => false
  | .branch _ _ yes no => allComplete types (1 :: path) 0 yes || allComplete types (2 :: path) 0 no
  | .whileDo _ condition body => !condition.isTrue || anyBreaks types (1 :: path) 0 body
  | .hole | .assign _ _ _ _ _ | .define _ _ _ _ _ | .forIn _ _ _ _ | .pass _ | .load _ _ _ => true

/-- Whether the statements of a block from place `i` on can complete normally one after the other. -/
def allComplete (types : TypeMap) (path : NodePath) (i : Nat) : List Stmt → Bool
  | [] => true
  | s :: rest => s.completes types (i :: path) && allComplete types path (i + 1) rest

/-- Whether a statement has a reachable break that leaves the loop around it. -/
def breaks (types : TypeMap) (path : NodePath) : Stmt → Bool
  | .exit _ => true
  | .branch _ _ yes no => anyBreaks types (1 :: path) 0 yes || anyBreaks types (2 :: path) 0 no
  | .hole | .expr _ | .assign _ _ _ _ _ | .define _ _ _ _ _ | .ret _ _ | .forIn _ _ _ _ | .whileDo _ _ _ | .next _
  | .pass _ | .load _ _ _ => false

/-- Whether the statements of a block from place `i` on have a reachable break that leaves the loop around
them. -/
def anyBreaks (types : TypeMap) (path : NodePath) (i : Nat) : List Stmt → Bool
  | [] => false
  | s :: rest => s.breaks types (i :: path) || s.completes types (i :: path) && anyBreaks types path (i + 1) rest

end

/-- The type of a returned value: `None` if there is none. -/
def returnedType (types : TypeMap) (path : NodePath) (value : Expr) : Ty :=
  if value.isHole then .none else ((types.get? path).map (·.type)).getD .any

mutual

/-- The types of the reachable returns of a statement. -/
def returns (types : TypeMap) (path : NodePath) : Stmt → List Ty
  | .ret _ value => [returnedType types (0 :: path) value]
  | .branch _ _ yes no => allReturns types (1 :: path) 0 yes ++ allReturns types (2 :: path) 0 no
  | .forIn _ _ _ body => allReturns types (2 :: path) 0 body
  | .whileDo _ _ body => allReturns types (1 :: path) 0 body
  | .hole | .expr _ | .assign _ _ _ _ _ | .define _ _ _ _ _ | .exit _ | .next _ | .pass _ | .load _ _ _ => []

/-- The types of the reachable returns of a block from place `i` on. -/
def allReturns (types : TypeMap) (path : NodePath) (i : Nat) : List Stmt → List Ty
  | [] => []
  | s :: rest => s.returns types (i :: path) ++
      if s.completes types (i :: path) then allReturns types path (i + 1) rest else []

end

mutual

/-- Whether breaks and continues stand inside loops of the same function body; `inLoop` tells whether the
statement does. -/
def exitsInLoops (inLoop : Bool) : Stmt → Bool
  | .exit _ | .next _ => inLoop
  | .branch _ _ yes no => allExitsInLoops inLoop yes && allExitsInLoops inLoop no
  | .forIn _ _ _ body | .whileDo _ _ body => allExitsInLoops true body
  | .define _ _ _ _ body => allExitsInLoops false body
  | .hole | .expr _ | .assign _ _ _ _ _ | .ret _ _ | .pass _ | .load _ _ _ => true

/-- Whether breaks and continues in a block stand inside loops of the same function body. -/
def allExitsInLoops (inLoop : Bool) : List Stmt → Bool
  | [] => true
  | s :: rest => s.exitsInLoops inLoop && allExitsInLoops inLoop rest

end

end Stmt

/-! ### What a walk adds to the frames -/

/-- There are exits from a loop if there was a break, and outside of loops neither exits nor entries of next
rounds. -/
structure LoopFrame.LeftBy (inLoop breaks : Bool) (exits nexts : List Frame) : Prop where
  broken : exits.isEmpty = !breaks
  outside : inLoop = false → exits = [] ∧ nexts = []

theorem LoopFrame.leftBy_nil (inLoop : Bool) : LeftBy inLoop false [] [] := ⟨rfl, fun _ => ⟨rfl, rfl⟩⟩

theorem LoopFrame.LeftBy.append {inLoop breaks breaks' : Bool} {exits nexts exits' nexts' : List Frame}
    (h : LeftBy inLoop breaks exits nexts) (h' : LeftBy inLoop breaks' exits' nexts') :
    LeftBy inLoop (breaks || breaks') (exits ++ exits') (nexts ++ nexts') := by
  refine ⟨?_, fun hin => ?_⟩
  · rw [Bool.not_or, ← h.broken, ← h'.broken]
    cases exits with
    | nil => rfl
    | cons => rfl
  · rw [(h.outside hin).1, (h.outside hin).2, (h'.outside hin).1, (h'.outside hin).2]
    exact ⟨rfl, rfl⟩

/-- The innermost of some functions got returns. -/
def FunctionFrame.Added (returns : List Ty) (functions functions' : List FunctionFrame) : Prop :=
  ∃ isApproximate, functions' =
    functions.modifyHead fun f => ⟨f.declared, f.returns ++ returns, f.isApproximate || isApproximate⟩

theorem FunctionFrame.added_self (functions : List FunctionFrame) : Added [] functions functions := by
  refine ⟨false, ?_⟩
  cases functions with
  | nil => rfl
  | cons f rest => simp only [List.modifyHead_cons, List.append_nil, Bool.or_false]

theorem LoopFrame.Gains.eq_of_outside {breaks : Bool} {loops loops' : List LoopFrame}
    (h : Gains (LeftBy false breaks) loops loops') : loops' = loops := by
  obtain ⟨exits, nexts, hleft, rfl⟩ := h
  rw [(hleft.outside rfl).1, (hleft.outside rfl).2]
  exact modifyHead_append_nil loops

theorem FunctionFrame.Added.trans {returns returns' : List Ty} {functions functions' functions'' : List FunctionFrame}
    (h : Added returns functions functions') (h' : Added returns' functions' functions'') :
    Added (returns ++ returns') functions functions'' := by
  obtain ⟨isApproximate, rfl⟩ := h
  obtain ⟨isApproximate', rfl⟩ := h'
  refine ⟨isApproximate || isApproximate', ?_⟩
  rw [List.modifyHead_modifyHead]
  simp only [Function.comp_def, List.append_assoc, Bool.or_assoc]

/-- What a walk does to the frames of a state. -/
structure State.Collects (inLoop : Bool) (s s' : State) (breaks : Bool) (returns : List Ty) : Prop where
  loops : LoopFrame.Gains (LoopFrame.LeftBy inLoop breaks) s.loops s'.loops
  functions : FunctionFrame.Added returns s.functions s'.functions

namespace State.Collects

variable {inLoop : Bool} {s s' s'' : State} {breaks breaks' : Bool} {returns returns' : List Ty}

theorem of_same (hloops : s'.loops = s.loops) (hfunctions : s'.functions = s.functions) :
    Collects inLoop s s' false [] :=
  ⟨hloops ▸ LoopFrame.gains_self (LoopFrame.leftBy_nil inLoop) s.loops,
    hfunctions ▸ FunctionFrame.added_self s.functions⟩

theorem trans (h : Collects inLoop s s' breaks returns) (h' : Collects inLoop s' s'' breaks' returns') :
    Collects inLoop s s'' (breaks || breaks') (returns ++ returns') :=
  ⟨h.loops.trans .append h'.loops, h.functions.trans h'.functions⟩

end State.Collects

theorem State.report_nil (s : State) : s.report [] = s := by
  unfold State.report
  split
  · rw [List.append_nil]
  · rfl

theorem State.scope_report (s : State) (errors : List TypingError) : (s.report errors).scope = s.scope := by
  unfold State.report
  split <;> rfl

theorem State.types_report (s : State) (errors : List TypingError) : (s.report errors).types = s.types := by
  unfold State.report
  split <;> rfl

namespace Check

theorem get?_noted {path : NodePath} {form : Text} {span : Span} {eval : Check Ty} {s : State}
    (h : ((noted path form span eval).run s).2.dead = 0) :
    ((noted path form span eval).run s).2.types.get? path = some ((noted path form span eval).run s).1 := by
  show (((eval.run s).2.note path form span _).types).get? path = _
  have hlive : (eval.run s).2.dead = 0 := h
  simp only [State.note, TypeMap.insert, TypeMap.get?, hlive, if_true, List.find?_cons, beq_self_eq_true,
    Option.map_some]
  rfl

theorem get?_expr (c : Setup) (path : NodePath) {e : Expr} (he : e.isHole = false) {s : State} (hlive : s.dead = 0) :
    ((expr c path e).run s).2.types.get? path = some ((expr c path e).run s).1 := by
  have hdead : ((expr c path e).run s).2.dead = 0 := (moves_expr c path s e).dead.trans hlive
  cases e with
  | hole => cases he
  | _ => exact get?_noted hdead

/-! ### Statements -/

theorem exists_run_returnStmt (c : Setup) (path : NodePath) (span : Span) (value : Expr) (s : State) :
    ∃ errors, ((returnStmt c path span value).run s).2 =
      returned (((expr c (0 :: path) value).run s).2.report errors) ((expr c (0 :: path) value).run s).1 := by
  refine of_run_bind (fun r => ∃ errors, r.2 = returned (((expr c (0 :: path) value).run s).2.report errors) _) ?_
  refine of_run_bind (fun r => ∃ errors, r.2 = returned (((expr c (0 :: path) value).run s).2.report errors) _) ?_
  dsimp only
  split
  · split
    · exact ⟨[], by rw [State.report_nil]; rfl⟩
    · exact ⟨_, rfl⟩
  · exact ⟨[], by rw [State.report_nil]; rfl⟩

/-- A statement that is reached does what the rules say, by the types of a map that has those of its nodes. -/
def StmtAccords (c : Setup) (path : NodePath) (inLoop : Bool) (st : Stmt) : Prop :=
  ∀ (s : State) (types : TypeMap), s.dead = 0 → types.AgreesAt path ((stmt c path st).run s).2.types →
    ((stmt c path st).run s).1 = st.completes types path ∧
      State.Collects inLoop s ((stmt c path st).run s).2 (st.breaks types path) (st.returns types path)

/-- A block that is reached does what the rules say, by the types of a map that has those of its nodes. -/
def BlockAccords (c : Setup) (path : NodePath) (i : Nat) (inLoop : Bool) (stmts : List Stmt) : Prop :=
  ∀ (s : State) (types : TypeMap), s.dead = 0 →
    (∀ j, i ≤ j → types.AgreesAt (j :: path) ((block c path i stmts).run s).2.types) →
      ((block c path i stmts).run s).1 = Stmt.allComplete types path i stmts ∧
        State.Collects inLoop s ((block c path i stmts).run s).2 (Stmt.anyBreaks types path i stmts)
          (Stmt.allReturns types path i stmts)

section Statements

variable (c : Setup) {path : NodePath} {inLoop : Bool}

theorem stmtAccords_of_binding {st : Stmt} (walk : State → State) (hrun : ∀ s, (stmt c path st).run s = (true, walk s))
    (hmoves : ∀ s : State, s.Moves (.binding path) (walk s)) (hcompletes : ∀ types, st.completes types path = true)
    (hbreaks : ∀ types, st.breaks types path = false) (hreturns : ∀ types, st.returns types path = []) :
    StmtAccords c path inLoop st := by
  intro s types _ _
  rw [hrun, hcompletes, hbreaks, hreturns]
  exact ⟨rfl, .of_same ((hmoves s).loops id) ((hmoves s).functions id)⟩

theorem stmtAccords_expr (e : Expr) : StmtAccords c path inLoop (.expr e) := by
  intro s types hlive htypes
  have hmoves := moves_expr c path s e
  refine ⟨?_, .of_same (hmoves.loops id) (hmoves.functions id)⟩
  show (!(e.isCall && ((expr c path e).run s).1.type.isNever)) = _
  rw [Stmt.completes]
  cases hcall : e.isCall with
  | false => rfl
  | true =>
      have hhole : e.isHole = false := by
        cases e with
        | hole => cases hcall
        | _ => rfl
      have hget : types.get? path = some ((expr c path e).run s).1 :=
        (htypes path List.suffix_rfl).trans (get?_expr c path hhole hlive)
      rw [hget]
      rfl

theorem returnedType_eq {value : Expr} {s : State} (hlive : s.dead = 0) {types : TypeMap}
    (htypes : types.AgreesAt path ((expr c path value).run s).2.types) :
    Stmt.returnedType types path value = ((expr c path value).run s).1.type := by
  cases hhole : value.isHole with
  | true =>
      cases value with
      | hole => rfl
      | _ => cases hhole
  | false =>
      have hget := (htypes path List.suffix_rfl).trans (get?_expr c path hhole hlive)
      rw [Stmt.returnedType, hhole, hget]
      rfl

theorem stmtAccords_ret (span : Span) (value : Expr) : StmtAccords c path inLoop (.ret span value) := by
  intro s types hlive htypes
  obtain ⟨errors, hrun⟩ := exists_run_returnStmt c path span value s
  have hmoves := moves_expr c (0 :: path) s value
  have hreport := State.moves_report (.evaluating (0 :: path)) ((expr c (0 :: path) value).run s).2 errors
  have hdead := (hreport.dead.trans hmoves.dead).trans hlive
  have hstmt : ((stmt c path (.ret span value)).run s).2 = ((returnStmt c path span value).run s).2 := rfl
  rw [returned_eq, if_pos hdead] at hrun
  rw [hstmt, hrun] at htypes ⊢
  have hsame : types.AgreesAt (0 :: path) ((expr c (0 :: path) value).run s).2.types := by
    refine (htypes.child 0).trans fun at_ _ => ?_
    show (State.report _ errors).types.get? at_ = _
    rw [State.types_report]
  refine ⟨rfl, ?_, ?_⟩
  · show LoopFrame.Gains (LoopFrame.LeftBy inLoop false) s.loops (State.report _ errors).loops
    rw [hreport.loops id, hmoves.loops id]
    exact LoopFrame.gains_self (LoopFrame.leftBy_nil inLoop) s.loops
  · rw [Stmt.returns, returnedType_eq c hlive hsame]
    refine ⟨((expr c (0 :: path) value).run s).1.isApproximate, ?_⟩
    show List.modifyHead _ (State.report _ errors).functions = _
    rw [hreport.functions id, hmoves.functions id]

theorem stmtAccords_exit (span : Span) (hin : inLoop = true) : StmtAccords c path inLoop (.exit span) := by
  intro s types hlive _
  have hstmt : (stmt c path (.exit span)).run s = (false, ((leaveLoop true).run s).2) := rfl
  rw [hstmt]
  refine ⟨rfl, gains_leaveLoop hlive true ⟨rfl, fun hout => by cases hin.symm.trans hout⟩, ?_⟩
  rw [leaveLoop_eq]
  exact FunctionFrame.added_self s.functions

theorem stmtAccords_next (span : Span) (hin : inLoop = true) : StmtAccords c path inLoop (.next span) := by
  intro s types hlive _
  have hstmt : (stmt c path (.next span)).run s = (false, ((leaveLoop false).run s).2) := rfl
  rw [hstmt]
  refine ⟨rfl, gains_leaveLoop hlive false ⟨rfl, fun hout => by cases hin.symm.trans hout⟩, ?_⟩
  rw [leaveLoop_eq]
  exact FunctionFrame.added_self s.functions

/-- Blocks of a statement that are walked at different places do not note the same nodes. -/
theorem agreesAt_sibling {i j : Nat} (hne : i ≠ j) {s s' : State} (h : s.Moves (.walkingFrom 0 (j :: path)) s') :
    TypeMap.AgreesAt (i :: path) s'.types s.types := by
  refine h.agreesAt fun noted hnoted hbelow => ?_
  obtain ⟨k, -, hk⟩ := hnoted
  exact not_below_sibling hne hbelow ((List.suffix_cons k (j :: path)).trans hk)

theorem stmtAccords_branch (span : Span) (condition : Expr) {yes no : List Stmt}
    (hyes : BlockAccords c (1 :: path) 0 inLoop yes) (hno : BlockAccords c (2 :: path) 0 inLoop no) :
    StmtAccords c path inLoop (.branch span condition yes no) := by
  intro s types hlive htypes
  obtain ⟨tested, y, n, hwalk⟩ := exists_branchWalk c path s condition yes no
  have htested := hwalk.moves_tested
  have hyes := hyes { tested with scope := narrowed tested condition true } types (htested.dead.trans hlive)
  have hy := moves_block c (1 :: path) { tested with scope := narrowed tested condition true } 0 yes
  rw [hwalk.takes] at hyes hy
  have hno := hno { y.2 with scope := narrowed tested condition false } types
    (hy.dead.trans (htested.dead.trans hlive))
  have hn := moves_block c (2 :: path) { y.2 with scope := narrowed tested condition false } 0 no
  rw [hwalk.skips] at hno hn
  rw [hwalk.run] at htypes ⊢
  have htypes : types.AgreesAt path n.2.types := htypes
  obtain ⟨hnresult, hncollects⟩ := hno fun j _ => (htypes.child 2).child j
  obtain ⟨hyresult, hycollects⟩ := hyes fun j _ => ((htypes.child 1).trans (agreesAt_sibling (by decide) hn)).child j
  refine ⟨?_, ?_⟩
  · rw [Stmt.completes, ← hyresult, ← hnresult]
    show (!(liveFrame (y.1, _) ++ liveFrame (n.1, _)).isEmpty) = (y.1 || n.1)
    cases y.1 <;> cases n.1 <;> rfl
  · have hboth : State.Collects inLoop tested n.2 _ _ :=
      State.Collects.trans ⟨hycollects.loops, hycollects.functions⟩ ⟨hncollects.loops, hncollects.functions⟩
    exact ⟨htested.loops id ▸ hboth.loops, htested.functions id ▸ hboth.functions⟩

theorem stmtAccords_forIn (span : Span) (target iterable : Expr) {body : List Stmt}
    (hbody : BlockAccords c (2 :: path) 0 true body) :
    StmtAccords c path inLoop (.forIn span target iterable body) := by
  intro s types hlive htypes
  obtain ⟨evaluated, bound, walked, hwalk⟩ := exists_forWalk c path s target iterable body
  have hevaluated := hwalk.moves_evaluated
  have hbound := hwalk.moves_bound
  have hbody := hbody { bound with loops := {} :: bound.loops } types
    (hbound.dead.trans (hevaluated.dead.trans hlive))
  rw [hwalk.walks] at hbody
  rw [hwalk.run] at htypes ⊢
  have htypes : types.AgreesAt path walked.2.types := htypes
  obtain ⟨-, hcollects⟩ := hbody fun j _ => (htypes.child 2).child j
  refine ⟨rfl, ?_, ?_⟩
  · show LoopFrame.Gains (LoopFrame.LeftBy inLoop false) s.loops walked.2.loops.tail
    rw [hcollects.loops.tail.2, hbound.loops id, hevaluated.loops id]
    exact LoopFrame.gains_self (LoopFrame.leftBy_nil inLoop) s.loops
  · exact (hbound.functions id).trans (hevaluated.functions id) ▸ hcollects.functions

theorem stmtAccords_whileDo (span : Span) (condition : Expr) {body : List Stmt}
    (hbody : BlockAccords c (1 :: path) 0 true body) :
    StmtAccords c path inLoop (.whileDo span condition body) := by
  intro s types hlive htypes
  obtain ⟨tested, walked, hwalk⟩ := exists_whileWalk c path s condition body
  have htested := hwalk.moves_tested
  have hbody := hbody { tested with loops := {} :: tested.loops, scope := narrowed tested condition true } types
    (htested.dead.trans hlive)
  rw [hwalk.walks] at hbody
  have hframes (hbelow : types.AgreesAt path walked.2.types) :
      ((walked.2.loops.head?.getD {}).exits.isEmpty = !Stmt.anyBreaks types (1 :: path) 0 body) ∧
        LoopFrame.Gains (LoopFrame.LeftBy inLoop false) s.loops walked.2.loops.tail ∧
          FunctionFrame.Added (Stmt.allReturns types (1 :: path) 0 body) s.functions walked.2.functions := by
    obtain ⟨-, hcollects⟩ := hbody fun j _ => (hbelow.child 1).child j
    obtain ⟨hexits, htail⟩ := hcollects.loops.tail
    rw [htail, htested.loops id]
    exact ⟨hexits.broken, LoopFrame.gains_self (LoopFrame.leftBy_nil inLoop) s.loops,
      htested.functions id ▸ hcollects.functions⟩
  cases hcondition : condition.isTrue with
  | true =>
      rw [hwalk.endless hcondition] at htypes ⊢
      obtain ⟨hexits, hloops, hfunctions⟩ := hframes htypes
      refine ⟨?_, hloops, hfunctions⟩
      rw [Stmt.completes, hcondition, hexits, Bool.not_not]
      rfl
  | false =>
      rw [hwalk.ends hcondition] at htypes ⊢
      obtain ⟨-, hloops, hfunctions⟩ := hframes htypes
      refine ⟨?_, hloops, hfunctions⟩
      rw [Stmt.completes, hcondition]
      rfl

theorem accords_body {body : List Stmt} (hbody : BlockAccords c path 0 false body) (declared : Option Ty)
    {inside : State} (hlive : inside.dead = 0) {walked : Bool × State}
    (hwalked : (block c path 0 body).run { inside with
      functions := { declared := declared } :: inside.functions, depth := inside.depth + 1 } = walked)
    {types : TypeMap} (htypes : types.AgreesAt path walked.2.types) :
    walked.1 = Stmt.allComplete types path 0 body ∧ walked.2.loops = inside.loops ∧
      ∃ isApproximate, walked.2.functions =
        ⟨declared, Stmt.allReturns types path 0 body, isApproximate⟩ :: inside.functions := by
  subst hwalked
  obtain ⟨hresult, hcollects⟩ := hbody { inside with
    functions := { declared := declared } :: inside.functions, depth := inside.depth + 1 } types hlive
      fun j _ => htypes.child j
  obtain ⟨isApproximate, hreturns⟩ := hcollects.functions
  refine ⟨hresult, hcollects.loops.eq_of_outside, isApproximate, hreturns.trans ?_⟩
  rw [List.modifyHead_cons, List.nil_append, Bool.false_or]

/-- A definition, from the walk of its body: what is noted there stays. -/
theorem accords_defineWalk {s : State} {name : Ident} {params : List ParamDecl} {result : TypeExpr} {body : List Stmt}
    {span : Span} {signed : Option Signature × State} {outside : Scope} {inside : State} {walked : Bool × State}
    (hwalk : DefineWalk c path s name params result body span signed outside inside walked)
    (hbody : BlockAccords c (2 :: path) 0 false body) (hlive : s.dead = 0) {types : TypeMap}
    (htypes : types.AgreesAt path ((stmt c path (.define span name params result body)).run s).2.types) :
    walked.1 = Stmt.allComplete types (2 :: path) 0 body ∧
      ((stmt c path (.define span name params result body)).run s).2.loops = s.loops ∧
      ((stmt c path (.define span name params result body)).run s).2.functions = s.functions ∧
      ∃ isApproximate, walked.2.functions =
        ⟨declaredResult result, Stmt.allReturns types (2 :: path) 0 body, isApproximate⟩ :: s.functions := by
  rw [hwalk.run] at htypes ⊢
  have hsigned := hwalk.moves_signed
  have hinside := hwalk.moves_inside
  have hbound := moves_bindName c (0 :: path) { walked.2 with
    functions := walked.2.functions.tail, depth := walked.2.depth - 1, scope := outside } name
      (.function (signed.1.map (·.withResult (resultOf (walked.2.functions.head?.getD {}) walked.1))))
      ((walked.2.functions.head?.getD {}).isApproximate && (declaredResult result).isNone)
  have htypes : types.AgreesAt (2 :: path) walked.2.types := (htypes.child 2).trans
    (hbound.agreesAt fun _ hnoted => not_below_sibling (by decide) hnoted)
  obtain ⟨hresult, hloops, isApproximate, hfunctions⟩ := accords_body c hbody _
    (hinside.dead.trans (hsigned.dead.trans hlive)) hwalk.walks htypes
  have hsame : inside.functions = s.functions := (hinside.functions id).trans (hsigned.functions id)
  refine ⟨hresult, ?_, ?_, isApproximate, hsame ▸ hfunctions⟩
  · rw [hbound.loops id]
    exact hloops.trans ((hinside.loops id).trans (hsigned.loops id))
  · rw [hbound.functions id, hfunctions]
    exact hsame

theorem stmtAccords_define (span : Span) (name : Ident) (params : List ParamDecl) (result : TypeExpr)
    {body : List Stmt} (hbody : BlockAccords c (2 :: path) 0 false body) :
    StmtAccords c path inLoop (.define span name params result body) := by
  intro s types hlive htypes
  obtain ⟨signed, outside, inside, walked, hwalk⟩ := exists_defineWalk c path s name params result body span
  obtain ⟨-, hloops, hfunctions, -⟩ := accords_defineWalk c hwalk hbody hlive htypes
  refine ⟨?_, .of_same hloops hfunctions⟩
  rw [hwalk.run]
  rfl

theorem blockAccords_cons {i : Nat} {st : Stmt} {rest : List Stmt} (hst : StmtAccords c (i :: path) inLoop st)
    (hrest : BlockAccords c path (i + 1) inLoop rest) : BlockAccords c path i inLoop (st :: rest) := by
  intro s types hlive htypes
  rw [run_block_cons] at htypes ⊢
  have hfirst := moves_stmt c (i :: path) s st
  have hst := hst s types hlive
  generalize (stmt c (i :: path) st).run s = first at hfirst hst htypes ⊢
  -- What comes later in the block is noted at other places.
  have hbefore : ∀ s' : State, first.2.Moves (.walkingFrom (i + 1) path) s' →
      TypeMap.AgreesAt (i :: path) s'.types first.2.types := by
    intro s' hmoves
    refine hmoves.agreesAt fun _ hnoted hbelow => ?_
    obtain ⟨j, hj, hjbelow⟩ := hnoted
    exact not_below_sibling (by omega) hbelow hjbelow
  by_cases hcompletes : first.1 = true
  · rw [if_pos hcompletes] at htypes ⊢
    have hmoves := moves_block c path first.2 (i + 1) rest
    obtain ⟨hresult, hcollects⟩ := hst ((htypes i (Nat.le_refl i)).trans (hbefore _ hmoves))
    obtain ⟨hresult', hcollects'⟩ := hrest first.2 types (hfirst.dead.trans hlive) fun j hj => htypes j (by omega)
    rw [Stmt.allComplete, Stmt.anyBreaks, Stmt.allReturns, ← hresult, hcompletes, if_pos rfl]
    exact ⟨hresult', hcollects.trans hcollects'⟩
  · rw [if_neg hcompletes] at htypes ⊢
    have hmoves := moves_unreached c path first.2 (i + 1) rest
    obtain ⟨hinert, -⟩ := inert_unreached c path (i + 1) rest first.2
    obtain ⟨hresult, hcollects⟩ := hst ((htypes i (Nat.le_refl i)).trans (hbefore _ hmoves))
    rw [Stmt.allComplete, Stmt.anyBreaks, Stmt.allReturns, ← hresult, Bool.eq_false_iff.mpr hcompletes,
      if_neg Bool.false_ne_true]
    exact ⟨rfl, hcollects.trans (.of_same hinert.loops hinert.functions)⟩

end Statements

mutual

theorem stmtAccords (c : Setup) (path : NodePath) (inLoop : Bool) :
    (st : Stmt) → st.exitsInLoops inLoop = true → StmtAccords c path inLoop st
  | .hole, _ | .pass _, _ => stmtAccords_of_binding c id (fun _ => rfl) (fun s => .refl s) (fun _ => rfl)
      (fun _ => rfl) fun _ => rfl
  | .expr e, _ => stmtAccords_expr c e
  | .assign span op target declared value, _ => stmtAccords_of_binding c _ (fun _ => rfl)
      (fun s => moves_assignment c path s span op target declared value) (fun _ => rfl) (fun _ => rfl) fun _ => rfl
  | .define span name params result body, h =>
      stmtAccords_define c span name params result (blockAccords c (2 :: path) 0 false body h)
  | .ret span value, _ => stmtAccords_ret c span value
  | .branch span condition yes no, h => by
      rw [Stmt.exitsInLoops, Bool.and_eq_true] at h
      exact stmtAccords_branch c span condition (blockAccords c _ 0 inLoop yes h.1) (blockAccords c _ 0 inLoop no h.2)
  | .forIn span target iterable body, h => stmtAccords_forIn c span target iterable (blockAccords c _ 0 true body h)
  | .whileDo span condition body, h => stmtAccords_whileDo c span condition (blockAccords c _ 0 true body h)
  | .exit span, h => stmtAccords_exit c span h
  | .next span, h => stmtAccords_next c span h
  | .load span module symbols, _ => stmtAccords_of_binding c _ (fun _ => rfl)
      (fun s => moves_load c path s span module symbols) (fun _ => rfl) (fun _ => rfl) fun _ => rfl

theorem blockAccords (c : Setup) (path : NodePath) (i : Nat) (inLoop : Bool) :
    (stmts : List Stmt) → Stmt.allExitsInLoops inLoop stmts = true → BlockAccords c path i inLoop stmts
  | [], _ => fun _ _ _ _ => ⟨rfl, .of_same rfl rfl⟩
  | st :: rest, h => by
      rw [Stmt.allExitsInLoops, Bool.and_eq_true] at h
      exact blockAccords_cons c (stmtAccords c (i :: path) inLoop st h.1) (blockAccords c path (i + 1) inLoop rest h.2)

end

/-! ### Functions -/

theorem scope_bindName (path : NodePath) (id : Ident) (type : Ty) (isApproximate : Bool) (s : State) :
    ((bindName path id type isApproximate).run s).2.scope = s.scope.hold id.name type isApproximate := by
  rw [bindName_eq]
  refine of_run_bind (fun r => r.2.scope = _) ?_
  dsimp only
  split
  · split
    · rfl
    · exact congrArg (Scope.hold · id.name type isApproximate) (State.scope_report s _)
  · rfl

theorem symbols_define (c : Setup) (path : NodePath) {body : List Stmt}
    (hbody : Stmt.allExitsInLoops false body = true) {s : State} (hlive : s.dead = 0) (span : Span) {name : Ident}
    {params : List ParamDecl} {sig : Signature} (hsig : Signature.make (writtenParams params) .any = .ok sig)
    (hname : s.scope.annotation? name.name = none) {s' : State}
    (hrun : ((stmt c path (.define span name params .hole body)).run s).2 = s') :
    ∃ isApproximate, s'.scope.own.symbols.get? name.name = some ⟨.function (some (sig.withResult (.union
      (Stmt.allReturns s'.types (2 :: path) 0 body ++
        if Stmt.allComplete s'.types (2 :: path) 0 body then [.none] else [])))), isApproximate⟩ := by
  obtain ⟨signed, outside, inside, walked, hwalk⟩ := exists_defineWalk c path s name params .hole body span
  obtain ⟨hresult, -, -, isApproximate, hfunctions⟩ := accords_defineWalk c hwalk
    (blockAccords c (2 :: path) 0 false body hbody) hlive (hrun ▸ fun _ _ => rfl : TypeMap.AgreesAt path s'.types _)
  have hsigned : signed.1 = some sig := hwalk.signature_eq.trans (congrArg Except.toOption hsig)
  have hunannotated : outside.annotation? name.name = none := by
    rw [← hwalk.binds]
    exact ((hwalk.moves_signed.spared fun _ hf => hf.spares).annotation? name.name).trans hname
  have hscope := congrArg (·.scope.own.symbols.get? name.name) hrun.symm
  rw [hwalk.run, scope_bindName, hsigned, hfunctions, hresult, Scope.hold, hunannotated] at hscope
  refine ⟨isApproximate && (declaredResult .hole).isNone, hscope.trans ?_⟩
  exact (NameMap.get?_insert outside.own.symbols name.name _ name.name).trans (if_pos rfl)

/-- The result of a block tells exactly whether it can complete. A function without declared result returns the
types of its reachable returns, and `None` exactly if its body can complete. -/
theorem block_allComplete_and_define_allReturns (c : Setup) (path : NodePath) {body : List Stmt}
    (hbody : Stmt.allExitsInLoops false body = true) {s : State} (hlive : s.dead = 0) :
    (let r := (block c path 0 body).run s
     r.1 = Stmt.allComplete r.2.types path 0 body) ∧
    ∀ (span : Span) (name : Ident) (params : List ParamDecl) (sig : Signature),
      Signature.make (writtenParams params) .any = .ok sig → s.scope.annotation? name.name = none →
      let s' := ((stmt c path (.define span name params .hole body)).run s).2
      ∃ isApproximate, s'.scope.own.symbols.get? name.name = some ⟨.function (some (sig.withResult (.union
        (Stmt.allReturns s'.types (2 :: path) 0 body ++
          if Stmt.allComplete s'.types (2 :: path) 0 body then [.none] else [])))), isApproximate⟩ :=
  ⟨(blockAccords c path 0 false body hbody s _ hlive fun _ _ _ _ => rfl).1,
    fun span _ _ _ hsig hname => symbols_define c path hbody hlive span hsig hname rfl⟩

/-- An endless loop in which a test decides between a return and a break. -/
def returnsOrBreaks : List Stmt :=
  [.whileDo {} (.bool {} true) [.branch {} (.ident ⟨{}, "x"⟩) [.ret {} (.int {} 1)] [.exit {}]]]

/-- A setup that knows of nothing. -/
def bareSetup : Setup := { rules := ⟨.chain [], .lint⟩ }

def soleParam : List ParamDecl := [.param {} ⟨{}, "x"⟩ "positional" .hole .hole]

/-- The signature of a function with the parameter `x`. -/
def soleSignature : Signature := ⟨[⟨.ofKind "positional", "x", .any, false⟩], .any⟩

theorem block_allComplete_and_define_allReturns_endless :
    Stmt.allExitsInLoops false returnsOrBreaks = true ∧
      Signature.make (writtenParams soleParam) .any = .ok soleSignature ∧
      (∃ r, (block bareSetup [] 0 returnsOrBreaks).run {} = r ∧
        r.1 = Stmt.allComplete r.2.types [] 0 returnsOrBreaks) ∧
      ∃ s', ((stmt bareSetup [] (.define {} ⟨{}, "f"⟩ soleParam .hole returnsOrBreaks)).run {}).2 = s' ∧
        Stmt.allComplete s'.types [2] 0 returnsOrBreaks = true ∧
        ∃ isApproximate, s'.scope.own.symbols.get? "f" = some ⟨.function (some (soleSignature.withResult (.union
          (Stmt.allReturns s'.types [2] 0 returnsOrBreaks ++
            if Stmt.allComplete s'.types [2] 0 returnsOrBreaks then [.none] else [])))), isApproximate⟩ := by
  have hexits : Stmt.allExitsInLoops false returnsOrBreaks = true := by decide
  have h := block_allComplete_and_define_allReturns bareSetup [] hexits (s := {}) rfl
  have hdefine := h.2 {} ⟨{}, "f"⟩ soleParam soleSignature rfl rfl
  exact ⟨hexits, rfl, ⟨_, rfl, h.1⟩, _, rfl, by decide +kernel, hdefine⟩

end Check

end Gradual
