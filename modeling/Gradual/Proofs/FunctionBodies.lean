import Gradual.Proofs.ListWidening
import Gradual.Proofs.Liveness

/-! A function body is walked apart from what is around it. Every walk gives back the stacks of loops and functions
with at most the innermost frames changed, so that a loop or a function leaves nothing on them. A body whose breaks
and continues all lie in its own loops does not change even the innermost loop around it. Of the scope in which a
function is defined, only its name gets another binding, apart from lists that the defaults of parameters add to. -/

namespace Gradual

namespace Stmt

mutual

/-- Whether a break or continue in a statement leaves a loop that is around the statement. A function that is defined
in a loop is a part of it. -/
def leavesLoop : Stmt → Bool
  | .exit _ | .next _ => true
  | .branch _ _ yes no => anyLeavesLoop yes || anyLeavesLoop no
  | .define _ _ _ _ body => anyLeavesLoop body
  | .hole | .expr _ | .assign _ _ _ _ _ | .ret _ _ | .forIn _ _ _ _ | .whileDo _ _ _ | .pass _ | .load _ _ _ => false

/-- Whether a break or continue in a block leaves a loop that is around the block. -/
def anyLeavesLoop : List Stmt → Bool
  | [] => false
  | s :: rest => s.leavesLoop || anyLeavesLoop rest

end

end Stmt

namespace Check

/-! ### The stacks of loops and functions -/

/-- Two states have the same loops and functions, except perhaps for the innermost ones; and the innermost function,
too, has the same declared result. -/
structure SameAround (s s' : State) : Prop where
  loops : s'.loops.tail = s.loops.tail
  functions : s'.functions.tail = s.functions.tail
  declared : s'.functions.map (·.declared) = s.functions.map (·.declared)

theorem SameAround.trans {s s' s'' : State} (h : SameAround s s') (h' : SameAround s' s'') : SameAround s s'' :=
  ⟨h'.loops.trans h.loops, h'.functions.trans h.functions, h'.declared.trans h.declared⟩

theorem sameAround_report (s : State) (errors : List TypingError) : SameAround s (s.report errors) := by
  unfold State.report
  split <;> exact ⟨rfl, rfl, rfl⟩

theorem InStep.sameAround {K : StepKinds} {α : Type} {m m' : Check α} (h : InStep K m m') :
    ∀ s : State, SameAround s (m.run s).2 := by
  induction h with
  | pure | approximate | count | note | rebind => exact fun s => ⟨rfl, rfl, rfl⟩
  | bind _ _ ih ihnext => exact fun s => (ih s).trans (ihnext _ _)
  | look _ ih => exact fun s => ih s s.errors s.approximations s.types s
  | report e span => exact fun s => sameAround_report s _
  | settle => exact fun s => (sameAround_report s _).trans ⟨rfl, rfl, rfl⟩
  | returned _ info =>
      intro s
      simp only [returned_eq]
      refine ⟨rfl, ?_, ?_⟩
      · show (if s.dead = 0 then _ else _ : List FunctionFrame).tail = _
        split
        · exact List.tail_modifyHead
        · rfl
      · show (if s.dead = 0 then _ else _ : List FunctionFrame).map _ = _
        split
        · cases s.functions <;> rfl
        · rfl
  | leaveLoop _ isExit =>
      intro s
      rw [leaveLoop_eq]
      refine ⟨?_, rfl, rfl⟩
      show (if s.dead = 0 then _ else _ : List LoopFrame).tail = _
      split
      · exact List.tail_modifyHead
      · rfl
  | aside enter _ ih =>
      intro s
      have hinner := ih { s with scope := enter s.scope }
      exact ⟨hinner.loops, hinner.functions, hinner.declared⟩
  | unreached _ ih =>
      intro s
      have hinner := ih { s with dead := s.dead + 1, scope := s.scope.copy }
      exact ⟨hinner.loops, hinner.functions, hinner.declared⟩
  | inBody _ ih =>
      intro s
      have hinner := ih { s with depth := s.depth + 1 }
      exact ⟨hinner.loops, hinner.functions, hinner.declared⟩
  -- The frame that is put on a stack is the innermost one, and it is taken off again.
  | inLoop _ ih =>
      intro s
      have hinner := ih { s with loops := {} :: s.loops }
      exact ⟨congrArg List.tail hinner.loops, hinner.functions, hinner.declared⟩
  | inFunction declared _ ih =>
      intro s
      have hinner := ih { s with functions := { declared := declared } :: s.functions, depth := s.depth + 1 }
      exact ⟨hinner.loops, congrArg List.tail hinner.functions,
        List.map_tail.trans (congrArg List.tail hinner.declared)⟩

theorem sameAround_block (c : Setup) (path : NodePath) (i : Nat) (stmts : List Stmt) (s : State) :
    SameAround s ((block c path i stmts).run s).2 :=
  (inStep_blockFrom c (fun _ hj => StepKinds.walks_walkingFrom hj path c.rules) stmts).sameAround s

/-! ### Blocks that stay in the loops around them -/

section Loops

variable (c : Setup) {path : NodePath} (s : State)

theorem loops_returnStmt (span : Span) (value : Expr) : ((returnStmt c path span value).run s).2.loops = s.loops := by
  obtain ⟨errors, hrun⟩ := exists_run_returnStmt c path span value s
  rw [hrun, returned_eq]
  have hreport := State.moves_report (.evaluating path) ((expr c (0 :: path) value).run s).2 errors
  exact (hreport.loops id).trans ((moves_expr c (0 :: path) s value).loops id)

theorem loops_define (span : Span) (name : Ident) (params : List ParamDecl) (result : TypeExpr) {body : List Stmt}
    (hbody : ∀ s' : State, ((block c (2 :: path) 0 body).run s').2.loops = s'.loops) :
    ((stmt c path (.define span name params result body)).run s).2.loops = s.loops := by
  obtain ⟨signed, outside, inside, walked, hwalk⟩ := exists_defineWalk c path s name params result body span
  have hwalked : walked.2.loops = inside.loops := hwalk.walks ▸ hbody _
  rw [hwalk.run]
  refine ((moves_bindName c (0 :: path) _ name _ _).loops id).trans ?_
  calc walked.2.loops = inside.loops := hwalked
    _ = signed.2.loops := hwalk.moves_inside.loops id
    _ = s.loops := hwalk.moves_signed.loops id

theorem loops_branch (span : Span) (condition : Expr) {yes no : List Stmt}
    (hyes : ∀ s' : State, ((block c (1 :: path) 0 yes).run s').2.loops = s'.loops)
    (hno : ∀ s' : State, ((block c (2 :: path) 0 no).run s').2.loops = s'.loops) :
    ((stmt c path (.branch span condition yes no)).run s).2.loops = s.loops := by
  obtain ⟨tested, y, n, hwalk⟩ := exists_branchWalk c path s condition yes no
  have hy : y.2.loops = tested.loops := hwalk.takes ▸ hyes _
  have hn : n.2.loops = y.2.loops := hwalk.skips ▸ hno _
  rw [hwalk.run]
  exact hn.trans (hy.trans (hwalk.moves_tested.loops id))

theorem loops_forIn (span : Span) (target iterable : Expr) (body : List Stmt) :
    ((stmt c path (.forIn span target iterable body)).run s).2.loops = s.loops := by
  obtain ⟨evaluated, bound, walked, hwalk⟩ := exists_forWalk c path s target iterable body
  have hwalked : walked.2.loops.tail = bound.loops := hwalk.walks ▸ (sameAround_block c (2 :: path) 0 body _).loops
  rw [hwalk.run]
  exact hwalked.trans ((hwalk.moves_bound.loops id).trans (hwalk.moves_evaluated.loops id))

theorem loops_whileDo (span : Span) (condition : Expr) (body : List Stmt) :
    ((stmt c path (.whileDo span condition body)).run s).2.loops = s.loops := by
  obtain ⟨tested, walked, hwalk⟩ := exists_whileWalk c path s condition body
  have hwalked : walked.2.loops.tail = tested.loops := hwalk.walks ▸ (sameAround_block c (1 :: path) 0 body _).loops
  have htested : tested.loops = s.loops := hwalk.moves_tested.loops id
  by_cases hcondition : condition.isTrue = true
  · rw [hwalk.endless hcondition]
    exact hwalked.trans htested
  · rw [hwalk.ends (Bool.eq_false_iff.mpr hcondition)]
    exact hwalked.trans htested

end Loops

mutual

theorem loops_stmt (c : Setup) (path : NodePath) :
    (st : Stmt) → st.leavesLoop = false → ∀ s : State, ((stmt c path st).run s).2.loops = s.loops
  | .hole, _ | .pass _, _ => fun _ => rfl
  | .expr e, _ => fun s => (moves_expr c path s e).loops id
  | .assign span op target declared value, _ => fun s =>
      (moves_assignment c path s span op target declared value).loops id
  | .define span name params result body, h => fun s =>
      loops_define c s span name params result (loops_block c (2 :: path) 0 body h)
  | .ret span value, _ => fun s => loops_returnStmt c s span value
  | .branch span condition yes no, h => fun s => by
      obtain ⟨hyes, hno⟩ := Bool.or_eq_false_iff.mp h
      exact loops_branch c s span condition (loops_block c _ 0 yes hyes) (loops_block c _ 0 no hno)
  | .forIn span target iterable body, _ => fun s => loops_forIn c s span target iterable body
  | .whileDo span condition body, _ => fun s => loops_whileDo c s span condition body
  | .load span module symbols, _ => fun s => (moves_load c path s span module symbols).loops id

theorem loops_block (c : Setup) (path : NodePath) (i : Nat) :
    (stmts : List Stmt) → Stmt.anyLeavesLoop stmts = false →
      ∀ s : State, ((block c path i stmts).run s).2.loops = s.loops
  | [], _ => fun _ => rfl
  | st :: rest, h => fun s => by
      obtain ⟨hst, hrest⟩ := Bool.or_eq_false_iff.mp h
      have hfirst := loops_stmt c (i :: path) st hst s
      rw [run_block_cons]
      split
      · exact (loops_block c path (i + 1) rest hrest _).trans hfirst
      · exact (inert_unreached c path (i + 1) rest _).1.loops.trans hfirst

end

/-! ### Definitions -/

theorem scope_signatureOf (params : List Param) (result : Ty) (span : Span) (s : State) :
    ((signatureOf params result span).run s).2.scope = s.scope := by
  unfold signatureOf
  split <;> rfl

/-- Where a function is defined, its name is bound twice: before its body is walked and after. -/
theorem exists_scope_define (c : Setup) (path : NodePath) (s : State) (span : Span) (name : Ident)
    (params : List ParamDecl) (result : TypeExpr) (body : List Stmt) :
    ∃ type isApproximate type' isApproximate',
      ((stmt c path (.define span name params result body)).run s).2.scope =
        (((paramDecls c (1 :: path) 0 params).run s).2.scope.bind name.name type isApproximate).bind name.name
          type' isApproximate' := by
  obtain ⟨signed, outside, inside, walked, hwalk⟩ := exists_defineWalk c path s name params result body span
  have hsigned : signed.2.scope = ((paramDecls c (1 :: path) 0 params).run s).2.scope :=
    hwalk.signs ▸ scope_signatureOf _ _ span _
  rw [hwalk.run, scope_bindName, ← hwalk.binds, hsigned]
  unfold Scope.hold
  split
  · exact ⟨_, _, _, _, rfl⟩
  · exact ⟨_, _, _, _, rfl⟩

/-- The frames around a function body are at its end what they were when it was entered. -/
theorem DefineWalk.outer_eq {c : Setup} {path : NodePath} {s : State} {name : Ident} {params : List ParamDecl}
    {result : TypeExpr} {body : List Stmt} {span : Span} {signed : Option Signature × State} {outside : Scope}
    {inside : State} {walked : Bool × State}
    (h : DefineWalk c path s name params result body span signed outside inside walked) :
    inside.scope.outer = outside.frames ∧ walked.2.scope.outer = outside.frames := by
  have hinside : inside.scope.outer = outside.frames :=
    h.moves_inside.kept (·.outer = outside.frames) (fun f hf _ s hs => (hf.outer s).trans hs) rfl
  refine ⟨hinside, ?_⟩
  rw [← h.walks]
  exact (moves_block c (2 :: path) _ 0 body).kept (·.outer = outside.frames)
    (fun f hf _ s hs => (hf.outer s).trans hs) hinside

theorem functions_define (c : Setup) (path : NodePath) (s : State) (span : Span) (name : Ident)
    (params : List ParamDecl) (result : TypeExpr) (body : List Stmt) :
    ((stmt c path (.define span name params result body)).run s).2.functions = s.functions := by
  obtain ⟨signed, outside, inside, walked, hwalk⟩ := exists_defineWalk c path s name params result body span
  have hwalked : walked.2.functions.tail = inside.functions :=
    hwalk.walks ▸ (sameAround_block c (2 :: path) 0 body _).functions
  rw [hwalk.run]
  refine ((moves_bindName c (0 :: path) _ name _ _).functions id).trans ?_
  calc walked.2.functions.tail = inside.functions := hwalked
    _ = signed.2.functions := hwalk.moves_inside.functions id
    _ = s.functions := hwalk.moves_signed.functions id

/-- A definition changes the scope around it in two ways: lists may hold more after the defaults of the parameters, and
then the name of the function is bound. The names of the body are bound in a scope of their own, at whose end all
frames around it are as they were at its begin. Enclosing loops and functions do not see what leaves the body. -/
theorem define_isolated (c : Setup) (path : NodePath) (s : State) (span : Span) (name : Ident)
    (params : List ParamDecl) (result : TypeExpr) {body : List Stmt} (hbody : Stmt.anyLeavesLoop body = false) :
    let given := ((paramDecls c (1 :: path) 0 params).run s).2
    let after := ((stmt c path (.define span name params result body)).run s).2
    s.scope.Widens given.scope ∧
    after.scope.outer = s.scope.outer ∧ after.scope.own.annotations = s.scope.own.annotations ∧
    after.scope.own.isWildcard = s.scope.own.isWildcard ∧
    (∀ n, n ≠ name.name → after.scope.own.symbols.get? n = given.scope.own.symbols.get? n) ∧
    (∀ n, after.scope.hasLocal n = (s.scope.hasLocal n || n == name.name)) ∧
    after.loops = s.loops ∧ after.functions = s.functions ∧
    ∃ signed outside inside walked, DefineWalk c path s name params result body span signed outside inside walked ∧
      inside.scope.outer = outside.frames ∧ walked.2.scope.outer = outside.frames := by
  intro given after
  have hwidens : s.scope.Widens given.scope := (moves_paramDecls c (1 :: path) s 0 params).widens fun _ hf => hf
  obtain ⟨type, isApproximate, type', isApproximate', hscope⟩ :
      ∃ type isApproximate type' isApproximate', after.scope =
        (given.scope.bind name.name type isApproximate).bind name.name type' isApproximate' :=
    exists_scope_define c path s span name params result body
  have hsymbols (n : Text) : after.scope.own.symbols.get? n =
      if n = name.name then some ⟨type', isApproximate'⟩ else given.scope.own.symbols.get? n := by
    rw [hscope]
    refine (NameMap.get?_insert _ name.name _ n).trans ?_
    split
    · rfl
    · next hne => exact (NameMap.get?_insert given.scope.own.symbols name.name _ n).trans (if_neg hne)
  refine ⟨hwidens, ?_, ?_, ?_, ?_, ?_, ?_, ?_, ?_⟩
  · rw [hscope]
    exact hwidens.outer
  · rw [hscope]
    exact hwidens.annotations
  · rw [hscope]
    exact hwidens.isWildcard
  · intro n hn
    rw [hsymbols, if_neg hn]
  · intro n
    show (after.scope.own.symbols.get? n).isSome = _
    rw [hsymbols, ← hwidens.hasLocal]
    by_cases hn : n = name.name
    · rw [if_pos hn, hn, beq_self_eq_true, Bool.or_true]
      rfl
    · rw [if_neg hn, beq_false_of_ne hn, Bool.or_false]
      rfl
  · exact loops_define c s span name params result (loops_block c (2 :: path) 0 body hbody)
  · exact functions_define c path s span name params result body
  · obtain ⟨signed, outside, inside, walked, hwalk⟩ := exists_defineWalk c path s name params result body span
    exact ⟨signed, outside, inside, walked, hwalk, hwalk.outer_eq⟩

/-- A body with a loop, in which a branch breaks and a function begins the next round. -/
def loopsAndReturns : List Stmt :=
  [.forIn {} (.ident ⟨{}, "i"⟩) (.ident ⟨{}, "p"⟩) [.branch {} (.ident ⟨{}, "i"⟩) [.exit {}] [],
      .define {} ⟨{}, "g"⟩ [] .hole [.next {}]],
    .assign {} "=" (.ident ⟨{}, "y"⟩) .hole (.int {} 1), .ret {} (.ident ⟨{}, "y"⟩)]

/-- The parameter `p=x.append("a")`. -/
def appendingDefault : List ParamDecl :=
  [.param {} ⟨{}, "p"⟩ "positional" .hole
    (.call {} (.member {} (.ident ⟨{}, "x"⟩) ⟨{}, "append"⟩) [.arg {} "positional" "" (.str {} "a")])]

/-- A point of a function in a loop that may have been left before, with a list and a name further out. -/
def insideLoop : State where
  scope := { own := { symbols := .ofList [("x", ⟨.list .int, false⟩)] }
             outer := [{ symbols := .ofList [("y", ⟨.str, false⟩)] }] }
  loops := [{ exits := [{}] }]
  functions := [{ returns := [.int] }]

theorem define_isolated_insideLoop :
    Stmt.anyLeavesLoop loopsAndReturns = false ∧
    ∃ after, ((stmt { rules := ⟨.standard, .lint⟩ } []
        (.define {} ⟨{}, "f"⟩ appendingDefault .hole loopsAndReturns)).run insideLoop).2 = after ∧
      (after.scope.own.symbols.get? "x").map (·.type.text) = some "list[int | str]" ∧
      after.scope.outer = insideLoop.scope.outer ∧
      (∀ n, after.scope.hasLocal n = (insideLoop.scope.hasLocal n || n == "f")) ∧
      after.loops = insideLoop.loops ∧ after.functions = insideLoop.functions := by
  have hbody : Stmt.anyLeavesLoop loopsAndReturns = false := by decide
  obtain ⟨-, houter, -, -, -, hnames, hloops, hfunctions, -⟩ := define_isolated { rules := ⟨.standard, .lint⟩ } []
    insideLoop {} ⟨{}, "f"⟩ appendingDefault .hole hbody
  exact ⟨hbody, _, rfl, by decide +kernel, houter, hnames, hloops, hfunctions⟩

end Check

end Gradual
