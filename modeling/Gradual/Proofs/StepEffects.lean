import Gradual.Proofs.WalkSteps

/-! What steps do to a state, told by their kinds. Types are noted where the kind allows, on top of what was
noted before; frames of loops and functions stay unless something is left; and a kind that spares names with
annotations leaves them as they are. -/

namespace Gradual

/-- Whether two type maps tell the same of the nodes at a place and below it. -/
def TypeMap.AgreesAt (place : NodePath) (types types' : TypeMap) : Prop :=
  ∀ path, place <:+ path → types.get? path = types'.get? path

namespace TypeMap.AgreesAt

variable {place : NodePath} {types types' types'' : TypeMap}

theorem trans (h : AgreesAt place types types') (h' : AgreesAt place types' types'') : AgreesAt place types types'' :=
  fun path hpath => (h path hpath).trans (h' path hpath)

theorem child (h : AgreesAt place types types') (i : Nat) : AgreesAt (i :: place) types types' :=
  fun path hpath => h path ((List.suffix_cons i place).trans hpath)

end TypeMap.AgreesAt

theorem Check.not_below_sibling {i j : Nat} {place path : NodePath} (hne : i ≠ j) (h : i :: place <:+ path) :
    ¬j :: place <:+ path := by
  intro h'
  rcases List.suffix_or_suffix_of_suffix h h' with hsuffix | hsuffix
  · exact hne (List.cons.inj (hsuffix.eq_of_length rfl)).1
  · exact hne (List.cons.inj (hsuffix.eq_of_length rfl)).1.symm

/-- The innermost of some loops got exits and entries of next rounds, of which `Q` tells. -/
def LoopFrame.Gains (Q : List Frame → List Frame → Prop) (loops loops' : List LoopFrame) : Prop :=
  ∃ exits nexts, Q exits nexts ∧ loops' = loops.modifyHead fun l => ⟨l.exits ++ exits, l.nexts ++ nexts⟩

namespace LoopFrame

variable {Q Q' Q'' : List Frame → List Frame → Prop} {loops loops' loops'' : List LoopFrame}

theorem modifyHead_append_nil (loops : List LoopFrame) :
    loops.modifyHead (fun l => ⟨l.exits ++ [], l.nexts ++ []⟩) = loops := by
  cases loops with
  | nil => rfl
  | cons l rest => simp only [List.modifyHead_cons, List.append_nil]

theorem gains_self (hQ : Q [] []) (loops : List LoopFrame) : Gains Q loops loops :=
  ⟨[], [], hQ, (modifyHead_append_nil loops).symm⟩

theorem Gains.trans (hQ : ∀ {exits nexts exits' nexts'}, Q exits nexts → Q' exits' nexts' →
    Q'' (exits ++ exits') (nexts ++ nexts')) (h : Gains Q loops loops') (h' : Gains Q' loops' loops'') :
    Gains Q'' loops loops'' := by
  obtain ⟨exits, nexts, hgained, rfl⟩ := h
  obtain ⟨exits', nexts', hgained', rfl⟩ := h'
  refine ⟨exits ++ exits', nexts ++ nexts', hQ hgained hgained', ?_⟩
  rw [List.modifyHead_modifyHead]
  simp only [Function.comp_def, List.append_assoc]

theorem Gains.tail (h : Gains Q ({} :: loops) loops') :
    Q (loops'.head?.getD {}).exits (loops'.head?.getD {}).nexts ∧ loops'.tail = loops := by
  obtain ⟨exits, nexts, hgained, rfl⟩ := h
  exact ⟨hgained, rfl⟩

end LoopFrame

/-- What steps of some kinds do to a state. -/
structure State.Moves (K : Check.StepKinds) (s s' : State) : Prop where
  dead : s'.dead = s.dead
  notes : ∃ notes, s'.types.notes = notes ++ s.types.notes ∧ ∀ n ∈ notes, K.Noted n.path
  loops : ¬K.Leaves → s'.loops = s.loops
  functions : ¬K.Leaves → s'.functions = s.functions
  kept : ∀ P : Scope → Prop, (∀ f, Check.ChangesOwn f → K.Rebound f → ∀ s, P s → P (f s)) → P s.scope → P s'.scope

namespace State.Moves

variable {K : Check.StepKinds} {s s' s'' : State}

theorem of_same_scope (hdead : s'.dead = s.dead) (hscope : s'.scope = s.scope) (htypes : s'.types = s.types)
    (hloops : ¬K.Leaves → s'.loops = s.loops) (hfunctions : ¬K.Leaves → s'.functions = s.functions) : s.Moves K s' :=
  ⟨hdead, ⟨[], congrArg TypeMap.notes htypes, List.forall_mem_nil _⟩, hloops, hfunctions,
    fun _ _ h => hscope ▸ h⟩

theorem of_same (hdead : s'.dead = s.dead) (hscope : s'.scope = s.scope) (htypes : s'.types = s.types)
    (hloops : s'.loops = s.loops) (hfunctions : s'.functions = s.functions) : s.Moves K s' :=
  of_same_scope hdead hscope htypes (fun _ => hloops) fun _ => hfunctions

theorem refl (s : State) : s.Moves K s := of_same rfl rfl rfl rfl rfl

theorem trans (h : s.Moves K s') (h' : s'.Moves K s'') : s.Moves K s'' where
  dead := h'.dead.trans h.dead
  notes := by
    obtain ⟨notes, hnotes, hnoted⟩ := h.notes
    obtain ⟨notes', hnotes', hnoted'⟩ := h'.notes
    refine ⟨notes' ++ notes, ?_, List.forall_mem_append.mpr ⟨hnoted', hnoted⟩⟩
    rw [hnotes', hnotes, List.append_assoc]
  loops hleaves := (h'.loops hleaves).trans (h.loops hleaves)
  functions hleaves := (h'.functions hleaves).trans (h.functions hleaves)
  kept P hP hs := h'.kept P hP (h.kept P hP hs)

theorem sorted (h : s.Moves K s') (hs : s.scope.own.IsSorted) : s'.scope.own.IsSorted :=
  h.kept (·.own.IsSorted) (fun _ hf _ => hf.sorted) hs

theorem spared (h : s.Moves K s') (hspares : ∀ f, K.Rebound f → Check.Spares f) : s.scope.SparesAnnotated s'.scope :=
  h.kept _ (fun f _ hf s' hs' => hs'.trans (hspares f hf s')) (.refl s.scope)

theorem agreesAt (h : s.Moves K s') {place : NodePath} (hplace : ∀ path, K.Noted path → ¬place <:+ path) :
    TypeMap.AgreesAt place s'.types s.types := by
  intro path hpath
  obtain ⟨notes, hnotes, hnoted⟩ := h.notes
  have hskipped : notes.find? (·.path == path) = none := by
    rw [List.find?_eq_none]
    intro n hn heq
    exact hplace n.path (hnoted n hn) (eq_of_beq heq ▸ hpath)
  rw [TypeMap.get?, TypeMap.get?, hnotes, List.find?_append, hskipped, Option.none_or]

end State.Moves

theorem State.moves_report (K : Check.StepKinds) (s : State) (errors : List TypingError) :
    s.Moves K (s.report errors) := by
  unfold State.report
  split
  · exact .of_same rfl rfl rfl rfl rfl
  · exact .refl s

namespace Check

theorem InStep.moves {K : StepKinds} {α : Type} {m m' : Check α} (h : InStep K m m') :
    ∀ s : State, s.Moves K (m.run s).2 := by
  induction h with
  | pure a => exact fun s => .refl s
  | bind _ _ ih ihnext => exact fun s => (ih s).trans (ihnext _ _)
  | look _ ih => exact fun s => ih s s.errors s.approximations s.types s
  | report e span => exact fun s => s.moves_report _ _
  | settle _ => exact fun s => (s.moves_report _ _).trans (.of_same rfl rfl rfl rfl rfl)
  | approximate | count => exact fun s => .of_same rfl rfl rfl rfl rfl
  | @note _ path _ hnoted _ form span info =>
      refine fun s => ⟨rfl, ⟨[_], rfl, ?_⟩, fun _ => rfl, fun _ => rfl, fun _ _ hs => hs⟩
      exact List.forall_mem_singleton.mpr hnoted
  | rebind f g hf hrebound =>
      refine fun s => ⟨rfl, ⟨[], rfl, List.forall_mem_nil _⟩, fun _ => rfl, fun _ => rfl, ?_⟩
      exact fun P hP hs => hP f hf hrebound s.scope hs
  | returned hleaves info =>
      intro s
      simp only [returned_eq]
      exact .of_same_scope rfl rfl rfl (fun _ => rfl) fun h => absurd hleaves h
  | leaveLoop hleaves isExit =>
      intro s
      rw [leaveLoop_eq]
      exact .of_same_scope rfl rfl rfl (fun h => absurd hleaves h) fun _ => rfl
  -- What was set up for the inner walk is undone at its end.
  | aside enter _ ih =>
      intro s
      have hinner := ih { s with scope := enter s.scope }
      exact ⟨hinner.dead, hinner.notes, hinner.loops, hinner.functions, fun _ _ hs => hs⟩
  | unreached _ ih =>
      intro s
      have hinner := ih { s with dead := s.dead + 1, scope := s.scope.copy }
      exact ⟨congrArg Nat.pred hinner.dead, hinner.notes, hinner.loops, hinner.functions, fun _ _ hs => hs⟩
  | inLoop _ ih =>
      intro s
      have hinner := ih { s with loops := {} :: s.loops }
      exact ⟨hinner.dead, hinner.notes, fun h => congrArg List.tail (hinner.loops h), hinner.functions, hinner.kept⟩
  | inBody _ ih =>
      intro s
      have hinner := ih { s with depth := s.depth + 1 }
      exact ⟨hinner.dead, hinner.notes, hinner.loops, hinner.functions, hinner.kept⟩
  | inFunction declared _ ih =>
      intro s
      have hinner := ih { s with functions := { declared := declared } :: s.functions, depth := s.depth + 1 }
      exact ⟨hinner.dead, hinner.notes, hinner.loops, fun h => congrArg List.tail (hinner.functions h), hinner.kept⟩

/-! ### Walks at a place -/

namespace StepKinds

/-- What evaluating an expression at a place does. -/
def evaluating (place : NodePath) : StepKinds where
  Judged := Eq
  Noted := (place <:+ ·)
  Rebound := WidensLists
  Leaves := False

/-- What assigning to a target at a place does. -/
def binding (place : NodePath) : StepKinds := { evaluating place with Rebound := fun _ => True }

/-- What walking statements at a place does. -/
def walking (place : NodePath) : StepKinds := { binding place with Leaves := True }

/-- What walking the statements of a block does, from some place in the block on. -/
def walkingFrom (i : Nat) (path : NodePath) : StepKinds :=
  { walking path with Noted := fun noted => ∃ j, i ≤ j ∧ j :: path <:+ noted }

theorem evaluates_evaluating (place : NodePath) (r : Rules) : (evaluating place).Evaluates place place r r where
  judged := r.related_self fun _ => rfl
  noted := id
  there := Alongside.eq
  rebound := id

theorem binds_binding (place : NodePath) (r : Rules) : (binding place).Binds place place r r where
  judged := r.related_self fun _ => rfl
  noted := id
  there := Alongside.eq
  rebound _ := trivial
  stores _ := trivial
  holds _ _ _ := trivial
  binds _ := trivial

theorem walks_walking (place : NodePath) (r : Rules) : (walking place).Walks place r r where
  judged := r.related_self fun _ => rfl
  noted := id
  there := Alongside.eq
  rebound _ := trivial
  stores _ := trivial
  holds _ _ _ := trivial
  binds _ := trivial
  leaves := trivial

theorem walks_walkingFrom {i j : Nat} (hj : i ≤ j) (path : NodePath) (r : Rules) :
    (walkingFrom i path).Walks (j :: path) r r where
  judged := r.related_self fun _ => rfl
  noted h := ⟨j, hj, h⟩
  there := Alongside.eq
  rebound _ := trivial
  stores _ := trivial
  holds _ _ _ := trivial
  binds _ := trivial
  leaves := trivial

end StepKinds

theorem inStep_deadBlockFrom (c : Setup) {K : StepKinds} {path : NodePath} {r : Rules} {i : Nat}
    (hK : ∀ j, i ≤ j → K.Walks (j :: path) r c.rules) (stmts : List Stmt) :
    InStep K (deadBlock c path i stmts) (deadBlock (c.withRules r) path i stmts) := by
  induction stmts generalizing i with
  | nil => exact .skip
  | cons st rest ih =>
      refine (inStep_stmt c (hK i (Nat.le_refl i)) List.suffix_rfl st).discard.bind fun _ => ih fun j hj => ?_
      exact hK j (Nat.le_of_succ_le hj)

theorem inStep_blockFrom (c : Setup) {K : StepKinds} {path : NodePath} {r : Rules} {i : Nat}
    (hK : ∀ j, i ≤ j → K.Walks (j :: path) r c.rules) (stmts : List Stmt) :
    InStep K (block c path i stmts) (block (c.withRules r) path i stmts) := by
  induction stmts generalizing i with
  | nil => exact .pure _
  | cons st rest ih =>
      have hrest : ∀ j, i + 1 ≤ j → K.Walks (j :: path) r c.rules := fun j hj => hK j (Nat.le_of_succ_le hj)
      refine (inStep_stmt c (hK i (Nat.le_refl i)) List.suffix_rfl st).bind fun _ => .ite (ih hrest) ?_
      exact (InStep.unreached (inStep_deadBlockFrom c (fun j hj => (hrest j hj).aside) rest)).bind fun _ => .pure _

variable (c : Setup) (path : NodePath) (s : State)

theorem moves_expr (e : Expr) : s.Moves (.evaluating path) ((expr c path e).run s).2 :=
  (inStep_expr c (StepKinds.evaluates_evaluating path c.rules) .self e).moves s

theorem moves_paramDecls (i : Nat) (params : List ParamDecl) :
    s.Moves (.evaluating path) ((paramDecls c path i params).run s).2 :=
  (inStep_paramDecls c (StepKinds.evaluates_evaluating path c.rules) .self i params).moves s

include c in
theorem moves_bindParams (sig : Option Signature) (i : Nat) (params : List ParamDecl) :
    s.Moves (.binding path) ((bindParams path sig i params).run s).2 :=
  (inStep_bindParams c .self (StepKinds.binds_binding path c.rules) sig i params).moves s

include c in
theorem moves_bindName (id : Ident) (type : Ty) (isApproximate : Bool) :
    s.Moves (.binding path) ((bindName path id type isApproximate).run s).2 :=
  (inStep_bindName c .self (StepKinds.binds_binding path c.rules).toAssigns id type isApproximate).moves s

theorem moves_assign (type : Ty) (isApproximate : Bool) (target : Expr) :
    s.Moves (.binding path) ((assign c path type isApproximate target).run s).2 :=
  (inStep_assign c (StepKinds.binds_binding path c.rules).toAssigns .self type isApproximate target).moves s

theorem moves_assignment (span : Span) (op : Text) (target : Expr) (declared : TypeExpr) (value : Expr) :
    s.Moves (.binding path) ((assignment c path span op target declared value).run s).2 :=
  (inStep_assignment c .self (StepKinds.binds_binding path c.rules).toAssigns span op target declared value
    fun _ _ _ _ => trivial).moves s

theorem moves_load (span : Span) (module : Text) (symbols : List LoadSymbol) :
    s.Moves (.binding path) ((load c path span module symbols).run s).2 :=
  (inStep_load c .self (StepKinds.binds_binding path c.rules) span module symbols).moves s

omit c path in
theorem moves_settle (K : StepKinds) (j : Judgement) : s.Moves K ((settle j).run s).2 :=
  (s.moves_report K j.errors).trans (.of_same rfl rfl rfl rfl rfl)

omit c path in
theorem moves_signatureOf (K : StepKinds) (params : List Param) (result : Ty) (span : Span) :
    s.Moves K ((signatureOf params result span).run s).2 :=
  (inStep_signatureOf params result span).moves s

theorem moves_stmt (st : Stmt) : s.Moves (.walking path) ((stmt c path st).run s).2 :=
  (inStep_stmt c (StepKinds.walks_walking path c.rules) List.suffix_rfl st).moves s

theorem moves_block (i : Nat) (stmts : List Stmt) : s.Moves (.walkingFrom i path) ((block c path i stmts).run s).2 :=
  (inStep_blockFrom c (fun _ hj => StepKinds.walks_walkingFrom hj path c.rules) stmts).moves s

theorem moves_unreached (i : Nat) (stmts : List Stmt) :
    s.Moves (.walkingFrom i path) ((unreached (deadBlock c path i stmts)).run s).2 :=
  (InStep.unreached (inStep_deadBlockFrom c
    (fun _ hj => (StepKinds.walks_walkingFrom hj path c.rules).aside) stmts)).moves s

omit c path s in
/-- A live break adds the entries of its scope to the exits of the innermost loop, and a continue to those of the next
rounds. -/
theorem gains_leaveLoop {Q : List Frame → List Frame → Prop} {s : State} (hlive : s.dead = 0) (isExit : Bool)
    (hQ : Q (if isExit then [s.scope.own] else []) (if isExit then [] else [s.scope.own])) :
    LoopFrame.Gains Q s.loops ((leaveLoop isExit).run s).2.loops := by
  refine ⟨_, _, hQ, ?_⟩
  rw [leaveLoop_eq]
  show (if s.dead = 0 then _ else _) = _
  rw [if_pos hlive]
  cases isExit with
  | true => simp only [if_true, List.append_nil]
  | false => simp only [Bool.false_eq_true, if_false, List.append_nil]

/-! ### Compound statements, part by part -/

theorem run_block_cons (i : Nat) (st : Stmt) (rest : List Stmt) :
    let first := (stmt c (i :: path) st).run s
    (block c path i (st :: rest)).run s = if first.1 then (block c path (i + 1) rest).run first.2
      else (false, ((unreached (deadBlock c path (i + 1) rest)).run first.2).2) := by
  intro first
  show (if first.1 then block c path (i + 1) rest else do
    unreached (deadBlock c path (i + 1) rest)
    return false).run first.2 = _
  split <;> rfl

/-- The parameters that are written, whatever their defaults are. -/
def writtenParams (params : List ParamDecl) : List Param :=
  params.filterMap fun
    | .hole => none
    | .param _ name kind declared default => some (paramOf name kind declared default)

theorem run_paramDecls_fst (i : Nat) (params : List ParamDecl) :
    ((paramDecls c path i params).run s).1 = writtenParams params := by
  induction params generalizing i s with
  | nil => rfl
  | cons p rest ih =>
      cases p with
      | hole => exact ih s (i + 1)
      | param span name kind declared default =>
          exact congrArg (paramOf name kind declared default :: ·) (ih _ (i + 1))

omit c path in
theorem run_signatureOf_fst (params : List Param) (result : Ty) (span : Span) :
    ((signatureOf params result span).run s).1 = (Signature.make params result).toOption := by
  unfold signatureOf
  split
  · next hmake => rw [hmake]; rfl
  · next hmake => rw [hmake]; rfl

/-- The copy of a scope in which a condition has come out one way. -/
def narrowed (tested : State) (condition : Expr) (holds : Bool) : Scope :=
  tested.scope.copy.narrow (NameFact.ofCondition tested.scope condition) holds false

/-- The walk of a definition: after the defaults of the parameters and the signature, the name is bound to the
signature in the scope `outside`; in a new scope the parameters are bound, and there the body is walked. -/
structure DefineWalk (name : Ident) (params : List ParamDecl) (result : TypeExpr) (body : List Stmt) (span : Span)
    (signed : Option Signature × State) (outside : Scope) (inside : State) (walked : Bool × State) : Prop where
  signs : (signatureOf (writtenParams params) result.denote span).run ((paramDecls c (1 :: path) 0 params).run s).2 =
    signed
  binds : signed.2.scope.bind name.name (.function signed.1) (declaredResult result).isNone = outside
  enters : ((bindParams (1 :: path) signed.1 0 params).run { signed.2 with scope := outside.extend }).2 = inside
  walks : (block c (2 :: path) 0 body).run { inside with
    functions := { declared := declaredResult result } :: inside.functions, depth := inside.depth + 1 } = walked
  run : (stmt c path (.define span name params result body)).run s = (true,
    ((bindName (0 :: path) name
      (.function (signed.1.map (·.withResult (resultOf (walked.2.functions.head?.getD {}) walked.1))))
      ((walked.2.functions.head?.getD {}).isApproximate && (declaredResult result).isNone)).run
        { walked.2 with
          functions := walked.2.functions.tail, depth := walked.2.depth - 1, scope := outside }).2)

theorem exists_defineWalk (name : Ident) (params : List ParamDecl) (result : TypeExpr) (body : List Stmt)
    (span : Span) : ∃ signed outside inside walked,
      DefineWalk c path s name params result body span signed outside inside walked := by
  refine ⟨_, _, _, _, ⟨rfl, rfl, rfl, rfl, ?_⟩⟩
  rw [← run_paramDecls_fst c (1 :: path) s 0 params]
  rfl

namespace DefineWalk

variable {c : Setup} {path : NodePath} {s : State} {name : Ident} {params : List ParamDecl} {result : TypeExpr}
  {body : List Stmt} {span : Span} {signed : Option Signature × State} {outside : Scope} {inside : State}
  {walked : Bool × State}

theorem signature_eq (h : DefineWalk c path s name params result body span signed outside inside walked) :
    signed.1 = (Signature.make (writtenParams params) result.denote).toOption :=
  (congrArg Prod.fst h.signs).symm.trans (run_signatureOf_fst _ _ _ span)

theorem moves_signed (h : DefineWalk c path s name params result body span signed outside inside walked) :
    s.Moves (.evaluating (1 :: path)) signed.2 :=
  h.signs ▸ (moves_paramDecls c (1 :: path) s 0 params).trans (moves_signatureOf _ _ _ _ _)

theorem moves_inside (h : DefineWalk c path s name params result body span signed outside inside walked) :
    State.Moves (.binding (1 :: path)) { signed.2 with scope := outside.extend } inside :=
  h.enters ▸ moves_bindParams c (1 :: path) _ signed.1 0 params

end DefineWalk

/-- The walk of a branching statement: the condition, and then both blocks in scopes that it narrows. -/
structure BranchWalk (condition : Expr) (yes no : List Stmt) (tested : State) (y n : Bool × State) : Prop where
  tests : ((expr c (0 :: path) condition).run s).2 = tested
  takes : (block c (1 :: path) 0 yes).run { tested with scope := narrowed tested condition true } = y
  skips : (block c (2 :: path) 0 no).run { y.2 with scope := narrowed tested condition false } = n
  run : ∀ span, (stmt c path (.branch span condition yes no)).run s =
    (!(liveFrame (y.1, y.2.scope.own) ++ liveFrame (n.1, n.2.scope.own)).isEmpty,
      { n.2 with
        scope := tested.scope.merge (liveFrame (y.1, y.2.scope.own) ++ liveFrame (n.1, n.2.scope.own)) })

theorem exists_branchWalk (condition : Expr) (yes no : List Stmt) :
    ∃ tested y n, BranchWalk c path s condition yes no tested y n :=
  ⟨_, _, _, ⟨rfl, rfl, rfl, fun _ => rfl⟩⟩

theorem BranchWalk.moves_tested {c : Setup} {path : NodePath} {s : State} {condition : Expr} {yes no : List Stmt}
    {tested : State} {y n : Bool × State} (h : BranchWalk c path s condition yes no tested y n) :
    s.Moves (.evaluating (0 :: path)) tested :=
  h.tests ▸ moves_expr c (0 :: path) s condition

/-- The entries with which a loop is left: those before it, those at the end of its body, and those where its next
round is begun or a break leaves it. -/
def loopFrames (before : Frame) (walked : Bool × State) : List Frame :=
  before :: liveFrame (walked.1, walked.2.scope.own) ++ (walked.2.loops.head?.getD {}).nexts ++
    (walked.2.loops.head?.getD {}).exits

/-- The walk of a loop over elements: after the iterable, a copy of the scope in which the target is bound, and
there the body. -/
structure ForWalk (target iterable : Expr) (body : List Stmt) (evaluated bound : State) (walked : Bool × State) :
    Prop where
  evaluates : ((settle (c.rules.iter ((expr c (1 :: path) iterable).run s).1.type iterable.span)).run
    ((expr c (1 :: path) iterable).run s).2).2 = evaluated
  binds : ((assign c (0 :: path) (c.rules.iter ((expr c (1 :: path) iterable).run s).1.type iterable.span).type
    ((expr c (1 :: path) iterable).run s).1.isApproximate target).run
      { evaluated with scope := evaluated.scope.copy }).2 = bound
  walks : (block c (2 :: path) 0 body).run { bound with loops := {} :: bound.loops } = walked
  run : ∀ span, (stmt c path (.forIn span target iterable body)).run s = (true,
    { walked.2 with
      loops := walked.2.loops.tail, scope := evaluated.scope.merge (loopFrames evaluated.scope.own walked) })

theorem exists_forWalk (target iterable : Expr) (body : List Stmt) :
    ∃ evaluated bound walked, ForWalk c path s target iterable body evaluated bound walked :=
  ⟨_, _, _, ⟨rfl, rfl, rfl, fun _ => rfl⟩⟩

namespace ForWalk

variable {c : Setup} {path : NodePath} {s : State} {target iterable : Expr} {body : List Stmt}
  {evaluated bound : State} {walked : Bool × State}

theorem moves_evaluated (h : ForWalk c path s target iterable body evaluated bound walked) :
    s.Moves (.evaluating (1 :: path)) evaluated :=
  h.evaluates ▸ (moves_expr c (1 :: path) s iterable).trans (moves_settle _ _ _)

theorem moves_bound (h : ForWalk c path s target iterable body evaluated bound walked) :
    State.Moves (.binding (0 :: path)) { evaluated with scope := evaluated.scope.copy } bound :=
  h.binds ▸ moves_assign c (0 :: path) _ _ _ target

end ForWalk

/-- The walk of a conditional loop: the condition, and then the body in a scope that it narrows. An endless loop is
left by breaks alone. -/
structure WhileWalk (condition : Expr) (body : List Stmt) (tested : State) (walked : Bool × State) : Prop where
  tests : ((expr c (0 :: path) condition).run s).2 = tested
  walks : (block c (1 :: path) 0 body).run
    { tested with loops := {} :: tested.loops, scope := narrowed tested condition true } = walked
  endless : condition.isTrue = true → ∀ span, (stmt c path (.whileDo span condition body)).run s =
    (!(walked.2.loops.head?.getD {}).exits.isEmpty, { walked.2 with
      loops := walked.2.loops.tail, scope := tested.scope.merge (walked.2.loops.head?.getD {}).exits })
  ends : condition.isTrue = false → ∀ span, (stmt c path (.whileDo span condition body)).run s = (true,
    { walked.2 with
      loops := walked.2.loops.tail, scope := tested.scope.merge (loopFrames tested.scope.own walked) })

theorem exists_whileWalk (condition : Expr) (body : List Stmt) :
    ∃ tested walked, WhileWalk c path s condition body tested walked := by
  obtain ⟨tested, htested⟩ : ∃ tested, ((expr c (0 :: path) condition).run s).2 = tested := ⟨_, rfl⟩
  obtain ⟨walked, hwalked⟩ : ∃ walked, (block c (1 :: path) 0 body).run { tested with
    loops := {} :: tested.loops, scope := narrowed tested condition true } = walked := ⟨_, rfl⟩
  have hrun (span : Span) : (stmt c path (.whileDo span condition body)).run s =
      (if condition.isTrue then mergeLive (walked.2.loops.head?.getD {}).exits
        else mergeLive (loopFrames tested.scope.own walked)).run
          { walked.2 with loops := walked.2.loops.tail, scope := tested.scope } := by
    subst htested hwalked
    rfl
  refine ⟨tested, walked, ⟨htested, hwalked, fun hcondition span => ?_, fun hcondition span => ?_⟩⟩
  · rw [hrun, if_pos hcondition]
    rfl
  · rw [hrun, if_neg (ne_true_of_eq_false hcondition)]
    rfl

theorem WhileWalk.moves_tested {c : Setup} {path : NodePath} {s : State} {condition : Expr} {body : List Stmt}
    {tested : State} {walked : Bool × State} (h : WhileWalk c path s condition body tested walked) :
    s.Moves (.evaluating (0 :: path)) tested :=
  h.tests ▸ moves_expr c (0 :: path) s condition

end Check

end Gradual
