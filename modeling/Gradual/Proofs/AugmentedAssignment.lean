import Gradual.Proofs.Approximations
import Gradual.Proofs.ListWidening

/-! An augmented assignment and its expansion. Both evaluate the same operands and apply the same operator, the one
for other nodes than the other. Where the nodes are does not change what is evaluated: it is only told in notes, and
with the spans of reports. So both bind the target to the same type and report the same errors. The flag is another
matter: an augmented assignment takes that of its right operand alone, and loses what is approximate about the
current value of the target and about the operator. -/

namespace Gradual

/-- The error without its place. -/
def TypingError.unplaced (e : TypingError) : TypingError := e.located {}

/-- The state with other reports and notes. -/
def State.withReports (s : State) (errors : List TypingError) (approximations : List Approximation)
    (types : TypeMap) : State :=
  { s with errors := errors, approximations := approximations, types := types }

/-- The same errors, up to their places. -/
def SameErrors (errors errors' : List TypingError) : Prop :=
  errors.map TypingError.unplaced = errors'.map TypingError.unplaced

theorem SameErrors.append {es es' fs fs' : List TypingError} (h : SameErrors es es') (h' : SameErrors fs fs') :
    SameErrors (es ++ fs) (es' ++ fs') := by
  rw [SameErrors, List.map_append, List.map_append, h, h']

/-- Judgements that differ in the places of what they report. -/
structure Judgement.SameElsewhere (j' j : Judgement) : Prop where
  type : j'.type = j.type
  errors : SameErrors j'.errors j.errors
  approximations : j'.approximations.length = j.approximations.length
  broken : j'.broken = j.broken

theorem Judgement.sameElsewhere_refl (j : Judgement) : j.SameElsewhere j := ⟨rfl, rfl, rfl, rfl⟩

theorem State.exists_report_withReports (s : State) {errors fs fs' : List TypingError}
    (approximations : List Approximation) (types : TypeMap) (h : SameErrors errors s.errors) (hfs : SameErrors fs' fs) :
    ∃ errors', SameErrors errors' (s.report fs).errors ∧
      (s.withReports errors approximations types).report fs' =
        (s.report fs).withReports errors' approximations types := by
  by_cases hdead : s.dead = 0
  · have hfirst : s.report fs = { s with errors := s.errors ++ fs } := if_pos hdead
    refine ⟨errors ++ fs', ?_, ?_⟩
    · rw [hfirst]
      exact h.append hfs
    · rw [hfirst]
      exact if_pos hdead
  · have hfirst : s.report fs = s := if_neg hdead
    refine ⟨errors, ?_, ?_⟩
    · rw [hfirst]
      exact h
    · rw [hfirst]
      exact if_neg hdead

namespace Check

variable {α β : Type}

/-- Two walks do the same, from states that differ in reports and notes at most, and report the same errors up to
their places. -/
def Agrees (m m' : Check α) : Prop :=
  ∀ (s : State) (errors : List TypingError) (approximations : List Approximation) (types : TypeMap),
    SameErrors errors s.errors → ∃ errors' approximations' types', SameErrors errors' (m.run s).2.errors ∧
      m'.run (s.withReports errors approximations types) =
        ((m.run s).1, (m.run s).2.withReports errors' approximations' types')

namespace Agrees

theorem pure (a : α) : Agrees (Pure.pure a) (Pure.pure a) :=
  fun _ errors approximations types h => ⟨errors, approximations, types, h, rfl⟩

theorem bind {m m' : Check α} {k k' : α → Check β} (h : Agrees m m') (hnext : ∀ a, Agrees (k a) (k' a)) :
    Agrees (m >>= k) (m' >>= k') := by
  intro s errors approximations types herrors
  obtain ⟨errors₁, approximations₁, types₁, herrors₁, hrun₁⟩ := h s errors approximations types herrors
  obtain ⟨errors₂, approximations₂, types₂, herrors₂, hrun₂⟩ :=
    hnext _ _ errors₁ approximations₁ types₁ herrors₁
  refine ⟨errors₂, approximations₂, types₂, herrors₂, ?_⟩
  rw [StateT.run_bind, hrun₁]
  exact hrun₂

theorem look {k k' : State → Check α}
    (h : ∀ s errors approximations types, Agrees (k s) (k' (s.withReports errors approximations types))) :
    Agrees (get >>= k) (get >>= k') := fun s errors approximations types herrors =>
  h s errors approximations types s errors approximations types herrors

theorem change {f : State → State}
    (hf : ∀ s errors approximations types, f (s.withReports errors approximations types) =
      (f s).withReports errors approximations types) (herrors : ∀ s, (f s).errors = s.errors) :
    Agrees (modify f) (modify f) := by
  intro s errors approximations types h
  refine ⟨errors, approximations, types, ?_, Prod.ext rfl (hf s errors approximations types)⟩
  show SameErrors errors (f s).errors
  rw [herrors s]
  exact h

theorem note (path path' : NodePath) (form form' : Text) (span span' : Span) (info info' : TypeInfo) :
    Agrees (Check.note path form span info) (Check.note path' form' span' info') :=
  fun _ errors approximations _ h => ⟨errors, approximations, _, h, rfl⟩

theorem report (e : TypingError) (span span' : Span) : Agrees (Check.report e span) (Check.report e span') := by
  intro s errors approximations types h
  have hsame : SameErrors [e.located span'] [e.located span] := rfl
  obtain ⟨errors', herrors', hreport⟩ := s.exists_report_withReports approximations types h hsame
  exact ⟨errors', approximations, types, herrors', Prod.ext rfl hreport⟩

theorem approximate (category message message' : Text) (span span' : Span) :
    Agrees (Check.approximate category message span) (Check.approximate category message' span') :=
  fun _ errors _ types h => ⟨errors, _, types, h, rfl⟩

theorem settle {j j' : Judgement} (h : j'.SameElsewhere j) : Agrees (Check.settle j) (Check.settle j') := by
  intro s errors approximations types herrors
  obtain ⟨errors', herrors', hreport⟩ := s.exists_report_withReports approximations types herrors h.errors
  refine ⟨errors', if s.dead = 0 then approximations ++ j'.approximations else approximations, types, herrors',
    Prod.ext h.type ?_⟩
  have hdead : (s.report j.errors).dead = s.dead := by
    unfold State.report
    split <;> rfl
  show ({ ((s.withReports errors approximations types).report j'.errors).approximate j'.approximations with
    isBroken := ((s.withReports errors approximations types).report j'.errors).isBroken || j'.broken } : State) = _
  rw [hreport, h.broken, State.approximate, h.approximations, ← hdead]
  rfl

theorem taint : Agrees Check.taint Check.taint := change (fun _ _ _ _ => rfl) fun _ => rfl

theorem ite {p : Prop} [Decidable p] {yes yes' no no' : Check α} (hyes : Agrees yes yes') (hno : Agrees no no') :
    Agrees (if p then yes else no) (if p then yes' else no') := by
  split
  · exact hyes
  · exact hno

theorem noted (path path' : NodePath) (form form' : Text) (span span' : Span) {eval eval' : Check Ty}
    (h : Agrees eval eval') : Agrees (Check.noted path form span eval) (Check.noted path' form' span' eval') :=
  look fun _ _ _ _ => h.bind fun _ => look fun _ _ _ _ => (note _ _ _ _ _ _ _ _).bind fun _ => pure _

end Agrees

/-- Walks in step that make the same judgements agree, wherever they note types. -/
theorem InStep.agrees {K : StepKinds} {m m' : Check α} (h : InStep K m m')
    (hK : ∀ j' j, K.Judged j' j → j' = j) : Agrees m m' := by
  induction h with
  | pure a => exact .pure a
  | bind _ _ ih ihnext => exact (ih hK).bind fun a => ihnext a hK
  | look _ ih => exact .look fun s errors approximations types => ih s errors approximations types hK
  | report e span => exact .report e span span
  | approximate category message span => exact .approximate category message message span span
  | settle hjudged =>
      rw [hK _ _ hjudged]
      exact .settle (Judgement.sameElsewhere_refl _)
  | count f => exact .change (fun _ _ _ _ => rfl) fun _ => rfl
  | note _ _ form span info => exact .note _ _ form form span span info info
  | rebind f g _ _ => exact .change (fun _ _ _ _ => rfl) fun _ => rfl
  | returned _ info =>
      simp only [returned_eq]
      exact .change (fun _ _ _ _ => rfl) fun _ => rfl
  | leaveLoop _ isExit =>
      rw [leaveLoop_eq]
      exact .change (fun _ _ _ _ => rfl) fun _ => rfl
  -- Walks with something to be undone at their end: the end of the inner walk decides the end of the outer.
  | @aside _ β _ _ enter _ ih =>
      intro s errors approximations types herrors
      obtain ⟨errors', approximations', types', herrors', hrun⟩ :=
        ih hK { s with scope := enter s.scope } errors approximations types herrors
      exact ⟨errors', approximations', types', herrors',
        congrArg (fun r : β × State => (r.1, ({ r.2 with scope := s.scope } : State))) hrun⟩
  | unreached _ ih =>
      intro s errors approximations types herrors
      obtain ⟨errors', approximations', types', herrors', hrun⟩ :=
        ih hK { s with dead := s.dead + 1, scope := s.scope.copy } errors approximations types herrors
      exact ⟨errors', approximations', types', herrors', congrArg
        (fun r : Unit × State => (r.1, ({ r.2 with dead := r.2.dead - 1, scope := s.scope } : State))) hrun⟩
  | @inLoop _ β _ _ _ ih =>
      intro s errors approximations types herrors
      obtain ⟨errors', approximations', types', herrors', hrun⟩ :=
        ih hK { s with loops := {} :: s.loops } errors approximations types herrors
      exact ⟨errors', approximations', types', herrors', congrArg
        (fun r : β × State => ((r.1, r.2.loops.head?.getD {}), ({ r.2 with loops := r.2.loops.tail } : State))) hrun⟩
  | @inBody _ β _ _ _ ih =>
      intro s errors approximations types herrors
      obtain ⟨errors', approximations', types', herrors', hrun⟩ :=
        ih hK { s with depth := s.depth + 1 } errors approximations types herrors
      exact ⟨errors', approximations', types', herrors', congrArg
        (fun r : β × State => (r.1, ({ r.2 with depth := r.2.depth - 1 } : State))) hrun⟩
  | @inFunction _ β _ _ declared _ ih =>
      intro s errors approximations types herrors
      obtain ⟨errors', approximations', types', herrors', hrun⟩ := ih hK
        { s with functions := { declared := declared } :: s.functions, depth := s.depth + 1 } errors approximations
        types herrors
      exact ⟨errors', approximations', types', herrors', congrArg (fun r : β × State =>
        ((r.1, r.2.functions.head?.getD {}),
          ({ r.2 with functions := r.2.functions.tail, depth := r.2.depth - 1 } : State))) hrun⟩

/-- What is evaluated for a node is evaluated in the same way for any other. -/
def StepKinds.anywhere : StepKinds where
  Judged := Eq
  Noted _ := True
  Rebound _ := True
  Leaves := True
  There _ _ := True

theorem StepKinds.evaluates_anywhere (place place' : NodePath) (r : Rules) : anywhere.Evaluates place place' r r where
  judged := r.related_self fun _ => rfl
  noted _ := trivial
  there _ := trivial
  rebound _ := trivial

theorem agrees_expr (c : Setup) (path path' : NodePath) (e : Expr) : Agrees (expr c path e) (expr c path' e) :=
  (inStep_expr c (StepKinds.evaluates_anywhere path path' c.rules) .self e).agrees fun _ _ h => h

theorem agrees_ident (c : Setup) {id id' : Ident} (h : id'.name = id.name) : Agrees (ident c id) (ident c id') := by
  have hknown (type : Ty) (isApproximate : Bool) : Agrees (do
      if isApproximate then taint
      return type) (do
      if isApproximate then taint
      return type) := .ite (Agrees.taint.bind fun _ => .pure type) (.pure type)
  unfold ident
  rw [h]
  refine .look fun s _ _ _ => ?_
  dsimp only [State.withReports]
  split
  · exact .pure _
  · split
    · exact hknown _ _
    · split
      · exact .pure _
      · split
        · exact (Agrees.approximate _ _ _ _ _).bind fun _ => .pure _
        · generalize (if 0 < s.depth then c.forward.get? id.name else none) = later
          cases later with
          | none => exact (Agrees.report _ _ _).bind fun _ => .pure _
          | some fwd => exact hknown fwd.type fwd.isApproximate

/-! ### The value -/

/-- The value of a name after an operator was applied to it, with the name and the operand at some nodes. -/
def applied (c : Setup) (path path' : NodePath) (span : Span) (op : Text) (id : Ident) (e : Expr) : Check Ty := do
  let left ← expr c path (.ident id)
  let right ← expr c path' e
  settle (c.rules.binOp op left.type right.type span)

/-- What a verdict is, apart from the approximations it tells of; those count. -/
def countedVerdict (v : Verdict) : Option Ty × Nat × Bool := (v.type, v.approximations.length, v.broken)

theorem sameElsewhere_settle (r : Rules) {vs vs' : List Verdict} (h : vs'.map countedVerdict = vs.map countedVerdict)
    (error : TypingError) (span span' : Span) :
    (r.settle vs' error span').SameElsewhere (r.settle vs error span) := by
  have hproject {γ : Type} (f : Option Ty × Nat × Bool → γ) :
      vs'.map (fun v => f (countedVerdict v)) = vs.map fun v => f (countedVerdict v) := by
    have hmap := congrArg (List.map f) h
    rwa [List.map_map, List.map_map] at hmap
  have htypes : vs'.map (·.type) = vs.map (·.type) := hproject fun v => v.1
  have hnumbers : vs'.map (·.approximations.length) = vs.map (·.approximations.length) := hproject fun v => v.2.1
  have hbroken : vs'.map (·.broken) = vs.map (·.broken) := hproject fun v => v.2.2
  have hlength : vs'.length = vs.length := by simpa using congrArg List.length htypes
  have hknown : vs'.filterMap (·.type) = vs.filterMap (·.type) := by
    simpa [List.filterMap_map] using congrArg (List.filterMap id) htypes
  have hfailed : vs'.countP (·.type.isNone) = vs.countP (·.type.isNone) := by
    simpa [List.countP_map, Function.comp_def] using congrArg (List.countP Option.isNone) htypes
  refine ⟨?_, ?_, ?_, ?_⟩
  · show (if _ then _ else _) = _
    rw [hknown]
    rfl
  · show SameErrors (if Rules.reports r.mode (vs'.countP _) vs'.length then _ else _) _
    rw [hfailed, hlength]
    show SameErrors _ (if Rules.reports r.mode (vs.countP _) vs.length then _ else _)
    split <;> rfl
  · show (vs'.flatMap (·.approximations)).length = (vs.flatMap (·.approximations)).length
    rw [List.length_flatMap, List.length_flatMap, hnumbers]
  · show vs'.any (·.broken) = vs.any (·.broken)
    simpa [List.any_map] using congrArg (List.any · id) hbroken

theorem countedVerdict_binOpOf (r : Rules) (op : Text) (left right : Alt) (span span' : Span) :
    countedVerdict (r.binOpOf op left right span') = countedVerdict (r.binOpOf op left right span) := by
  have hask (fact : Fact) (category message : Text) : countedVerdict (.ofFact fact category message span') =
      countedVerdict (.ofFact fact category message span) := by
    cases fact <;> rfl
  unfold Rules.binOpOf
  split
  · rfl
  · split
    · rfl
    · exact hask _ _ _

theorem sameElsewhere_binOp (r : Rules) (op : Text) (left right : Ty) (span span' : Span) :
    (r.binOp op left right span').SameElsewhere (r.binOp op left right span) := by
  unfold Rules.binOp
  split
  · exact Judgement.sameElsewhere_refl _
  · split
    · exact Judgement.sameElsewhere_refl _
    · refine sameElsewhere_settle r ?_ _ span span'
      simp only [List.map_flatMap, List.map_map, Function.comp_def, countedVerdict_binOpOf r op _ _ span span']

theorem agrees_applied (c : Setup) (path path' place place' : NodePath) (span span' : Span) (op : Text)
    {id id' : Ident} (h : id'.name = id.name) (e : Expr) :
    Agrees (applied c path path' span op id e) (applied c place place' span' op id' e) :=
  ((agrees_ident c h).noted _ _ _ _ _ _).bind fun _ => (agrees_expr c _ _ e).bind fun _ =>
    .settle (sameElsewhere_binOp c.rules op _ _ span span')

theorem assignedOperator_append {op : Text} (h : op ≠ "") : assignedOperator (op ++ "=") = op := by
  have hlist : (op ++ "=").toList = op.toList ++ ['='] := String.toList_append
  have hne : op.toList ≠ [] := fun hnil => h (String.toList_eq_nil_iff.mp hnil)
  have hnot : ¬(op ++ "=" = "=" ∨ (op ++ "=").length < 2) := by
    have hpos := List.length_pos_iff.mpr hne
    rw [← String.length_toList, hlist, List.length_append, List.length_singleton]
    rintro (heq | hlt)
    · have hlength := congrArg List.length (hlist.symm.trans (congrArg String.toList heq))
      rw [List.length_append] at hlength
      exact absurd (Nat.add_eq_right.mp hlength) (Nat.ne_of_gt hpos)
    · omega
  rw [assignedOperator, if_neg hnot, hlist, List.dropLast_concat, String.ofList_toList]

section Runs

variable (c : Setup) (path : NodePath) (span span' : Span) {op : Text} (id id' : Ident) (e : Expr) (s : State)

theorem run_augmented (hop : op ≠ "")
    (hlists : op = "+" → allLists ((expr c (0 :: path) (.ident id)).run s).1.type = false) :
    ((stmt c path (.assign span (op ++ "=") (.ident id) .hole e)).run s).2 =
      ((bindName (0 :: path) id ((applied c (0 :: path) (1 :: path) span op id e).run s).1
        ((expr c (1 :: path) e).run ((expr c (0 :: path) (.ident id)).run s).2).1.isApproximate).run
        ((applied c (0 :: path) (1 :: path) span op id e).run s).2).2 := by
  show ((assignment c path span (op ++ "=") (.ident id) .hole e).run s).2 = _
  unfold assignment
  rw [assignedOperator_append hop, if_neg hop]
  have hvalue (right : Ty) : augmented c op ((expr c (0 :: path) (.ident id)).run s).1.type right span e.span =
      settle (c.rules.binOp op ((expr c (0 :: path) (.ident id)).run s).1.type right span) := by
    refine if_neg fun hplus => ?_
    rw [Bool.and_eq_true, decide_eq_true_eq] at hplus
    rw [hlists hplus.1] at hplus
    exact absurd hplus.2 Bool.false_ne_true
  refine of_run_bind (fun r => r.2 = _) (of_run_bind (fun r => r.2 = _) ?_)
  have htarget : ((targetValue c (0 :: path) (.ident id)).run s).1 =
      ((expr c (0 :: path) (.ident id)).run s).1.type := rfl
  rw [htarget, hvalue]
  rfl

theorem run_expanded (hand : op ≠ "and") (hor : op ≠ "or") :
    let value := (applied c (0 :: 1 :: path) (1 :: 1 :: path) span' op id' e).run s
    let info : TypeInfo := ⟨value.1, value.2.taint != s.taint⟩
    ((stmt c path (.assign span "=" (.ident id) .hole (.binary span' op (.ident id') e))).run s).2 =
      ((bindName (0 :: path) id info.type info.isApproximate).run
        (value.2.note (1 :: path) "BinaryExpression" span' info)).2 := by
  intro value info
  show ((assignment c path span "=" (.ident id) .hole (.binary span' op (.ident id') e)).run s).2 = _
  have hvalue : expr c (1 :: path) (.binary span' op (.ident id') e) = noted (1 :: path) "BinaryExpression" span'
      (applied c (0 :: 1 :: path) (1 :: 1 :: path) span' op id' e) := by
    have hplain : (decide (op = "and") || decide (op = "or")) = false := by
      rw [decide_eq_false hand, decide_eq_false hor, Bool.or_false]
    rw [expr]
    simp only [hplain, Bool.false_eq_true, if_false]
    rfl
  unfold assignment
  rw [hvalue]
  rfl

end Runs

/-! ### The target -/

/-- What is reported when a name is bound to a type. -/
def misfits (s : Scope) (id : Ident) (type : Ty) : List TypingError :=
  match s.annotation? id.name with
  | some declared =>
    if type.subtype declared then [] else [(TypingError.incompatibleAssignment declared type).located id.span]
  | none => []

theorem errors_bindName (path : NodePath) (id : Ident) (type : Ty) (isApproximate : Bool) (s : State) :
    ((bindName path id type isApproximate).run s).2.errors = (s.report (misfits s.scope id type)).errors := by
  rw [bindName_eq]
  refine of_run_bind (fun r => r.2.errors = _) ?_
  have hscope : (scope.run s).1.annotation? id.name = s.scope.annotation? id.name := rfl
  rw [misfits, hscope]
  cases s.scope.annotation? id.name with
  | none =>
      rw [State.report_nil]
      rfl
  | some declared =>
      dsimp only
      split
      · rw [State.report_nil]
        rfl
      · rfl

theorem sameErrors_bindName (path path' : NodePath) {id id' : Ident} (h : id'.name = id.name) (type : Ty)
    (isApproximate isApproximate' : Bool) (s : State) {errors : List TypingError}
    (approximations : List Approximation) (types : TypeMap) (herrors : SameErrors errors s.errors) :
    SameErrors ((bindName path' id' type isApproximate').run (s.withReports errors approximations types)).2.errors
      ((bindName path id type isApproximate).run s).2.errors := by
  have hmisfits : SameErrors (misfits s.scope id' type) (misfits s.scope id type) := by
    unfold misfits
    rw [h]
    split
    · split <;> rfl
    · rfl
  obtain ⟨errors', herrors', hreport⟩ := s.exists_report_withReports approximations types herrors hmisfits
  rw [errors_bindName, errors_bindName]
  show SameErrors ((s.withReports errors approximations types).report (misfits s.scope id' type)).errors _
  rw [hreport]
  exact herrors'

end Check

theorem Scope.get?_hold (s : Scope) (name : Text) (type : Ty) (isApproximate : Bool) :
    (s.hold name type isApproximate).own.symbols.get? name =
      some (((s.annotation? name).map (⟨·, false⟩)).getD ⟨type, isApproximate⟩) := by
  unfold Scope.hold
  cases s.annotation? name with
  | none => exact (NameMap.get?_insert _ _ _ _).trans (if_pos rfl)
  | some declared => exact (NameMap.get?_insert _ _ _ _).trans (if_pos rfl)

namespace Check

/-- The operators that an assignment may apply. -/
def assignableOperators : List Text := ["+", "-", "*", "/", "//", "%", "&", "|", "^", "<<", ">>"]

/-- The count after an operator was applied tells what was approximate: the name, the operand or the operator. -/
theorem taint_applied (c : Setup) (path path' : NodePath) (span : Span) (op : Text) (id : Ident) (e : Expr)
    (s : State) :
    let left := (expr c path (.ident id)).run s
    let right := (expr c path' e).run left.2
    ((applied c path path' span op id e).run s).2.taint = s.taint ↔ left.1.isApproximate = false ∧
      right.1.isApproximate = false ∧ (c.rules.binOp op left.1.type right.1.type span).approximations = [] := by
  intro left right
  have hleft := Evaluation.taint_le c ⟨path, .ident id, s⟩
  have hright := Evaluation.taint_le c ⟨path', e, left.2⟩
  have hflag : left.1.isApproximate = false ↔ left.2.taint = s.taint :=
    Evaluation.isApproximate_eq_false_iff (c := c) ⟨path, .ident id, s⟩
  have hflag' : right.1.isApproximate = false ↔ right.2.taint = left.2.taint :=
    Evaluation.isApproximate_eq_false_iff (c := c) ⟨path', e, left.2⟩
  have hsettled := (taint_settle (c.rules.binOp op left.1.type right.1.type span) right.2).1
  have hrun : ((applied c path path' span op id e).run s).2.taint =
      ((settle (c.rules.binOp op left.1.type right.1.type span)).run right.2).2.taint := rfl
  rw [hrun, hsettled, hflag, hflag', ← List.length_eq_zero_iff]
  have hle : s.taint ≤ left.2.taint := hleft
  have hle' : left.2.taint ≤ right.2.taint := hright
  omega

theorem annotation?_applied (c : Setup) (path path' : NodePath) (span : Span) (op : Text) (id : Ident) (e : Expr)
    (s : State) (name : Text) :
    ((applied c path path' span op id e).run s).2.scope.annotation? name = s.scope.annotation? name := by
  have hleft := (widens_expr c path (.ident id) s).annotations
  have hright := (widens_expr c path' e ((expr c path (.ident id)).run s).2).annotations
  have hsettled (j : Judgement) (s : State) : ((settle j).run s).2.scope = s.scope := s.scope_report j.errors
  show (((settle _).run ((expr c path' e).run ((expr c path (.ident id)).run s).2).2).2.scope).annotation? name = _
  rw [hsettled, Scope.annotation?, hright, hleft]
  rfl

theorem get?_augmented (c : Setup) (path : NodePath) (span : Span) {op : Text} (id : Ident) (e : Expr) (s : State)
    (hop : op ≠ "") (hlists : op = "+" → allLists ((expr c (0 :: path) (.ident id)).run s).1.type = false) :
    ((stmt c path (.assign span (op ++ "=") (.ident id) .hole e)).run s).2.scope.own.symbols.get? id.name =
      some (((s.scope.annotation? id.name).map (⟨·, false⟩)).getD
        ⟨((applied c (0 :: path) (1 :: path) span op id e).run s).1,
          ((expr c (1 :: path) e).run ((expr c (0 :: path) (.ident id)).run s).2).1.isApproximate⟩) := by
  rw [run_augmented c path span id e s hop hlists, scope_bindName, Scope.get?_hold, annotation?_applied]

theorem get?_expanded (c : Setup) (path : NodePath) (span span' : Span) {op : Text} (id id' : Ident) (e : Expr)
    (s : State) (hand : op ≠ "and") (hor : op ≠ "or") :
    let value := (applied c (0 :: 1 :: path) (1 :: 1 :: path) span' op id' e).run s
    ((stmt c path (.assign span "=" (.ident id) .hole (.binary span' op (.ident id') e))).run s).2.scope.own.symbols.get?
      id.name = some (((s.scope.annotation? id.name).map (⟨·, false⟩)).getD ⟨value.1, value.2.taint != s.taint⟩) := by
  intro value
  rw [run_expanded c path span span' id id' e s hand hor, scope_bindName,
    ← annotation?_applied c (0 :: 1 :: path) (1 :: 1 :: path) span' op id' e]
  exact Scope.get?_hold _ _ _ _

/-- Checking `x op= e` and checking `x = x op e` bind `x` to the same type and report the same errors, apart from their
places. The flags agree exactly if `x` has an annotation, `e` is approximate, or neither the value of `x` nor the
operator is: an augmented assignment takes the flag of `e`, and its expansion that of all three. -/
theorem augmented_agrees_with_expansion (c : Setup) (path path' : NodePath) (span span' span'' : Span)
    (id id' id'' : Ident) (hid' : id'.name = id.name) (hid'' : id''.name = id.name) {op : Text}
    (hop : op ∈ assignableOperators) (e : Expr) (s : State)
    (hlists : op = "+" → allLists ((expr c (0 :: path) (.ident id)).run s).1.type = false) :
    let augmented := ((stmt c path (.assign span (op ++ "=") (.ident id) .hole e)).run s).2
    let expanded := ((stmt c path' (.assign span' "=" (.ident id') .hole (.binary span'' op (.ident id'') e))).run s).2
    let left := (expr c (0 :: path) (.ident id)).run s
    let right := (expr c (1 :: path) e).run left.2
    SameErrors expanded.errors augmented.errors ∧
    ∃ type isApproximate isApproximate',
      augmented.scope.own.symbols.get? id.name = some ⟨type, isApproximate⟩ ∧
      expanded.scope.own.symbols.get? id.name = some ⟨type, isApproximate'⟩ ∧
      (isApproximate' = isApproximate ↔ (s.scope.annotation? id.name).isSome = true ∨ right.1.isApproximate = true ∨
        left.1.isApproximate = false ∧ (c.rules.binOp op left.1.type right.1.type span).approximations = []) := by
  intro augmented expanded left right
  have hwords : op ≠ "" ∧ op ≠ "and" ∧ op ≠ "or" := by
    refine ⟨?_, ?_, ?_⟩ <;> rintro rfl <;> exact absurd hop (by decide)
  -- The operands agree, so both assignments bind from states that differ in reports and notes only.
  obtain ⟨errors, approximations, types, herrors, hrun⟩ := agrees_applied c (0 :: path) (1 :: path) (0 :: 1 :: path')
    (1 :: 1 :: path') span span'' op hid'' e s s.errors s.approximations s.types rfl
  have hvalue : (applied c (0 :: 1 :: path') (1 :: 1 :: path') span'' op id'' e).run s = _ := hrun
  constructor
  · have haugmented : augmented = _ := run_augmented c path span id e s hwords.1 hlists
    have hexpanded : expanded = _ := run_expanded c path' span' span'' id' id'' e s hwords.2.1 hwords.2.2
    rw [haugmented, hexpanded, hvalue]
    exact sameErrors_bindName _ _ hid' _ _ _ _ _ _ herrors
  · have hbound := get?_augmented c path span id e s hwords.1 hlists
    have hbound' := get?_expanded c path' span' span'' id' id'' e s hwords.2.1 hwords.2.2
    rw [hvalue, hid'] at hbound'
    have htaint : ((applied c (0 :: path) (1 :: path) span op id e).run s).2.taint = s.taint ↔
        left.1.isApproximate = false ∧ right.1.isApproximate = false ∧
          (c.rules.binOp op left.1.type right.1.type span).approximations = [] := taint_applied c _ _ span op id e s
    cases hannotated : s.scope.annotation? id.name with
    | some declared =>
        rw [hannotated] at hbound hbound'
        exact ⟨declared, false, false, hbound, hbound', fun _ => Or.inl rfl, fun _ => rfl⟩
    | none =>
        rw [hannotated] at hbound hbound'
        refine ⟨_, _, _, hbound, hbound', ?_⟩
        show ((((applied c (0 :: path) (1 :: path) span op id e).run s).2.taint != s.taint) = right.1.isApproximate) ↔ _
        rw [Option.isSome_none, Bool.eq_iff_iff, bne_iff_ne, ne_eq, htaint]
        cases right.1.isApproximate with
        | true => simp
        | false => simp

/-- Where the right operand is approximate as well, as in `x -= x`, nothing is lost. -/
theorem augmented_agrees_with_expansion_unknown :
    let c : Setup := { rules := ⟨.standard, .lint⟩ }
    let x : Ident := ⟨{}, "x"⟩
    let augmented := ((stmt c [0] (.assign {} "-=" (.ident x) .hole (.ident x))).run holdsUnknown).2
    let expanded := ((stmt c [1] (.assign {} "=" (.ident x) .hole
      (.binary {} "-" (.ident x) (.ident x)))).run holdsUnknown).2
    "-" ∈ assignableOperators ∧ SameErrors expanded.errors augmented.errors ∧ ∃ type isApproximate,
      augmented.scope.own.symbols.get? "x" = some ⟨type, isApproximate⟩ ∧
      expanded.scope.own.symbols.get? "x" = some ⟨type, isApproximate⟩ := by
  intro c x augmented expanded
  have hop : "-" ∈ assignableOperators := by decide
  obtain ⟨herrors, type, isApproximate, isApproximate', hbound, hbound', hflags⟩ :=
    augmented_agrees_with_expansion c [0] [1] {} {} {} x x x rfl rfl hop (.ident x) holdsUnknown
      fun h => absurd h (by decide)
  have hsame := hflags.mpr (Or.inr (Or.inl (by decide +kernel)))
  exact ⟨hop, herrors, type, isApproximate, hbound, hsame ▸ hbound'⟩

/-- A name that is only approximately known loses its flag in an augmented assignment, and keeps it in the expansion:
`x += 1` and `x = x + 1`. -/
theorem augmented_loses_approximation :
    let c : Setup := { rules := ⟨.standard, .lint⟩ }
    let augmented := ((stmt c [0] (.assign {} "+=" (.ident ⟨{}, "x"⟩) .hole (.int {} 1))).run holdsUnknown).2
    let expanded := ((stmt c [0] (.assign {} "=" (.ident ⟨{}, "x"⟩) .hole
      (.binary {} "+" (.ident ⟨{}, "x"⟩) (.int {} 1)))).run holdsUnknown).2
    allLists ((expr c [0, 0] (.ident ⟨{}, "x"⟩)).run holdsUnknown).1.type = false ∧
      (augmented.scope.own.symbols.get? "x").map (·.isApproximate) = some false ∧
      (expanded.scope.own.symbols.get? "x").map (·.isApproximate) = some true := by
  decide +kernel

end Check

end Gradual
