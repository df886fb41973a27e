import Gradual.Oracle.Standard
import Gradual.Proofs.NameWalk

/-! What the body of a function may use ahead of its binding. The names that assignments and definitions bind outside
of functions are collected before a module is walked, and no body is told that one of them is unbound. Targets of
loops and loaded names are not collected: a body that is walked before them does not know them. -/

namespace Gradual

/-! ### Names bound ahead -/

mutual

/-- The names that assignments and definitions of a statement bind, in branches and loops as well. -/
def Stmt.aheadNames : Stmt → List Text
  | .assign _ _ target _ _ => Forward.targetNames target
  | .define _ name _ _ _ => [name.name]
  | .branch _ _ yes no => aheadNamesOf yes ++ aheadNamesOf no
  | .forIn _ _ _ body | .whileDo _ _ body => aheadNamesOf body
  | .hole | .expr _ | .ret _ _ | .exit _ | .next _ | .pass _ | .load _ _ _ => []

/-- The names that assignments and definitions of several statements bind. -/
def aheadNamesOf : List Stmt → List Text
  | [] => []
  | s :: rest => s.aheadNames ++ aheadNamesOf rest

end

namespace Forward

theorem contains_addName (known : NameMap Forward) (name n : Text) :
    (addName known name).contains n = true ↔ n = name ∨ known.contains n = true := by
  rw [addName]
  split
  · next hknown => exact ⟨Or.inr, fun h => h.elim (fun heq => heq ▸ hknown) id⟩
  · exact known.contains_insert name _ n

theorem contains_foldl_addName (known : NameMap Forward) (names : List Text) (n : Text) :
    (names.foldl addName known).contains n = true ↔ n ∈ names ∨ known.contains n = true := by
  induction names generalizing known with
  | nil => simp
  | cons name rest ih => rw [List.foldl_cons, ih, contains_addName, List.mem_cons, or_left_comm, or_assoc]

mutual

theorem contains_collectStmt (known : NameMap Forward) (n : Text) : (s : Stmt) →
    ((collectStmt known s).contains n = true ↔ n ∈ s.aheadNames ∨ known.contains n = true)
  | .assign _ _ target _ _ => contains_foldl_addName known (targetNames target) n
  | .define _ name params result _ => by
      rw [collectStmt, NameMap.contains_insert, Stmt.aheadNames, List.mem_singleton]
  | .branch _ _ yes no => by
      rw [collectStmt, contains_collect _ n no, contains_collect known n yes, Stmt.aheadNames, List.mem_append,
        or_assoc, or_left_comm]
  | .forIn _ _ _ body | .whileDo _ _ body => contains_collect known n body
  | .hole | .expr _ | .ret _ _ | .exit _ | .next _ | .pass _ | .load _ _ _ =>
      (or_iff_right List.not_mem_nil).symm

theorem contains_collect (known : NameMap Forward) (n : Text) : (stmts : List Stmt) →
    ((collect known stmts).contains n = true ↔ n ∈ aheadNamesOf stmts ∨ known.contains n = true)
  | [] => (or_iff_right List.not_mem_nil).symm
  | s :: rest => by
      rw [collect, contains_collect _ n rest, contains_collectStmt known n s, aheadNamesOf, List.mem_append,
        or_assoc, or_left_comm]

end

end Forward

namespace Mention

/-- Whether a name is used in the body of a function and is one of these. -/
def isAhead (names : List Text) : Mention → Bool
  | .use isInBody id => isInBody && names.contains id.name
  | .symbol _ _ _ => false

theorem isForward_collect (stmts : List Stmt) (x : Mention) :
    x.isForward (Forward.collect .empty stmts) 0 = x.isAhead (aheadNamesOf stmts) := by
  cases x with
  | symbol => rfl
  | use isInBody id =>
      have hcollect : (Forward.collect .empty stmts).contains id.name = (aheadNamesOf stmts).contains id.name := by
        rw [Bool.eq_iff_iff, Forward.contains_collect, List.contains_iff_mem]
        exact or_iff_left Bool.false_ne_true
      rw [isForward, isAhead, hcollect]
      exact congrArg (· && _) (Bool.or_false _)

end Mention

/-! ### Reporting a name that is not bound -/

theorem State.Effect.mem_errors {c : Setup} {xs : List Mention} {es : List NameEvent} {s s' : State}
    (h : s.Effect c xs es s') {e : TypingError} (he : e ∈ s.errors) : e ∈ s'.errors := by
  obtain ⟨new, herrors, _⟩ := h.errors
  rw [herrors]
  exact List.mem_append_left new he

namespace Check

/-- A walk from a state has reported an error at its end. -/
def Reports (e : TypingError) (s : State) {α : Type} (m : Check α) : Prop := e ∈ (m.run s).2.errors

namespace Reports

variable {α β : Type} {c : Setup} {xs : List Mention} {es : List NameEvent} {e : TypingError} {s : State}

theorem bind {m : Check α} {k : α → Check β} (h : Reports e s m) (hnext : ∀ a, Does c true xs es (k a)) :
    Reports e s (m >>= k) :=
  (hnext _ _ fun _ => rfl).mem_errors h

theorem of_next {m : Check α} {k : α → Check β} (h : Reports e (m.run s).2 (k (m.run s).1)) :
    Reports e s (m >>= k) := h

theorem observe {k : State → Check α} (h : Reports e s (k s)) : Reports e s (get >>= k) := h

theorem noted (c : Setup) {path : NodePath} {form : Text} {span : Span} {eval : Check Ty} (h : Reports e s eval) :
    Reports e s (Check.noted path form span eval) :=
  observe (bind (c := c) h fun _ => Does.look.after fun _ => (Does.note _ _ _ _).after fun _ => .pure _)

theorem aside {walk : Check α} {enter : Scope → Scope} (h : Reports e { s with scope := enter s.scope } walk) :
    Reports e s (Check.aside enter walk) := h

theorem inFunction {walk : Check α} {declared : Option Ty}
    (h : Reports e { s with functions := { declared := declared } :: s.functions, depth := s.depth + 1 } walk) :
    Reports e s (Check.inFunction declared walk) := h

end Reports

variable {c : Setup} {e : TypingError} {s : State}

theorem reports_ident {id : Ident} (hconstant : constant? id.name = none) (hfree : s.scope.resolve? id.name = none)
    (horacle : c.rules.oracle.signature id.name = none) (hwildcard : s.scope.isWildcard = false)
    (hahead : c.forward.get? id.name = none) (hlive : s.dead = 0) :
    Reports ((TypingError.notInScope id.name).located id.span) s (ident c id) := by
  have hlater : (if 0 < s.depth then c.forward.get? id.name else none) = none := by
    rw [hahead, ite_self]
  refine .observe ?_
  simp only [hconstant, hfree, horacle, hwildcard, hlater, Bool.false_eq_true, if_false]
  refine .bind (c := c) ?_ fun _ => .pure _
  show _ ∈ (s.report [_]).errors
  rw [State.report, if_pos hlive]
  exact List.mem_append_right _ List.mem_cons_self

theorem reports_ret {path : NodePath} {span : Span} {id : Ident} (h : Reports e s (ident c id)) :
    Reports e s (stmt c path (.ret span (.ident id))) :=
  .bind (c := c) (.bind (c := c) (.noted c h) fun info => does_returning span info) fun _ => .pure _

theorem reports_block {path : NodePath} {i : Nat} {first : Stmt} {rest : List Stmt}
    (h : Reports e s (stmt c (i :: path) first)) : Reports e s (block c path i (first :: rest)) :=
  (effect_block_rest first (effect_block c path (i + 1) rest) (does_deadBlock c path (i + 1) rest) s).mem_errors h

theorem reports_define {path : NodePath} {span retSpan : Span} {name id : Ident} {result : TypeExpr}
    {rest : List Stmt} (hname : id.name ≠ name.name) (hconstant : constant? id.name = none)
    (horacle : c.rules.oracle.signature id.name = none) (hahead : c.forward.get? id.name = none) :
    Reports ((TypingError.notInScope id.name).located id.span) {}
      (stmt c path (.define span name [] result (.ret retSpan (.ident id) :: rest))) := by
  refine .of_next (.of_next (.of_next ?_))
  refine .bind (c := c) (.aside (.of_next (.inFunction ?_))) fun _ =>
    (does_bindName _ name _ _).bind_quiet fun _ => .pure _
  refine reports_block (reports_ret (reports_ident hconstant ?_ horacle rfl hahead rfl))
  -- The body sees its own empty scope and that of the module, which holds the function alone.
  show (Scope.bind {} name.name _ _).extend.resolve? id.name = none
  simp only [Scope.resolve?, Scope.frames, Scope.extend, Scope.bind, Frame.bind, List.findSome?_cons,
    NameMap.get?_insert, if_neg hname]
  rfl

end Check

namespace Module

def mentions (m : Module) : List Mention := mentionsOfStmts m.body

/-- Errors about unbound names come from mentions, in order, and none of them from a mention in a body of a name that
an assignment or a definition outside of functions binds. Other names are not excused: a function at the beginning of a
module that returns one is told that it is unbound, unless the name is a constant or the oracle knows it. -/
theorem unbound_errors_check (rules : Rules) (loads : NameMap Interface) (m : Module) :
    ((m.check rules loads).errors.filter TypingError.isUnbound).Sublist
      ((m.mentions.filter fun x => !x.isAhead (aheadNamesOf m.body)).map Mention.error) ∧
    ∀ (span retSpan : Span) (name id : Ident) (result : TypeExpr) (body rest : List Stmt),
      m.body = .define span name [] result (.ret retSpan (.ident id) :: body) :: rest →
      id.name ∉ aheadNamesOf m.body → Check.constant? id.name = none → rules.oracle.signature id.name = none →
      (TypingError.notInScope id.name).located id.span ∈ (m.check rules loads).errors := by
  constructor
  · obtain ⟨new, herrors, hnew⟩ :=
      (Check.effect_block ⟨rules, loads, Forward.collect .empty m.body⟩ [] 0 m.body {}).errors
    rw [Setup.complaints] at hnew
    simp only [Mention.isForward_collect] at hnew
    have hchecked : (m.check rules loads).errors = new := herrors
    rw [hchecked]
    exact hnew
  · intro span retSpan name id result body rest hbody hahead hconstant horacle
    have hname : id.name ≠ name.name := by
      intro heq
      rw [hbody, aheadNamesOf, Stmt.aheadNames] at hahead
      exact hahead (heq ▸ List.mem_cons_self)
    have hforward : (Forward.collect .empty m.body).get? id.name = none := by
      rw [← NameMap.not_contains_iff, Forward.contains_collect]
      exact fun h => h.elim hahead Bool.false_ne_true
    show _ ∈ ((Check.block ⟨rules, loads, Forward.collect .empty m.body⟩ [] 0 m.body).run {}).2.errors
    rw [hbody]
    exact Check.reports_block (Check.reports_define hname hconstant horacle (hbody ▸ hforward))

/-- A function that returns the target of a later loop. -/
def loopAfterUse : Module :=
  ⟨{}, [.define {} ⟨{}, "f"⟩ [] .hole [.ret {} (.ident ⟨{}, "i"⟩)],
    .forIn {} (.ident ⟨{}, "i"⟩) (.list {} [.int {} 1]) [.pass {}]]⟩

theorem unbound_errors_check_loopAfterUse :
    "i" ∉ aheadNamesOf loopAfterUse.body ∧ Check.constant? "i" = none ∧ Oracle.standard.signature "i" = none ∧
      (TypingError.notInScope "i").located {} ∈ (loopAfterUse.check ⟨.standard, .lint⟩ .empty).errors := by
  have hahead : "i" ∉ aheadNamesOf loopAfterUse.body := by decide
  have horacle : Oracle.standard.signature "i" = none := Option.isNone_iff_eq_none.mp (by decide +kernel)
  refine ⟨hahead, rfl, horacle, ?_⟩
  exact (unbound_errors_check ⟨.standard, .lint⟩ .empty loopAfterUse).2 {} {} ⟨{}, "f"⟩ ⟨{}, "i"⟩ .hole [] _ rfl hahead
    rfl horacle

/-- The target of a loop is bound at the end, and yet the body before the loop was told that it is not. -/
theorem loop_target_unbound_in_body :
    let report := loopAfterUse.check ⟨.standard, .lint⟩ .empty
    report.globals.own.symbols.contains "i" = true ∧
      report.errors.map (fun e => (e.kind, e.param)) = [(.notInScope, "i")] := by
  decide +kernel

end Module

end Gradual
