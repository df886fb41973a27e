import Gradual.Proofs.WalkSteps

/-! Code that is not reached is inert. It is walked like any other, with `dead` counted up. The walk leaves
no trace but the types of its nodes, and these are all `Never`. -/

namespace Gradual

/-- What a walk through dead code may do to the state: it changes own entries of the scope it is in and notes
types that are `Never`. Frames of loops and functions stay with all that they have collected. -/
structure State.Inert (s s' : State) : Prop where
  outer : s'.scope.outer = s.scope.outer
  errors : s'.errors = s.errors
  approximations : s'.approximations = s.approximations
  dead : s'.dead = s.dead
  loops : s'.loops = s.loops
  functions : s'.functions = s.functions
  depth : s'.depth = s.depth
  notes : ∃ notes, s'.types.notes = notes ++ s.types.notes ∧ ∀ n ∈ notes, n.info = ⟨.never, false⟩

namespace State.Inert

variable {s s' s'' : State}

theorem of_same_types (houter : s'.scope.outer = s.scope.outer) (herrors : s'.errors = s.errors)
    (happrox : s'.approximations = s.approximations) (hdead : s'.dead = s.dead) (hloops : s'.loops = s.loops)
    (hfunctions : s'.functions = s.functions) (hdepth : s'.depth = s.depth) (htypes : s'.types = s.types) :
    s.Inert s' :=
  ⟨houter, herrors, happrox, hdead, hloops, hfunctions, hdepth, [], congrArg TypeMap.notes htypes, by simp⟩

theorem refl (s : State) : s.Inert s := of_same_types rfl rfl rfl rfl rfl rfl rfl rfl

theorem trans (h : s.Inert s') (h' : s'.Inert s'') : s.Inert s'' where
  outer := h'.outer.trans h.outer
  errors := h'.errors.trans h.errors
  approximations := h'.approximations.trans h.approximations
  dead := h'.dead.trans h.dead
  loops := h'.loops.trans h.loops
  functions := h'.functions.trans h.functions
  depth := h'.depth.trans h.depth
  notes := by
    obtain ⟨notes, hnotes, hnever⟩ := h.notes
    obtain ⟨notes', hnotes', hnever'⟩ := h'.notes
    refine ⟨notes' ++ notes, ?_, ?_⟩
    · rw [hnotes', hnotes, List.append_assoc]
    · intro n hn
      exact (List.mem_append.mp hn).elim (hnever' n) (hnever n)

end State.Inert

namespace State

variable {s : State} (hdead : s.dead ≠ 0)
include hdead

theorem inert_report (errors : List TypingError) : s.Inert (s.report errors) := by
  rw [report, if_neg hdead]
  exact .refl s

theorem inert_approximate (approximations : List Approximation) : s.Inert (s.approximate approximations) :=
  .of_same_types rfl rfl (if_neg hdead) rfl rfl rfl rfl rfl

theorem inert_note (path : NodePath) (form : Text) (span : Span) (info : TypeInfo) :
    s.Inert (s.note path form span info) := by
  refine ⟨rfl, rfl, rfl, rfl, rfl, rfl, rfl, [⟨path, form, span, ⟨.never, false⟩⟩], ?_, by simp⟩
  show (s.types.insert _).notes = _
  rw [if_neg hdead]
  rfl

end State

namespace Check

theorem inert_unreached_of {walk : Check Unit} {s : State}
    (h : State.Inert { s with dead := s.dead + 1, scope := s.scope.copy }
      (walk.run { s with dead := s.dead + 1, scope := s.scope.copy }).2) :
    s.Inert ((unreached walk).run s).2 :=
  ⟨rfl, h.errors, h.approximations, congrArg Nat.pred h.dead, h.loops, h.functions, h.depth, h.notes⟩

/-- What one walk of two in step does to a state in dead code. -/
theorem InStep.inert {K : StepKinds} {α : Type} {m m' : Check α} (h : InStep K m m') :
    ∀ s : State, s.dead ≠ 0 → s.Inert (m.run s).2 := by
  induction h with
  | pure a => exact fun s _ => .refl s
  | bind _ _ ih ihnext =>
      intro s hdead
      have hfirst := ih s hdead
      exact hfirst.trans (ihnext _ _ (hfirst.dead ▸ hdead))
  | look _ ih => exact fun s hdead => ih s s.errors s.approximations s.types s hdead
  | report e span => exact fun s hdead => State.inert_report hdead _
  | approximate category message span => exact fun s hdead => State.inert_approximate hdead _
  | @settle _ j _ _ =>
      intro s hdead
      have hreport := State.inert_report hdead j.errors
      have happrox := State.inert_approximate (hreport.dead ▸ hdead) j.approximations
      exact (hreport.trans happrox).trans (.of_same_types rfl rfl rfl rfl rfl rfl rfl rfl)
  | count f => exact fun s _ => .of_same_types rfl rfl rfl rfl rfl rfl rfl rfl
  | note _ _ form span info => exact fun s hdead => State.inert_note hdead _ form span info
  | rebind f g hf _ => exact fun s _ => .of_same_types (hf.outer s.scope) rfl rfl rfl rfl rfl rfl rfl
  | returned _ info =>
      intro s hdead
      simp only [returned_eq]
      exact .of_same_types rfl rfl rfl rfl rfl (if_neg hdead) rfl rfl
  | leaveLoop _ isExit =>
      intro s hdead
      rw [leaveLoop_eq]
      exact .of_same_types rfl rfl rfl rfl (if_neg hdead) rfl rfl rfl
  -- Where the inner walk begins with a change, its end undoes just that.
  | aside enter _ ih =>
      intro s hdead
      have hinner := ih { s with scope := enter s.scope } hdead
      exact ⟨rfl, hinner.errors, hinner.approximations, hinner.dead, hinner.loops, hinner.functions, hinner.depth,
        hinner.notes⟩
  | unreached _ ih => exact fun s _ => inert_unreached_of (ih _ (Nat.succ_ne_zero _))
  | inLoop _ ih =>
      intro s hdead
      have hinner := ih { s with loops := {} :: s.loops } hdead
      exact ⟨hinner.outer, hinner.errors, hinner.approximations, hinner.dead, congrArg List.tail hinner.loops,
        hinner.functions, hinner.depth, hinner.notes⟩
  | inBody _ ih =>
      intro s hdead
      have hinner := ih { s with depth := s.depth + 1 } hdead
      exact ⟨hinner.outer, hinner.errors, hinner.approximations, hinner.dead, hinner.loops, hinner.functions,
        congrArg Nat.pred hinner.depth, hinner.notes⟩
  | inFunction declared _ ih =>
      intro s hdead
      have hinner := ih
        { s with functions := { declared := declared } :: s.functions, depth := s.depth + 1 } hdead
      exact ⟨hinner.outer, hinner.errors, hinner.approximations, hinner.dead, hinner.loops,
        congrArg List.tail hinner.functions, congrArg Nat.pred hinner.depth, hinner.notes⟩

/-- Walking statements that are not reached, from any state: the scope is as before, and so are the scopes
around it at the end of the walk, before the copy of the scope is left. -/
theorem inert_unreached (c : Setup) (path : NodePath) (i : Nat) (stmts : List Stmt) (s : State) :
    s.Inert ((unreached (deadBlock c path i stmts)).run s).2 ∧
    ((unreached (deadBlock c path i stmts)).run s).2.scope = s.scope ∧
    ((deadBlock c path i stmts).run { s with dead := s.dead + 1, scope := s.scope.copy }).2.scope.outer =
      s.scope.outer := by
  have hself := c.rules.related_self (R := Eq) fun _ => rfl
  have hpath : [] <:+ path := List.nil_suffix
  have hinner := (inStep_deadBlock c (StepKinds.walks_all hself) hpath i stmts).inert
    { s with dead := s.dead + 1, scope := s.scope.copy } (Nat.succ_ne_zero _)
  exact ⟨inert_unreached_of hinner, rfl, hinner.outer⟩

end Check

end Gradual
