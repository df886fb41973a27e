import Gradual.Proofs.WalkSteps

/-! The mode `compiler` only silences. Errors are written during a walk and never read, so that two walks in
step stay in states that agree in all but the errors; the quieter one has a part of the other's errors, in
the same order. -/

namespace Gradual

/-- The state with other errors. -/
def State.withErrors (s : State) (errors : List TypingError) : State := { s with errors := errors }

theorem State.exists_report_withErrors (s : State) {errors fewer all : List TypingError}
    (herrors : errors.Sublist s.errors) (hfewer : fewer.Sublist all) :
    ∃ errors', errors'.Sublist (s.report all).errors ∧
      (s.withErrors errors).report fewer = (s.report all).withErrors errors' := by
  by_cases hdead : s.dead = 0
  · have hall : s.report all = { s with errors := s.errors ++ all } := if_pos hdead
    refine ⟨errors ++ fewer, ?_, ?_⟩
    · rw [hall]
      exact herrors.append hfewer
    · rw [hall]
      exact if_pos hdead
  · have hall : s.report all = s := if_neg hdead
    refine ⟨errors, ?_, ?_⟩
    · rw [hall]
      exact herrors
    · rw [hall]
      exact if_neg hdead

namespace Check

variable {α : Type}

/-- The first walk reports some of the errors of the second, in the same order, and else does the same. It
does so from any state, also when errors are missing there already. -/
def Silences (m' m : Check α) : Prop :=
  ∀ (s : State) (errors : List TypingError), errors.Sublist s.errors →
    ∃ errors', errors'.Sublist (m.run s).2.errors ∧
      m'.run (s.withErrors errors) = ((m.run s).1, (m.run s).2.withErrors errors')

theorem silences_modify {f : State → State}
    (hf : ∀ s errors, f (s.withErrors errors) = (f s).withErrors errors)
    (herrors : ∀ s, (f s).errors = s.errors) : Silences (modify f) (modify f) := by
  intro s errors hsub
  refine ⟨errors, ?_, Prod.ext rfl (hf s errors)⟩
  show errors.Sublist (f s).errors
  rw [herrors s]
  exact hsub

theorem InStep.silences {K : StepKinds} [K.SamePlace] {m m' : Check α} (h : InStep K m m')
    (hK : ∀ j' j, K.Judged j' j → j'.Quieter j) : Silences m' m := by
  have hsame : ∀ path path', K.There path path' → path' = path := fun _ _ => StepKinds.SamePlace.eq_there
  induction h with
  | pure a => exact fun s errors hsub => ⟨errors, hsub, rfl⟩
  | bind _ _ ih ihnext =>
      intro s errors hsub
      obtain ⟨errors₁, hsub₁, hrun₁⟩ := ih hK hsame s errors hsub
      obtain ⟨errors₂, hsub₂, hrun₂⟩ := ihnext _ hK hsame _ errors₁ hsub₁
      refine ⟨errors₂, hsub₂, ?_⟩
      rw [StateT.run_bind, hrun₁]
      exact hrun₂
  | look _ ih => exact fun s errors hsub => ih s errors s.approximations s.types hK hsame s errors hsub
  | report e span =>
      intro s errors hsub
      obtain ⟨errors', hsub', hreport⟩ := s.exists_report_withErrors hsub (.refl [e.located span])
      exact ⟨errors', hsub', Prod.ext rfl hreport⟩
  | @settle K j j' hjudged =>
      intro s errors hsub
      have h := hK j' j hjudged
      obtain ⟨errors', hsub', hreport⟩ := s.exists_report_withErrors hsub h.errors
      refine ⟨errors', hsub', Prod.ext h.type ?_⟩
      show ({ ((s.withErrors errors).report j'.errors).approximate j'.approximations with
        isBroken := ((s.withErrors errors).report j'.errors).isBroken || j'.broken } : State) = _
      rw [hreport, h.approximations, h.broken]
      rfl
  | approximate category message span => exact silences_modify (fun _ _ => rfl) fun _ => rfl
  | count f => exact silences_modify (fun _ _ => rfl) fun _ => rfl
  | note _ hthere form span info =>
      rw [hsame _ _ hthere]
      exact silences_modify (fun _ _ => rfl) fun _ => rfl
  | rebind f g _ _ => exact silences_modify (fun _ _ => rfl) fun _ => rfl
  | returned _ info =>
      simp only [returned_eq]
      exact silences_modify (fun _ _ => rfl) fun _ => rfl
  | leaveLoop _ isExit =>
      rw [leaveLoop_eq]
      exact silences_modify (fun _ _ => rfl) fun _ => rfl
  -- Walks with something to be undone at their end: the end of the inner walk decides the end of the outer.
  | @aside _ β _ _ enter _ ih =>
      intro s errors hsub
      obtain ⟨errors', hsub', hrun⟩ := ih hK hsame { s with scope := enter s.scope } errors hsub
      exact ⟨errors', hsub', congrArg (fun r : β × State => (r.1, ({ r.2 with scope := s.scope } : State))) hrun⟩
  | unreached _ ih =>
      intro s errors hsub
      obtain ⟨errors', hsub', hrun⟩ := ih hK hsame { s with dead := s.dead + 1, scope := s.scope.copy } errors hsub
      exact ⟨errors', hsub', congrArg
        (fun r : Unit × State => (r.1, ({ r.2 with dead := r.2.dead - 1, scope := s.scope } : State))) hrun⟩
  | @inLoop _ β _ _ _ ih =>
      intro s errors hsub
      obtain ⟨errors', hsub', hrun⟩ := ih hK hsame { s with loops := {} :: s.loops } errors hsub
      exact ⟨errors', hsub', congrArg
        (fun r : β × State => ((r.1, r.2.loops.head?.getD {}), ({ r.2 with loops := r.2.loops.tail } : State))) hrun⟩
  | @inBody _ β _ _ _ ih =>
      intro s errors hsub
      obtain ⟨errors', hsub', hrun⟩ := ih hK hsame { s with depth := s.depth + 1 } errors hsub
      exact ⟨errors', hsub', congrArg
        (fun r : β × State => (r.1, ({ r.2 with depth := r.2.depth - 1 } : State))) hrun⟩
  | @inFunction _ β _ _ declared _ ih =>
      intro s errors hsub
      obtain ⟨errors', hsub', hrun⟩ := ih hK hsame
        { s with functions := { declared := declared } :: s.functions, depth := s.depth + 1 } errors hsub
      exact ⟨errors', hsub', congrArg (fun r : β × State => ((r.1, r.2.functions.head?.getD {}),
        ({ r.2 with functions := r.2.functions.tail, depth := r.2.depth - 1 } : State))) hrun⟩

end Check

namespace Module

/-- Two checks of a module tell the same in both modes, except that some of the errors of the mode `lint` are
not reported in the mode `compiler`. -/
theorem check_compiler_silences (oracle : Oracle) (loads : NameMap Interface) (m : Module) :
    m.check ⟨oracle, .compiler⟩ loads =
      { m.check ⟨oracle, .lint⟩ loads with errors := (m.check ⟨oracle, .compiler⟩ loads).errors } ∧
    (m.check ⟨oracle, .compiler⟩ loads).errors.Sublist (m.check ⟨oracle, .lint⟩ loads).errors := by
  have hrelated := Rules.related_inMode (r := ⟨oracle, .lint⟩) Mode.compiler_quieter_lint
  have hsteps := Check.inStep_block ⟨⟨oracle, .lint⟩, loads, Forward.collect .empty m.body⟩
    (Check.StepKinds.walks_all hrelated) List.suffix_rfl 0 m.body
  obtain ⟨errors, hsub, hrun⟩ := hsteps.silences (fun _ _ h => h) {} [] (.refl _)
  have hwalked : walked ⟨oracle, .compiler⟩ loads m = (walked ⟨oracle, .lint⟩ loads m).withErrors errors :=
    congrArg Prod.snd hrun
  simp only [check, hwalked]
  exact ⟨rfl, hsub⟩

end Module

end Gradual
