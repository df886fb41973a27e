import Gradual.Oracle.Standard
import Gradual.Proofs.HeldNames

/-! Annotated names at the points of a walk. A point is reached between two statements of a block, after the
statements that come before it in the block and in the blocks around it. Where these neither load a name nor
declare it further inside, the name keeps to its annotation; an annotation in one of these blocks itself makes up
for everything before it. -/

namespace Gradual

/-- Whether the type of a name is below its annotation, if the scope has both. -/
def Scope.keepsTo (s : Scope) (name : Text) : Bool :=
  match s.annotation? name, s.own.symbols.get? name with
  | some t, some b => b.type.subtype t
  | _, _ => true

theorem Frame.Holds.keepsTo {s : Scope} {name : Text} {declared : Option Ty} (h : s.own.Holds name declared) :
    s.keepsTo name = true := by
  unfold Scope.keepsTo
  split
  · next t b ht hb => exact (h.narrows t (h.declares.symm.trans ht) b hb).refines.subtype
  · rfl

namespace Stmt

/-- Whether a statement leaves a name to its annotation: it neither loads nor declares the name, and no function in
it leaves a loop around the function. -/
def leavesHeld (loads : NameMap Interface) (name : Text) (st : Stmt) : Bool :=
  st.exitsInLoops true && !st.has (·.loadsName loads name) && !st.has (·.annotates name)

/-- Whether a name is held after statements, which are listed from the last one back: since one of them declared it,
or else since the first one, all of them leave it held. -/
def heldAfter (loads : NameMap Interface) (name : Text) : List Stmt → Bool
  | [] => true
  | st :: before => st.annotates name || st.leavesHeld loads name && heldAfter loads name before

end Stmt

namespace Check

/-! ### Points of a walk -/

/-- The points that walking a block `stmts` comes to. At a point, the statements `before` it in its function are
those of its block and of the blocks around it, the last one first; the statements that follow in the block are
walked next, from the place given. A point after a statement is reached if the statement came to its end. -/
inductive ReachesPoint (c : Setup) (stmts : List Stmt) :
    (before : List Stmt) → NodePath → Nat → (next : List Stmt) → State → Prop
  | start : ReachesPoint c stmts [] [] 0 stmts {}
  | step {before path i st rest s} : ReachesPoint c stmts before path i (st :: rest) s →
      ((stmt c (i :: path) st).run s).1 = true →
      ReachesPoint c stmts (st :: before) path (i + 1) rest ((stmt c (i :: path) st).run s).2
  | yes {before path i span condition yes no rest s tested y n} :
      ReachesPoint c stmts before path i (.branch span condition yes no :: rest) s →
      BranchWalk c (i :: path) s condition yes no tested y n →
      ReachesPoint c stmts before (1 :: i :: path) 0 yes { tested with scope := narrowed tested condition true }
  | no {before path i span condition yes no rest s tested y n} :
      ReachesPoint c stmts before path i (.branch span condition yes no :: rest) s →
      BranchWalk c (i :: path) s condition yes no tested y n →
      ReachesPoint c stmts before (2 :: i :: path) 0 no { y.2 with scope := narrowed tested condition false }
  | forIn {before path i span target iterable body rest s evaluated bound walked} :
      ReachesPoint c stmts before path i (.forIn span target iterable body :: rest) s →
      ForWalk c (i :: path) s target iterable body evaluated bound walked →
      ReachesPoint c stmts before (2 :: i :: path) 0 body { bound with loops := {} :: bound.loops }
  | whileDo {before path i span condition body rest s tested walked} :
      ReachesPoint c stmts before path i (.whileDo span condition body :: rest) s →
      WhileWalk c (i :: path) s condition body tested walked →
      ReachesPoint c stmts before (1 :: i :: path) 0 body
        { tested with loops := {} :: tested.loops, scope := narrowed tested condition true }
  | define {before path i span name params result body rest s signed outside inside walked} :
      ReachesPoint c stmts before path i (.define span name params result body :: rest) s →
      DefineWalk c (i :: path) s name params result body span signed outside inside walked →
      ReachesPoint c stmts [] (2 :: i :: path) 0 body { inside with
        functions := { declared := declaredResult result } :: inside.functions, depth := inside.depth + 1 }

/-- What holds at every point: the code is live, and the names are held that what comes before leaves held. -/
structure HoldsAt (c : Setup) (before : List Stmt) (s : State) : Prop where
  live : s.dead = 0
  sorted : s.scope.own.IsSorted
  held : ∀ name, Stmt.heldAfter c.loads name before = true → ∃ declared, s.scope.own.Holds name declared

/-! ### Declarations -/

theorem exists_holds_of_annotates (c : Setup) (path : NodePath) {name : Text} {st : Stmt}
    (h : st.annotates name = true) (s : State) :
    ∃ declared, ((stmt c path st).run s).2.scope.own.Holds name declared := by
  cases st with
  | assign span op target type value =>
      cases target with
      | ident id =>
          simp only [Stmt.annotates, Bool.and_eq_true, beq_iff_eq] at h
          obtain ⟨⟨hplain, htype⟩, rfl⟩ := h
          refine ⟨some type.denote, ?_⟩
          show ((assignment c path span op (.ident id) type value).run s).2.scope.own.Holds id.name _
          rw [assignment, if_pos hplain]
          refine of_run_bind (fun r => r.2.scope.own.Holds id.name _) ?_
          dsimp only
          rw [if_pos htype]
          refine of_run_bind (fun r => r.2.scope.own.Holds id.name _) ?_
          rw [assign, scope_bindName]
          refine Scope.holds_hold ?_ ?_ (fun hne => absurd rfl hne) _ _
          · exact (NameMap.get?_insert _ id.name type.denote id.name).trans (if_pos rfl)
          · rintro t ⟨⟩
            exact type.keeps_denote Ty.keptByNames_written
      | _ => cases h
  | _ => cases h

/-! ### Parameters -/

theorem written_of_mem_make {params : List ParamDecl} {result : Ty} {sig : Signature}
    (hsig : (Signature.make (writtenParams params) result).toOption = some sig) {p : Param} (hp : p ∈ sig.params) :
    p.type.Written := by
  rw [Signature.make] at hsig
  split at hsig
  · cases hsig
  · cases hsig
    obtain ⟨q, hq, rfl⟩ := List.mem_map.mp hp
    obtain ⟨decl, -, hdecl⟩ := List.mem_filterMap.mp hq
    cases decl with
    | hole => cases hdecl
    | param span name kind type default =>
        cases hdecl
        show (type.denote.orAny).Written
        rw [Ty.orAny]
        split
        · exact Ty.written_any
        · exact type.keeps_denote Ty.keptByNames_written

theorem written_boundType (params : List ParamDecl) (result : Ty) (name : Text) :
    (boundType (Signature.make (writtenParams params) result).toOption name).Written := by
  generalize hsig : (Signature.make (writtenParams params) result).toOption = sig
  have hfound : ∀ p, (sig.bind fun sig => sig.params.reverse.find? (·.name == name)) = some p → p.type.Written := by
    intro p hp
    obtain ⟨found, hfound, hp⟩ := Option.bind_eq_some_iff.mp hp
    exact written_of_mem_make (hsig.trans hfound) (List.mem_reverse.mp (List.mem_of_find?_eq_some hp))
  unfold boundType
  split
  · next t _ h => exact Ty.invariant_written.container rfl (List.forall_mem_singleton.mpr (hfound _ h))
  · next t _ h =>
    have hkey : Ty.str.Written := Ty.written_atom rfl rfl
    have hparts := List.forall_mem_cons.mpr ⟨hkey, List.forall_mem_singleton.mpr (hfound _ h)⟩
    exact Ty.invariant_written.container rfl hparts
  · next p _ _ h => exact hfound p h
  · exact Ty.written_any

theorem exists_holds_bindParams (path : NodePath) {sig : Option Signature}
    (hsig : ∀ name, (boundType sig name).Written) (name : Text) (i : Nat) (params : List ParamDecl) (s : State)
    (hs : ∃ declared, (∀ t, declared = some t → t = boundType sig name) ∧ s.scope.own.Holds name declared) :
    ∃ declared, ((bindParams path sig i params).run s).2.scope.own.Holds name declared := by
  induction params generalizing i s with
  | nil =>
      obtain ⟨declared, -, hs⟩ := hs
      exact ⟨declared, hs⟩
  | cons p rest ih =>
      cases p with
      | hole => exact ih (i + 1) s hs
      | param span id kind type default =>
          refine ih (i + 1) _ ?_
          obtain ⟨declared, hdeclared, hs⟩ := hs
          show ∃ declared, _ ∧ Frame.Holds name declared (Scope.own (if type.isHole then _ else _))
          by_cases hname : id.name = name
          · subst hname
            cases htype : type.isHole with
            | true =>
                refine ⟨declared, hdeclared, hs.bind false fun _ t ht => ?_⟩
                rw [hdeclared t ht]
                exact .self (hsig id.name)
            | false =>
                refine ⟨some (boundType sig id.name), fun t ht => (Option.some.inj ht).symm, ?_⟩
                refine Frame.Holds.bind_self (f := s.scope.own.annotate id.name (boundType sig id.name)) ?_ ?_ ?_ false
                · exact (NameMap.get?_insert _ id.name _ id.name).trans (if_pos rfl)
                · rintro t ⟨⟩
                  exact hsig id.name
                · exact fun t ht => Option.some.inj ht
          · refine ⟨declared, hdeclared, ?_⟩
            have hbound := hs.bind_other hname (boundType sig id.name) false
            split
            · exact hbound
            · exact hbound.annotate_other hname _

/-! ### Every point -/

section Points

variable {c : Setup} {before : List Stmt} {s : State}

theorem holdsAt_start : HoldsAt c [] {} where
  live := rfl
  sorted := ⟨NameMap.isSorted_empty, NameMap.isSorted_empty⟩
  held _ _ := ⟨none, .of_undeclared rfl⟩

theorem HoldsAt.step (h : HoldsAt c before s) (path : NodePath) (st : Stmt) :
    HoldsAt c (st :: before) ((stmt c path st).run s).2 where
  live := (moves_stmt c path s st).dead.trans h.live
  sorted := (moves_stmt c path s st).sorted h.sorted
  held name hname := by
    rw [Stmt.heldAfter, Bool.or_eq_true] at hname
    rcases hname with hannotates | hname
    · exact exists_holds_of_annotates c path hannotates s
    · simp only [Stmt.leavesHeld, Bool.and_eq_true, Bool.not_eq_true'] at hname
      obtain ⟨⟨⟨hexits, hloads⟩, hannotates⟩, hbefore⟩ := hname
      obtain ⟨declared, hheld⟩ := h.held name hbefore
      exact ⟨declared, (stmtHolds c path true name st hexits hloads hannotates declared s h.live h.sorted hheld).own⟩

theorem HoldsAt.narrowed (h : HoldsAt c before s) {place : NodePath} {tested : State}
    (hmoves : s.Moves (.evaluating place) tested) (s' : State) (hlive : s'.dead = tested.dead) (condition : Expr)
    (holds : Bool) : HoldsAt c before { s' with scope := narrowed tested condition holds } where
  live := hlive.trans (hmoves.dead.trans h.live)
  sorted := isSorted_narrowed (hmoves.sorted h.sorted) condition holds
  held name hname := by
    obtain ⟨declared, hheld⟩ := h.held name hname
    exact ⟨declared, Scope.holds_narrow ((hmoves.spared fun _ hf => hf.spares).holds hheld) condition holds⟩

theorem HoldsAt.forIn (h : HoldsAt c before s) {path : NodePath} {target iterable : Expr} {body : List Stmt}
    {evaluated bound : State} {walked : Bool × State}
    (hwalk : ForWalk c path s target iterable body evaluated bound walked) :
    HoldsAt c before { bound with loops := {} :: bound.loops } where
  live := hwalk.moves_bound.dead.trans (hwalk.moves_evaluated.dead.trans h.live)
  sorted := hwalk.moves_bound.sorted (hwalk.moves_evaluated.sorted h.sorted)
  held name hname := by
    obtain ⟨declared, hheld⟩ := h.held name hname
    exact ⟨declared, hwalk.holds_bound ((hwalk.moves_evaluated.spared fun _ hf => hf.spares).holds hheld)⟩

/-- A function has a scope of its own, in which its parameters are held. -/
theorem holdsAt_define (hlive : s.dead = 0) {path : NodePath} {name : Ident} {params : List ParamDecl}
    {result : TypeExpr} {body : List Stmt} {span : Span} {signed : Option Signature × State} {outside : Scope}
    {inside : State} {walked : Bool × State}
    (hwalk : DefineWalk c path s name params result body span signed outside inside walked) :
    HoldsAt c [] { inside with
      functions := { declared := declaredResult result } :: inside.functions, depth := inside.depth + 1 } where
  live := hwalk.moves_inside.dead.trans (hwalk.moves_signed.dead.trans hlive)
  sorted := hwalk.moves_inside.sorted ⟨NameMap.isSorted_empty, NameMap.isSorted_empty⟩
  held name _ := by
    have hwritten (name : Text) : (boundType signed.1 name).Written :=
      hwalk.signature_eq ▸ written_boundType params _ name
    have hempty : (outside.extend).own.Holds name none := .of_undeclared rfl
    show ∃ declared, inside.scope.own.Holds name declared
    rw [← hwalk.enters]
    exact exists_holds_bindParams (1 :: path) hwritten name 0 params _ ⟨none, fun _ ht => (by cases ht), hempty⟩

end Points

theorem ReachesPoint.holdsAt {c : Setup} {stmts before next : List Stmt} {path : NodePath} {i : Nat} {s : State}
    (h : ReachesPoint c stmts before path i next s) : HoldsAt c before s := by
  induction h with
  | start => exact holdsAt_start
  | step _ _ ih => exact ih.step _ _
  | yes _ hwalk ih => exact ih.narrowed hwalk.moves_tested _ rfl _ true
  | no _ hwalk ih =>
      refine ih.narrowed hwalk.moves_tested _ ?_ _ false
      rw [← hwalk.takes]
      exact (moves_block c _ _ 0 _).dead
  | forIn _ hwalk ih => exact ih.forIn hwalk
  | @whileDo _ _ _ _ condition _ _ _ tested _ _ hwalk ih =>
      exact ih.narrowed hwalk.moves_tested { tested with loops := {} :: tested.loops } rfl condition true
  | define _ hwalk ih => exact holdsAt_define ih.live hwalk

end Check

/-- At every point that the walk of a module reaches, a name keeps to its annotation, unless what comes before the
point in its function has loaded the name, declared it further inside or left a loop from a nested function since the
name was last declared. -/
theorem Module.keepsTo_of_heldAfter (rules : Rules) (loads : NameMap Interface) (m : Module)
    {before next : List Stmt} {path : NodePath} {i : Nat} {s : State}
    (h : Check.ReachesPoint ⟨rules, loads, Forward.collect .empty m.body⟩ m.body before path i next s) {name : Text}
    (hname : Stmt.heldAfter loads name before = true) : s.scope.keepsTo name = true := by
  obtain ⟨declared, hheld⟩ := h.holdsAt.held name hname
  exact hheld.keepsTo

/-- The setup of a module that is checked by the standard rules. -/
def Module.standardSetup (loads : NameMap Interface) (m : Module) : Setup :=
  ⟨⟨.standard, .lint⟩, loads, Forward.collect .empty m.body⟩

/-- An annotated name is assigned and then tested: `x: int | None = None`, `x = 1` and `if x == None: pass`. -/
def Module.testsAnnotated : Module :=
  ⟨{}, [.assign {} "=" (.ident ⟨{}, "x"⟩) (.union {} [.simple {} ⟨{}, "int"⟩, .simple {} ⟨{}, "None"⟩]) (.none {}),
    .assign {} "=" (.ident ⟨{}, "x"⟩) .hole (.int {} 1),
    .branch {} (.binary {} "==" (.ident ⟨{}, "x"⟩) (.none {})) [.pass {}] []]⟩

/-- In the branch, the annotated name is narrowed below its annotation. -/
theorem Module.keepsTo_of_heldAfter_testsAnnotated :
    ∃ before path s,
      Check.ReachesPoint (standardSetup .empty testsAnnotated) testsAnnotated.body before path 0 [.pass {}] s ∧
      Stmt.heldAfter .empty "x" before = true ∧ (s.scope.annotation? "x").map (·.text) = some "None | int" ∧
      (s.scope.own.symbols.get? "x").map (·.type.text) = some "None" ∧ s.scope.keepsTo "x" = true := by
  have hstart : Check.ReachesPoint (standardSetup .empty testsAnnotated) testsAnnotated.body [] [] 0
    testsAnnotated.body {} := .start
  have hassigned := (hstart.step (by decide +kernel)).step (by decide +kernel)
  have htested := Check.ReachesPoint.yes hassigned ⟨rfl, rfl, rfl, fun _ => rfl⟩
  exact ⟨_, _, _, htested, by decide +kernel, by decide +kernel, by decide +kernel,
    keepsTo_of_heldAfter ⟨.standard, .lint⟩ .empty testsAnnotated htested (by decide +kernel)⟩

/-- An annotation on one branch, and a load of an annotated name: `if True: x: int = 1`, `else: x = "a"`, `a = x`,
`z: int = 1`, `load("m", "z")` and `b = z`. -/
def Module.branchesAndLoads : Module :=
  ⟨{}, [.branch {} (.bool {} true) [.assign {} "=" (.ident ⟨{}, "x"⟩) (.simple {} ⟨{}, "int"⟩) (.int {} 1)]
      [.assign {} "=" (.ident ⟨{}, "x"⟩) .hole (.str {} "a")],
    .assign {} "=" (.ident ⟨{}, "a"⟩) .hole (.ident ⟨{}, "x"⟩),
    .assign {} "=" (.ident ⟨{}, "z"⟩) (.simple {} ⟨{}, "int"⟩) (.int {} 1),
    .load {} "m" [.symbol {} none "z"],
    .assign {} "=" (.ident ⟨{}, "b"⟩) .hole (.ident ⟨{}, "z"⟩)]⟩

/-- A break in a function inside of a loop: `x: int = 1`, `for i in [1]: def f(x: str): break` and `pass`. -/
def Module.breaksInFunction : Module :=
  ⟨{}, [.assign {} "=" (.ident ⟨{}, "x"⟩) (.simple {} ⟨{}, "int"⟩) (.int {} 1),
    .forIn {} (.ident ⟨{}, "i"⟩) (.list {} [.int {} 1])
      [.define {} ⟨{}, "f"⟩ [.param {} ⟨{}, "x"⟩ "positional" (.simple {} ⟨{}, "str"⟩) .hole] .hole [.exit {}]],
    .pass {}]⟩

/-- The three ways for a name to leave its annotation. The first statement of a module brings together a branch that
annotates a name and one that does not; the fourth loads an annotated name; and the entries of a function come
together with those of the loop around it. -/
theorem Module.keepsTo_fails :
    let loads : NameMap Interface := .ofList [("m", ⟨.ofList [("z", .str)]⟩)]
    (∃ before next s,
      Check.ReachesPoint (standardSetup loads branchesAndLoads) branchesAndLoads.body before [] 1 next s ∧
        s.scope.keepsTo "x" = false) ∧
    (∃ before next s,
      Check.ReachesPoint (standardSetup loads branchesAndLoads) branchesAndLoads.body before [] 4 next s ∧
        s.scope.keepsTo "z" = false) ∧
    ∃ before next s,
      Check.ReachesPoint (standardSetup loads breaksInFunction) breaksInFunction.body before [] 2 next s ∧
        s.scope.keepsTo "x" = false := by
  intro loads
  have hstart (m : Module) : Check.ReachesPoint (standardSetup loads m) m.body [] [] 0 m.body {} := .start
  have hbranch := (hstart branchesAndLoads).step (by decide +kernel)
  have hload := ((hbranch.step (by decide +kernel)).step (by decide +kernel)).step (by decide +kernel)
  have hloop := ((hstart breaksInFunction).step (by decide +kernel)).step (by decide +kernel)
  exact ⟨⟨_, _, _, hbranch, by decide +kernel⟩, ⟨_, _, _, hload, by decide +kernel⟩, _, _, _, hloop, by decide +kernel⟩

end Gradual
