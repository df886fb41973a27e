import Gradual.Proofs.Liveness
import Gradual.Proofs.Narrowing
import Gradual.Proofs.Refinement

/-! Names that are held to an annotation. Assigning to such a name binds it to the annotation, and conditions
narrow it to types that refine the annotation; where branches come together, the union of what they know refines
it as well. Two things are not held to annotations: what is loaded, and names that are declared on one branch
only. -/

namespace Gradual

/-! ### Frames -/

/-- A frame declares a name to keep to a type, or declares nothing of it, and binds it to a type that narrows the
declared one. -/
structure Frame.Holds (name : Text) (declared : Option Ty) (f : Frame) : Prop where
  declares : f.annotations.get? name = declared
  written : ∀ t, declared = some t → t.Written
  narrows : ∀ t, declared = some t → ∀ b, f.symbols.get? name = some b → b.type.Narrows t

namespace Frame.Holds

variable {name : Text} {declared : Option Ty} {f : Frame}

theorem of_undeclared (h : f.annotations.get? name = none) : f.Holds name none :=
  ⟨h, fun _ ht => (by cases ht), fun _ ht => by cases ht⟩

theorem bind (h : f.Holds name declared) {n : Text} {type : Ty} (isApproximate : Bool)
    (hbound : n = name → ∀ t, declared = some t → type.Narrows t) :
    (f.bind n type isApproximate).Holds name declared where
  declares := h.declares
  written := h.written
  narrows t ht b hb := by
    have hget := (NameMap.get?_insert f.symbols n ⟨type, isApproximate⟩ name).symm.trans hb
    by_cases heq : name = n
    · rw [if_pos heq] at hget
      cases hget
      exact hbound heq.symm t ht
    · rw [if_neg heq] at hget
      exact h.narrows t ht b hget

theorem bind_self (hdeclares : f.annotations.get? name = declared) (hwritten : ∀ t, declared = some t → t.Written)
    {type : Ty} (htype : ∀ t, declared = some t → type = t) (isApproximate : Bool) :
    (f.bind name type isApproximate).Holds name declared where
  declares := hdeclares
  written := hwritten
  narrows t ht b hb := by
    rw [Frame.bind, NameMap.get?_insert, if_pos rfl] at hb
    cases hb
    cases htype t ht
    exact .self (hwritten type ht)

theorem bind_other (h : f.Holds name declared) {n : Text} (hne : n ≠ name) (type : Ty) (isApproximate : Bool) :
    (f.bind n type isApproximate).Holds name declared :=
  h.bind isApproximate fun heq => absurd heq hne

theorem annotate_other (h : f.Holds name declared) {n : Text} (hne : n ≠ name) (type : Ty) :
    (f.annotate n type).Holds name declared :=
  ⟨(NameMap.get?_insert f.annotations n type name).trans ((if_neg hne.symm).trans h.declares), h.written, h.narrows⟩

end Frame.Holds

/-! ### Branches that come together -/

theorem NameMap.get?_foldl_insert {α : Type} {name : Text} {value : Option α} {m : NameMap α}
    {entries : List (Text × α)} (hm : m.get? name = value) (h : ∀ e ∈ entries, e.1 = name → value = some e.2) :
    (entries.foldl (fun m e => m.insert e.1 e.2) m).get? name = value := by
  refine List.foldlRecOn (motive := fun m : NameMap α => m.get? name = value) entries _ hm fun m hm e he => ?_
  rw [NameMap.get?_insert]
  split
  · next heq => exact (h e he heq.symm).symm
  · exact hm

namespace Frame

variable {name : Text} {declared : Option Ty}

theorem narrows_joinEntry {t : Ty} {symbols : NameMap Binding} {n : Text} {b : Binding}
    (hsymbols : ∀ b, symbols.get? name = some b → b.type.Narrows t) (hb : n = name → b.type.Narrows t) :
    ∀ b', (joinEntry symbols n b).get? name = some b' → b'.type.Narrows t := by
  intro b' hb'
  rw [joinEntry] at hb'
  split at hb'
  · next old hold =>
    rw [NameMap.get?_insert] at hb'
    split at hb'
    · next heq =>
      cases hb'
      exact (hsymbols old (heq ▸ hold)).union₂ (hb heq.symm)
    · exact hsymbols b' hb'
  · rw [NameMap.get?_insert] at hb'
    split at hb'
    · next heq =>
      cases hb'
      exact .union (List.forall_mem_singleton.mpr (hb heq.symm))
    · exact hsymbols b' hb'

theorem Holds.merge {f : Frame} (h : f.Holds name declared) {branches : List Frame}
    (hbranches : ∀ b ∈ branches, b.IsSorted ∧ b.Holds name declared) : (f.merge branches).Holds name declared := by
  rw [Frame.merge]
  split
  · exact h
  · refine ⟨?_, h.written, fun t ht => ?_⟩
    · refine List.foldlRecOn (motive := fun a : NameMap Ty => a.get? name = declared) branches _ h.declares
        fun annotations hannotations b hb => NameMap.get?_foldl_insert hannotations fun e he heq => ?_
      have hget := (hbranches b hb).1.annotations.get?_of_mem he
      rwa [heq, (hbranches b hb).2.declares] at hget
    · refine List.foldlRecOn (motive := fun s : NameMap Binding => ∀ b, s.get? name = some b → b.type.Narrows t)
        branches _ (fun _ hb => by cases hb) fun joined hjoined f hf => ?_
      refine List.foldlRecOn (motive := fun s : NameMap Binding => ∀ b, s.get? name = some b → b.type.Narrows t)
        f.symbols.entries _ hjoined fun symbols hsymbols e he => narrows_joinEntry hsymbols fun heq => ?_
      have hget := (hbranches f hf).1.symbols.get?_of_mem he
      exact (hbranches f hf).2.narrows t ht e.2 (heq ▸ hget)

end Frame

/-! ### Changes of a scope -/

namespace Scope

variable {name : Text} {declared : Option Ty} {s s' : Scope}

theorem SparesAnnotated.holds (hspares : s.SparesAnnotated s') (h : s.own.Holds name declared) :
    s'.own.Holds name declared where
  declares := (congrArg (·.get? name) hspares.annotations).trans h.declares
  written := h.written
  narrows t ht b hb := by
    have hannotated : (s.annotation? name).isSome = true := by
      rw [Scope.annotation?, h.declares, ht]
      rfl
    exact h.narrows t ht b ((hspares.symbols name hannotated).symm.trans hb)

theorem holds_hold (hdeclares : s.own.annotations.get? name = declared)
    (hwritten : ∀ t, declared = some t → t.Written) {n : Text} (hother : n ≠ name → s.own.Holds name declared)
    (type : Ty) (isApproximate : Bool) : (s.hold n type isApproximate).own.Holds name declared := by
  by_cases hn : n = name
  · subst hn
    rw [Scope.hold, Scope.annotation?, hdeclares]
    cases declared with
    | none => exact .bind_self hdeclares hwritten (fun _ ht => by cases ht) isApproximate
    | some t =>
        refine .bind_self hdeclares hwritten (fun t' ht => ?_) false
        cases ht
        rfl
  · rw [Scope.hold]
    split
    · exact (hother hn).bind_other hn _ false
    · exact (hother hn).bind_other hn type isApproximate

theorem holds_hold_of_holds (h : s.own.Holds name declared) (n : Text) (type : Ty) (isApproximate : Bool) :
    (s.hold n type isApproximate).own.Holds name declared :=
  holds_hold h.declares h.written (fun _ => h) type isApproximate

end Scope

/-! ### Conditions -/

/-- What a condition says about a name narrows a type. -/
structure NameFact.Narrows (t : Ty) (f : NameFact) : Prop where
  current : f.current.Narrows t
  yes : f.yes.Narrows t
  no : f.no.Narrows t

namespace NameFact

variable {t : Ty} {name : Text} {f g : NameFact}

theorem Narrows.negate (h : f.Narrows t) : f.negate.Narrows t := ⟨h.current, h.no, h.yes⟩

theorem Narrows.weaken (h : f.Narrows t) (conjunction : Bool) : (f.weaken conjunction).Narrows t := by
  cases conjunction with
  | true => exact ⟨h.current, h.yes, h.no.union₂ h.current⟩
  | false => exact ⟨h.current, h.yes.union₂ h.current, h.no⟩

theorem Narrows.combine (hf : f.Narrows t) (hg : g.Narrows t) (conjunction : Bool) :
    (combine conjunction f g).Narrows t := by
  cases conjunction with
  | true => exact ⟨hf.current, hf.yes.meet hg.yes.written, hf.no.union₂ hg.no⟩
  | false => exact ⟨hf.current, hf.yes.union₂ hg.yes, hf.no.meet hg.no.written⟩

theorem name_weaken (conjunction : Bool) (f : NameFact) : (f.weaken conjunction).name = f.name := by
  cases conjunction <;> rfl

theorem name_combine (conjunction : Bool) (f g : NameFact) : (combine conjunction f g).name = f.name := by
  cases conjunction <;> rfl

/-- What a list of facts says about a name narrows a type. -/
def AllNarrow (name : Text) (t : Ty) (facts : List NameFact) : Prop := ∀ f ∈ facts, f.name = name → f.Narrows t

theorem AllNarrow.combineAll {left right : List NameFact} (hleft : AllNarrow name t left)
    (hright : AllNarrow name t right) (conjunction : Bool) : AllNarrow name t (combineAll conjunction left right) := by
  intro f hf hname
  rcases List.mem_append.mp hf with hf | hf
  · obtain ⟨g, hg, rfl⟩ := List.mem_map.mp hf
    cases hfind : right.find? (·.name == g.name) with
    | some g' =>
        rw [hfind] at hname
        have hname : g.name = name := (name_combine conjunction g g').symm.trans hname
        have hfound := List.find?_some hfind
        have hname' : g'.name = name := (eq_of_beq hfound).trans hname
        exact (hleft g hg hname).combine (hright g' (List.mem_of_find?_eq_some hfind) hname') conjunction
    | none =>
        rw [hfind] at hname
        exact (hleft g hg ((name_weaken conjunction g).symm.trans hname)).weaken conjunction
  · obtain ⟨g, hg, rfl⟩ := List.mem_map.mp hf
    rw [name_weaken] at hname
    exact (hright g (List.mem_filter.mp hg).1 hname).weaken conjunction

variable {s : Scope}

theorem narrows_narrowTo (hs : ∀ b, s.resolve? name = some b → b.type.Narrows t) {n : Text} {target : Ty}
    (htarget : target.Written) (hf : narrowTo s n target = some f) (hname : f.name = name) : f.Narrows t := by
  obtain ⟨b, hb, rfl⟩ := Option.map_eq_some_iff.mp hf
  cases hname
  exact ⟨hs b hb, (hs b hb).meet htarget, (hs b hb).filter _⟩

theorem narrows_ofComparison (hs : ∀ b, s.resolve? name = some b → b.type.Narrows t) {subject other : Expr}
    (hf : ofComparison s subject other = some f) (hname : f.name = name) : f.Narrows t := by
  have htarget (typeName : Text) : (Ty.ofName typeName [] false).Written :=
    Ty.written_ofName typeName (List.forall_mem_nil _) false
  unfold ofComparison at hf
  split at hf
  · split at hf
    · split at hf
      · exact narrows_narrowTo hs (htarget _) hf hname
      · cases hf
    · cases hf
  · split at hf
    · exact narrows_narrowTo hs (htarget "None") hf hname
    · cases hf
  · cases hf

theorem allNarrow_ofCondition (hs : ∀ b, s.resolve? name = some b → b.type.Narrows t) (e : Expr) :
    AllNarrow name t (ofCondition s e) := by
  fun_induction ofCondition s e with
  | case1 span operand ih =>
      intro f hf hname
      obtain ⟨g, hg, rfl⟩ := List.mem_map.mp hf
      exact (ih g hg hname).negate
  | case3 span left right ihl ihr => exact ihl.combineAll ihr true
  | case4 span left right hne ihl ihr => exact ihl.combineAll ihr false
  | case5 span op left right hand hor hop g hg =>
      intro f hf hname
      cases List.mem_singleton.mp hf
      have hnarrows : g.name = name → g.Narrows t := by
        intro hname
        cases hleft : ofComparison s left right with
        | some f =>
            rw [hleft] at hg
            cases hg
            exact narrows_ofComparison hs hleft hname
        | none =>
            rw [hleft] at hg
            exact narrows_ofComparison hs hg hname
      by_cases hnegated : op = "!="
      · rw [if_pos hnegated] at hname ⊢
        exact (hnarrows hname).negate
      · rw [if_neg hnegated] at hname ⊢
        exact hnarrows hname
  | case8 id b hb =>
      intro f hf hname
      cases List.mem_singleton.mp hf
      cases hname
      exact ⟨hs b hb, (hs b hb).filter _, hs b hb⟩
  -- Everything else says nothing.
  | case2 | case6 | case7 | case9 | case10 => exact fun f hf => by cases hf

end NameFact

namespace Scope

variable {name : Text} {declared : Option Ty}

theorem holds_narrow {s : Scope} (h : s.own.Holds name declared) (condition : Expr) (holds : Bool) :
    (s.copy.narrow (NameFact.ofCondition s condition) holds false).own.Holds name declared := by
  -- Narrowing binds names only that were bound before, and then the facts are about that binding.
  have hfacts : ∀ b, s.own.symbols.get? name = some b → ∀ t, declared = some t →
      NameFact.AllNarrow name t (NameFact.ofCondition s condition) := by
    intro b hb t ht
    refine NameFact.allNarrow_ofCondition (fun b' hb' => ?_) condition
    rw [resolve?, frames, List.findSome?_cons, hb] at hb'
    cases hb'
    exact h.narrows t ht b hb
  have hinitial : (s.copy.hasLocal name = true → s.hasLocal name = true) ∧ s.copy.own.Holds name declared := ⟨id, h⟩
  rw [Scope.narrow]
  refine (List.foldlRecOn (motive := fun s' : Scope => (s'.hasLocal name = true → s.hasLocal name = true) ∧
    s'.own.Holds name declared) (NameFact.ofCondition s condition) _ hinitial fun s' hs' f hf => ?_).2
  rw [Bool.false_or]
  by_cases hlocal : s'.hasLocal f.name = true
  · rw [if_pos hlocal]
    have hbound : f.name = name → s.hasLocal name = true := fun heq => hs'.1 (heq ▸ hlocal)
    refine ⟨fun hlocal' => ?_, hs'.2.bind _ fun heq t ht => ?_⟩
    · by_cases heq : f.name = name
      · exact hbound heq
      · rw [Scope.hasLocal, NameMap.contains, Scope.retype, Scope.bind, Frame.bind, NameMap.get?_insert,
          if_neg (Ne.symm heq)] at hlocal'
        exact hs'.1 hlocal'
    · obtain ⟨b, hb⟩ := Option.isSome_iff_exists.mp (hbound heq)
      have hnarrows := hfacts b hb t ht f hf heq
      cases holds with
      | true => exact hnarrows.yes
      | false => exact hnarrows.no
  · rw [if_neg hlocal]
    exact hs'

end Scope

/-! ### Where names are declared and loaded -/

/-- Whether a loaded symbol binds a name. -/
def LoadSymbol.binds (source : Option Interface) (name : Text) : LoadSymbol → Bool
  | .hole => false
  | .symbol _ here exported =>
    if exported = "*" then source.any fun i => i.exports.entries.any (·.1 == name)
    else (here.getD ⟨{}, exported⟩).name == name

namespace Stmt

/-- Whether a statement declares the type that a name keeps to. -/
def annotates (name : Text) : Stmt → Bool
  | .assign _ op (.ident id) declared _ => assignedOperator op == "" && !declared.isHole && id.name == name
  | _ => false

/-- Whether a statement loads a name. -/
def loadsName (loads : NameMap Interface) (name : Text) : Stmt → Bool
  | .load _ module symbols => symbols.any (·.binds (loads.get? module) name)
  | _ => false

mutual

/-- Whether a statement has a property, or one in its blocks has it. The body of a function is not one of its
blocks. -/
def has (p : Stmt → Bool) : Stmt → Bool
  | .branch _ _ yes no => anyHas p yes || anyHas p no
  | .forIn _ _ _ body | .whileDo _ _ body => anyHas p body
  | s => p s

/-- Whether a statement of a block has a property, or one in its blocks has it. -/
def anyHas (p : Stmt → Bool) : List Stmt → Bool
  | [] => false
  | s :: rest => s.has p || anyHas p rest

end

end Stmt

namespace Check

/-- What walks do that keep a name held. -/
def StepKinds.holding (name : Text) (declared : Option Ty) (place : NodePath) : StepKinds where
  Judged := Eq
  Noted := (place <:+ ·)
  Rebound f := ∀ s : Scope, s.own.Holds name declared → (f s).own.Holds name declared
  Leaves := False

theorem StepKinds.assigns_holding (name : Text) (declared : Option Ty) (place : NodePath) (r : Rules) :
    (holding name declared place).Assigns place place r r where
  judged := r.related_self fun _ => rfl
  noted := id
  there := Alongside.eq
  rebound hf s h := (hf s).sparesAnnotated.holds h
  stores hf s h := (hf s).holds h
  holds n type isApproximate _ h := Scope.holds_hold_of_holds h n type isApproximate

/-- All frames are in order and hold a name. -/
def AllHold (name : Text) (declared : Option Ty) (exits nexts : List Frame) : Prop :=
  ∀ f ∈ exits ++ nexts, f.IsSorted ∧ f.Holds name declared

/-- A walk keeps a name held in the scope it is in, and in what it leaves the innermost loop with. -/
structure KeepsHeld (name : Text) (declared : Option Ty) (s s' : State) : Prop where
  own : s'.scope.own.Holds name declared
  loops : LoopFrame.Gains (AllHold name declared) s.loops s'.loops

variable {name : Text} {declared : Option Ty}

theorem allHold_nil : AllHold name declared [] [] := List.forall_mem_nil _

theorem AllHold.append {exits nexts exits' nexts' : List Frame} (h : AllHold name declared exits nexts)
    (h' : AllHold name declared exits' nexts') : AllHold name declared (exits ++ exits') (nexts ++ nexts') := by
  intro f hf
  rcases List.mem_append.mp hf with hf | hf
  · rcases List.mem_append.mp hf with hf | hf
    · exact h f (List.mem_append_left nexts hf)
    · exact h' f (List.mem_append_left nexts' hf)
  · rcases List.mem_append.mp hf with hf | hf
    · exact h f (List.mem_append_right exits hf)
    · exact h' f (List.mem_append_right exits' hf)

theorem KeepsHeld.of_same_loops {s s' : State} (hown : s'.scope.own.Holds name declared) (hloops : s'.loops = s.loops) :
    KeepsHeld name declared s s' := by
  refine ⟨hown, ?_⟩
  rw [hloops]
  exact LoopFrame.gains_self allHold_nil s.loops

/-- A statement that is reached keeps a name held. -/
def StmtHolds (c : Setup) (path : NodePath) (name : Text) (st : Stmt) : Prop :=
  ∀ (declared : Option Ty) (s : State), s.dead = 0 → s.scope.own.IsSorted → s.scope.own.Holds name declared →
    KeepsHeld name declared s ((stmt c path st).run s).2

/-- A block that is reached keeps a name held. -/
def BlockHolds (c : Setup) (path : NodePath) (i : Nat) (name : Text) (stmts : List Stmt) : Prop :=
  ∀ (declared : Option Ty) (s : State), s.dead = 0 → s.scope.own.IsSorted → s.scope.own.Holds name declared →
    KeepsHeld name declared s ((block c path i stmts).run s).2

section Statements

variable (c : Setup) {path : NodePath} {name : Text} {declared : Option Ty} {s : State} {body : List Stmt}

theorem stmtHolds_expr (e : Expr) : StmtHolds c path name (.expr e) := by
  intro declared s _ _ h
  have hmoves := moves_expr c path s e
  exact .of_same_loops ((hmoves.spared fun _ hf => hf.spares).holds h) (hmoves.loops id)

theorem stmtHolds_assign (span : Span) (op : Text) (target : Expr) (type : TypeExpr) (value : Expr)
    (hannotates : Stmt.annotates name (.assign span op target type value) = false) :
    StmtHolds c path name (.assign span op target type value) := by
  intro declared s _ _ h
  have hmoves := (inStep_assignment c .self (StepKinds.assigns_holding name declared path c.rules) span op
    target type value fun hplain htype id htarget => ?_).moves s
  · exact .of_same_loops (hmoves.kept (·.own.Holds name declared) (fun _ _ hf => hf) h) (hmoves.loops id)
  · subst htarget
    intro s hs
    refine hs.annotate_other (fun heq => ?_) type.denote
    rw [Stmt.annotates, hplain, htype, heq] at hannotates
    simp at hannotates

theorem stmtHolds_ret (span : Span) (value : Expr) : StmtHolds c path name (.ret span value) := by
  intro declared s _ _ h
  obtain ⟨errors, hrun⟩ := exists_run_returnStmt c path span value s
  have hmoves := moves_expr c (0 :: path) s value
  have hreport := State.moves_report (.evaluating (0 :: path)) ((expr c (0 :: path) value).run s).2 errors
  have hstmt : ((stmt c path (.ret span value)).run s).2 = ((returnStmt c path span value).run s).2 := rfl
  rw [returned_eq] at hrun
  rw [hstmt, hrun]
  refine .of_same_loops ?_ ((hreport.loops id).trans (hmoves.loops id))
  exact ((hmoves.trans hreport).spared fun _ hf => hf.spares).holds h

theorem stmtHolds_leaving {st : Stmt} (isExit : Bool)
    (hst : ∀ s, ((stmt c path st).run s).2 = ((leaveLoop isExit).run s).2) : StmtHolds c path name st := by
  intro declared s hlive hsorted h
  rw [hst]
  refine ⟨?_, gains_leaveLoop hlive isExit ?_⟩
  · rw [leaveLoop_eq]
    exact h
  · cases isExit <;> exact List.forall_mem_singleton.mpr ⟨hsorted, h⟩

theorem holds_bindExports {i : Interface} (hexports : i.exports.entries.any (·.1 == name) = false)
    (h : s.scope.own.Holds name declared) : ((bindExports i).run s).2.scope.own.Holds name declared := by
  refine List.foldlRecOn (motive := fun s : Scope => s.own.Holds name declared) i.exports.entries _ h
    fun s hs e he => hs.bind_other ?_ e.2 false
  exact ne_of_beq_false (Bool.eq_false_iff.mpr (List.any_eq_false.mp hexports e he))

theorem holds_loadSymbol {module : Text} {source : Option Interface} {sym : LoadSymbol}
    (hsym : sym.binds source name = false) (path : NodePath) (h : s.scope.own.Holds name declared) :
    ((loadSymbol path module source sym).run s).2.scope.own.Holds name declared := by
  cases sym with
  | hole => exact h
  | symbol span here exported =>
      rw [LoadSymbol.binds] at hsym
      by_cases hall : exported = "*"
      · rw [if_pos hall] at hsym
        cases source with
        | none =>
            rw [loadSymbol, if_pos hall]
            exact ⟨h.declares, h.written, h.narrows⟩
        | some i =>
            rw [loadSymbol, if_pos hall]
            exact holds_bindExports hsym h
      · rw [if_neg hall] at hsym
        have hbound {s : State} (h : s.scope.own.Holds name declared) (info : TypeInfo) :
            ((bindLoaded path (here.getD ⟨{}, exported⟩) info).run s).2.scope.own.Holds name declared :=
          h.bind_other (ne_of_beq_false hsym) info.type info.isApproximate
        cases source with
        | none =>
            rw [loadSymbol, if_neg hall]
            exact hbound h _
        | some i =>
            rw [loadSymbol, if_neg hall]
            cases i.get? exported with
            | some t => exact hbound h _
            | none => exact hbound (State.scope_report s _ ▸ h) _

theorem holds_loadSymbols {module : Text} {source : Option Interface} {symbols : List LoadSymbol}
    (hsymbols : symbols.any (·.binds source name) = false) (path : NodePath) (i : Nat)
    (h : s.scope.own.Holds name declared) :
    ((loadSymbols path module source i symbols).run s).2.scope.own.Holds name declared := by
  induction symbols generalizing i s with
  | nil => exact h
  | cons sym rest ih =>
      rw [List.any_cons, Bool.or_eq_false_iff] at hsymbols
      exact ih hsymbols.2 (i + 1) (holds_loadSymbol hsymbols.1 (i :: path) h)

theorem stmtHolds_load (span : Span) (module : Text) (symbols : List LoadSymbol)
    (hloads : Stmt.loadsName c.loads name (.load span module symbols) = false) :
    StmtHolds c path name (.load span module symbols) := by
  intro declared s _ _ h
  refine .of_same_loops ?_ ((moves_load c path s span module symbols).loops id)
  show ((load c path span module symbols).run s).2.scope.own.Holds name declared
  rw [load]
  dsimp only
  split
  · exact holds_loadSymbols hloads path 0 h
  · exact holds_loadSymbols hloads path 0 h

/-- A definition binds its name first as it is declared, and last as it is found; the last one is held to the
annotation. -/
theorem stmtHolds_define (span : Span) (defined : Ident) (params : List ParamDecl) (result : TypeExpr)
    (hexits : Stmt.allExitsInLoops false body = true) :
    StmtHolds c path name (.define span defined params result body) := by
  intro declared s hlive _ h
  obtain ⟨signed, outside, inside, walked, hwalk⟩ := exists_defineWalk c path s defined params result body span
  obtain ⟨-, hloops, -⟩ := accords_defineWalk c hwalk (blockAccords c (2 :: path) 0 false body hexits) hlive
    fun _ _ => rfl
  refine .of_same_loops ?_ hloops
  have hsigned : signed.2.scope.own.Holds name declared := (hwalk.moves_signed.spared fun _ hf => hf.spares).holds h
  have hdeclares : outside.own.annotations.get? name = declared := hwalk.binds ▸ hsigned.declares
  have hother (hne : defined.name ≠ name) : outside.own.Holds name declared :=
    hwalk.binds ▸ hsigned.bind_other hne _ _
  rw [hwalk.run, scope_bindName]
  exact Scope.holds_hold hdeclares hsigned.written hother _ _

omit c in
theorem eq_of_mem_liveFrame {walked : Bool × Frame} {f : Frame} (h : f ∈ liveFrame walked) : f = walked.2 := by
  rw [liveFrame] at h
  split at h
  · exact List.mem_singleton.mp h
  · cases h

omit c in
theorem isSorted_narrowed {tested : State} (h : tested.scope.own.IsSorted) (condition : Expr) (holds : Bool) :
    (narrowed tested condition holds).own.IsSorted :=
  (ChangesOwn.narrow (fun _ => _) holds false).sorted tested.scope.copy h

theorem stmtHolds_branch (span : Span) (condition : Expr) {yes no : List Stmt}
    (hyes : BlockHolds c (1 :: path) 0 name yes) (hno : BlockHolds c (2 :: path) 0 name no) :
    StmtHolds c path name (.branch span condition yes no) := by
  intro declared s hlive hsorted h
  obtain ⟨tested, y, n, hwalk⟩ := exists_branchWalk c path s condition yes no
  have hmoves := hwalk.moves_tested
  have htested : tested.scope.own.Holds name declared := (hmoves.spared fun _ hf => hf.spares).holds h
  have hnarrowed := isSorted_narrowed (hmoves.sorted hsorted) condition
  have hyes := hyes declared { tested with scope := narrowed tested condition true } (hmoves.dead.trans hlive)
    (hnarrowed true) (Scope.holds_narrow htested condition true)
  have hy := moves_block c (1 :: path) { tested with scope := narrowed tested condition true } 0 yes
  rw [hwalk.takes] at hyes hy
  have hno := hno declared { y.2 with scope := narrowed tested condition false }
    (hy.dead.trans (hmoves.dead.trans hlive)) (hnarrowed false) (Scope.holds_narrow htested condition false)
  have hn := moves_block c (2 :: path) { y.2 with scope := narrowed tested condition false } 0 no
  rw [hwalk.skips] at hno hn
  rw [hwalk.run]
  refine ⟨htested.merge fun f hf => ?_, ?_⟩
  · rcases List.mem_append.mp hf with hf | hf
    · cases eq_of_mem_liveFrame hf
      exact ⟨hy.sorted (hnarrowed true), hyes.own⟩
    · cases eq_of_mem_liveFrame hf
      exact ⟨hn.sorted (hnarrowed false), hno.own⟩
  · have hgained : LoopFrame.Gains (AllHold name declared) tested.loops n.2.loops := hyes.loops.trans .append hno.loops
    rwa [hmoves.loops id] at hgained

omit c in
/-- All that a loop is left with holds a name, if its beginning does, its body, and what leaves the body. -/
theorem holds_loopFrames {before : Frame} {walked : Bool × State}
    (hbefore : before.IsSorted ∧ before.Holds name declared)
    (hwalked : walked.2.scope.own.IsSorted ∧ walked.2.scope.own.Holds name declared)
    (hleft : AllHold name declared (walked.2.loops.head?.getD {}).exits (walked.2.loops.head?.getD {}).nexts) :
    ∀ f ∈ loopFrames before walked, f.IsSorted ∧ f.Holds name declared := by
  intro f hf
  rcases List.mem_append.mp hf with hf | hf
  · rcases List.mem_append.mp hf with hf | hf
    · rcases List.mem_cons.mp hf with rfl | hf
      · exact hbefore
      · cases eq_of_mem_liveFrame hf
        exact hwalked
    · exact hleft f (List.mem_append_right _ hf)
  · exact hleft f (List.mem_append_left _ hf)

theorem ForWalk.holds_bound {c : Setup} {target iterable : Expr} {evaluated bound : State} {walked : Bool × State}
    (h : ForWalk c path s target iterable body evaluated bound walked)
    (hevaluated : evaluated.scope.own.Holds name declared) : bound.scope.own.Holds name declared := by
  rw [← h.binds]
  exact ((inStep_assign c (StepKinds.assigns_holding name declared _ c.rules) .self _ _ target).moves _).kept
    (·.own.Holds name declared) (fun _ _ hf => hf) hevaluated

theorem stmtHolds_forIn (span : Span) (target iterable : Expr) (hbody : BlockHolds c (2 :: path) 0 name body) :
    StmtHolds c path name (.forIn span target iterable body) := by
  intro declared s hlive hsorted h
  obtain ⟨evaluated, bound, walked, hwalk⟩ := exists_forWalk c path s target iterable body
  have hmoves := hwalk.moves_evaluated
  have hbound := hwalk.moves_bound
  have hevaluated : evaluated.scope.own.Holds name declared := (hmoves.spared fun _ hf => hf.spares).holds h
  have hsorted := hmoves.sorted hsorted
  have hassigned := hwalk.holds_bound hevaluated
  have hbody := hbody declared { bound with loops := {} :: bound.loops }
    (hbound.dead.trans (hmoves.dead.trans hlive)) (hbound.sorted hsorted) hassigned
  have hblock := moves_block c (2 :: path) { bound with loops := {} :: bound.loops } 0 body
  rw [hwalk.walks] at hbody hblock
  obtain ⟨hleft, htail⟩ := hbody.loops.tail
  rw [hwalk.run]
  refine .of_same_loops (hevaluated.merge (holds_loopFrames ⟨hsorted, hevaluated⟩ ?_ hleft)) ?_
  · exact ⟨hblock.sorted (hbound.sorted hsorted), hbody.own⟩
  · exact htail.trans ((hbound.loops id).trans (hmoves.loops id))

theorem stmtHolds_whileDo (span : Span) (condition : Expr) (hbody : BlockHolds c (1 :: path) 0 name body) :
    StmtHolds c path name (.whileDo span condition body) := by
  intro declared s hlive hsorted h
  obtain ⟨tested, walked, hwalk⟩ := exists_whileWalk c path s condition body
  have hmoves := hwalk.moves_tested
  have htested : tested.scope.own.Holds name declared := (hmoves.spared fun _ hf => hf.spares).holds h
  have hsorted := hmoves.sorted hsorted
  have hnarrowed := isSorted_narrowed hsorted condition true
  have hbody := hbody declared
    { tested with loops := {} :: tested.loops, scope := narrowed tested condition true } (hmoves.dead.trans hlive)
    hnarrowed (Scope.holds_narrow htested condition true)
  have hblock := moves_block c (1 :: path)
    { tested with loops := {} :: tested.loops, scope := narrowed tested condition true } 0 body
  rw [hwalk.walks] at hbody hblock
  obtain ⟨hleft, htail⟩ := hbody.loops.tail
  have hloops := htail.trans (hmoves.loops id)
  cases hcondition : condition.isTrue with
  | true =>
      rw [hwalk.endless hcondition]
      exact .of_same_loops (htested.merge fun f hf => hleft f (List.mem_append_left _ hf)) hloops
  | false =>
      rw [hwalk.ends hcondition]
      refine .of_same_loops (htested.merge (holds_loopFrames ⟨hsorted, htested⟩ ?_ hleft)) hloops
      exact ⟨hblock.sorted hnarrowed, hbody.own⟩

theorem blockHolds_cons {i : Nat} {st : Stmt} {rest : List Stmt} (hst : StmtHolds c (i :: path) name st)
    (hrest : BlockHolds c path (i + 1) name rest) : BlockHolds c path i name (st :: rest) := by
  intro declared s hlive hsorted h
  rw [run_block_cons]
  have hmoves := moves_stmt c (i :: path) s st
  have hst := hst declared s hlive hsorted h
  generalize (stmt c (i :: path) st).run s = first at hmoves hst ⊢
  by_cases hcompletes : first.1 = true
  · rw [if_pos hcompletes]
    have hrest := hrest declared first.2 (hmoves.dead.trans hlive) (hmoves.sorted hsorted) hst.own
    exact ⟨hrest.own, hst.loops.trans .append hrest.loops⟩
  · rw [if_neg hcompletes]
    obtain ⟨hinert, hscope, -⟩ := inert_unreached c path (i + 1) rest first.2
    refine ⟨?_, ?_⟩
    · exact hscope ▸ hst.own
    · exact hinert.loops ▸ hst.loops

end Statements

mutual

theorem stmtHolds (c : Setup) (path : NodePath) (inLoop : Bool) (name : Text) :
    (st : Stmt) → st.exitsInLoops inLoop = true → st.has (·.loadsName c.loads name) = false →
      st.has (·.annotates name) = false → StmtHolds c path name st
  | .hole, _, _, _ | .pass _, _, _, _ => fun _ _ _ _ h => .of_same_loops h rfl
  | .expr e, _, _, _ => stmtHolds_expr c e
  | .assign span op target type value, _, _, hannotates => stmtHolds_assign c span op target type value hannotates
  | .define span defined params result body, hexits, _, _ => stmtHolds_define c span defined params result hexits
  | .ret span value, _, _, _ => stmtHolds_ret c span value
  | .branch span condition yes no, hexits, hloads, hannotates => by
      rw [Stmt.exitsInLoops, Bool.and_eq_true] at hexits
      rw [Stmt.has, Bool.or_eq_false_iff] at hloads hannotates
      exact stmtHolds_branch c span condition
        (blockHolds c (1 :: path) 0 inLoop name yes hexits.1 hloads.1 hannotates.1)
        (blockHolds c (2 :: path) 0 inLoop name no hexits.2 hloads.2 hannotates.2)
  | .forIn span target iterable body, hexits, hloads, hannotates =>
      stmtHolds_forIn c span target iterable (blockHolds c (2 :: path) 0 true name body hexits hloads hannotates)
  | .whileDo span condition body, hexits, hloads, hannotates =>
      stmtHolds_whileDo c span condition (blockHolds c (1 :: path) 0 true name body hexits hloads hannotates)
  | .exit _, _, _, _ => stmtHolds_leaving c true fun _ => rfl
  | .next _, _, _, _ => stmtHolds_leaving c false fun _ => rfl
  | .load span module symbols, _, hloads, _ => stmtHolds_load c span module symbols hloads

theorem blockHolds (c : Setup) (path : NodePath) (i : Nat) (inLoop : Bool) (name : Text) :
    (stmts : List Stmt) → Stmt.allExitsInLoops inLoop stmts = true →
      Stmt.anyHas (·.loadsName c.loads name) stmts = false → Stmt.anyHas (·.annotates name) stmts = false →
        BlockHolds c path i name stmts
  | [], _, _, _ => fun _ _ _ _ h => .of_same_loops h rfl
  | st :: rest, hexits, hloads, hannotates => by
      rw [Stmt.allExitsInLoops, Bool.and_eq_true] at hexits
      rw [Stmt.anyHas, Bool.or_eq_false_iff] at hloads hannotates
      exact blockHolds_cons c (stmtHolds c (i :: path) inLoop name st hexits.1 hloads.1 hannotates.1)
        (blockHolds c path (i + 1) inLoop name rest hexits.2 hloads.2 hannotates.2)

end

end Check

end Gradual
