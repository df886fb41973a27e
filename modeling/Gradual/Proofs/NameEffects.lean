import Gradual.Proofs.NameMaps
import Gradual.Proofs.WalkSteps

/-! What walking a tree does to names. Which names a piece of code mentions, which it loads and which it binds is
told by its text alone; every walk is accounted for by these lists. Errors about unbound names come from mentions,
in order. Names count as loaded wherever the load stands, in functions and in code that is not reached as well,
and binding a name undoes that only directly in the scope of the module. -/

namespace Gradual

/-! ### Mentions -/

/-- A place that may turn out to speak of an unbound name: the use of a name, in the body of a function or not, and
a symbol of a load statement. -/
inductive Mention where
  | use (isInBody : Bool) (id : Ident)
  | symbol (module : Text) (span : Span) (name : Text)

namespace Mention

/-- The same place, as part of a function's body. -/
def inBody : Mention → Mention
  | .use _ id => .use true id
  | m => m

/-- The error about a name that turned out to be unbound. -/
def error : Mention → TypingError
  | .use _ id => (TypingError.notInScope id.name).located id.span
  | .symbol module span name => (Check.notExported module name).located span

/-- Whether a name is used in the body of a function and bound somewhere in the module, as far as the names bound
by assignments and definitions go. Below a `depth` of bodies, everything is in a body. -/
def isForward (forward : NameMap Forward) (depth : Nat) : Mention → Bool
  | .use isInBody id => (isInBody || 0 < depth) && forward.contains id.name
  | .symbol _ _ _ => false

end Mention

/-- The errors about mentions that may be reported. -/
def Setup.complaints (c : Setup) (depth : Nat) (mentions : List Mention) : List TypingError :=
  (mentions.filter fun m => !m.isForward c.forward depth).map Mention.error

mutual

/-- The mentions of an expression, in the order of evaluation. -/
def Expr.mentions : Expr → List Mention
  | .ident id => [.use false id]
  | .list _ elems | .tuple _ elems => mentionsOfExprs elems
  | .dict _ entries => mentionsOfEntries entries
  | .struct _ fields => mentionsOfFields fields
  | .call _ callee args => callee.mentions ++ mentionsOfArgs args
  | .member _ object _ => object.mentions
  | .index _ object index => object.mentions ++ index.mentions
  | .slice _ object start stop step => object.mentions ++ (start.mentions ++ (stop.mentions ++ step.mentions))
  | .binary _ _ left right => left.mentions ++ right.mentions
  | .unary _ _ operand => operand.mentions
  | .conditional _ condition yes no => condition.mentions ++ (yes.mentions ++ no.mentions)
  | .lambda _ params body => mentionsOfParams params ++ body.mentions.map Mention.inBody
  | .listComp _ elem clauses => mentionsOfClauses clauses ++ elem.mentions
  | .dictComp _ key value clauses => mentionsOfClauses clauses ++ (key.mentions ++ value.mentions)
  | .hole | .str _ _ | .int _ _ | .float _ _ | .bool _ _ | .none _ => []

def mentionsOfExprs : List Expr → List Mention
  | [] => []
  | e :: rest => e.mentions ++ mentionsOfExprs rest

def mentionsOfEntries : List DictEntry → List Mention
  | [] => []
  | .hole :: rest => mentionsOfEntries rest
  | .entry _ key value :: rest => key.mentions ++ (value.mentions ++ mentionsOfEntries rest)

def mentionsOfFields : List FieldExpr → List Mention
  | [] => []
  | .hole :: rest => mentionsOfFields rest
  | .field _ _ value :: rest => value.mentions ++ mentionsOfFields rest

def mentionsOfArgs : List ArgExpr → List Mention
  | [] => []
  | .hole :: rest => mentionsOfArgs rest
  | .arg _ _ _ value :: rest => value.mentions ++ mentionsOfArgs rest

def mentionsOfParams : List ParamDecl → List Mention
  | [] => []
  | .hole :: rest => mentionsOfParams rest
  | .param _ _ _ _ default :: rest => default.mentions ++ mentionsOfParams rest

def mentionsOfClauses : List Clause → List Mention
  | [] => []
  | .hole :: rest => mentionsOfClauses rest
  | .clause _ target iterable condition :: rest =>
    (if iterable.isHole then condition.mentions else iterable.mentions ++ target.targetMentions) ++
      mentionsOfClauses rest

/-- The mentions of an expression that is assigned to. -/
def Expr.targetMentions : Expr → List Mention
  | .list _ elems | .tuple _ elems => mentionsOfTargets elems
  | .index _ object index => object.mentions ++ index.mentions
  | .member _ object _ => object.mentions
  | _ => []

def mentionsOfTargets : List Expr → List Mention
  | [] => []
  | e :: rest => e.targetMentions ++ mentionsOfTargets rest

end

def mentionsOfSymbols (module : Text) : List LoadSymbol → List Mention
  | [] => []
  | .hole :: rest => mentionsOfSymbols module rest
  | .symbol span _ name :: rest => .symbol module span name :: mentionsOfSymbols module rest

mutual

/-- The mentions of a statement, in the order of evaluation. -/
def Stmt.mentions : Stmt → List Mention
  | .expr e => e.mentions
  | .assign _ op target _ value =>
    if assignedOperator op = "" then value.mentions ++ target.targetMentions else target.mentions ++ value.mentions
  | .define _ _ params _ body => mentionsOfParams params ++ (mentionsOfStmts body).map Mention.inBody
  | .ret _ value => value.mentions
  | .branch _ condition yes no => condition.mentions ++ (mentionsOfStmts yes ++ mentionsOfStmts no)
  | .forIn _ target iterable body => iterable.mentions ++ (target.targetMentions ++ mentionsOfStmts body)
  | .whileDo _ condition body => condition.mentions ++ mentionsOfStmts body
  | .load _ module symbols => mentionsOfSymbols module symbols
  | .hole | .exit _ | .next _ | .pass _ => []

def mentionsOfStmts : List Stmt → List Mention
  | [] => []
  | s :: rest => s.mentions ++ mentionsOfStmts rest

end

/-! ### Events -/

/-- What code does to a name: it loads it from another module, or binds it by an assignment or a definition. -/
inductive NameEvent where
  | load (name : Text)
  | bind (name : Text)
  deriving DecidableEq

namespace NameEvent

def isLoad : NameEvent → Bool
  | .load _ => true
  | .bind _ => false

/-- Whether `n` counts as loaded after an event, if it did so before or not. Binding a name undoes a load only
directly in the scope of the module. -/
def after (isModule : Bool) (n : Text) (isLoaded : Bool) : NameEvent → Bool
  | .load name => n == name || isLoaded
  | .bind name => isLoaded && !(isModule && n == name)

end NameEvent

/-- The loads among events. -/
def onlyLoads (events : List NameEvent) : List NameEvent := events.filter NameEvent.isLoad

/-- The names that a symbol of a load statement binds; `*` binds all exports of a module that is known. -/
def LoadSymbol.loadedNames (source : Option Interface) : LoadSymbol → List Text
  | .hole => []
  | .symbol _ here name =>
    if name = "*" then (source.map (·.names)).getD [] else [(here.getD ⟨{}, name⟩).name]

/-- The name that an expression is, if it is one. -/
def Expr.plainNames : Expr → List Text
  | .ident id => [id.name]
  | _ => []

/-- The names that an assignment binds; one that reads its target first binds a plain name only. -/
def assignedNames (op : Text) (target : Expr) : List Text :=
  if assignedOperator op = "" then Forward.targetNames target else target.plainNames

mutual

/-- The events of a statement. Of the code inside it, only the loads count. -/
def Stmt.events (loads : NameMap Interface) : Stmt → List NameEvent
  | .assign _ op target _ _ => (assignedNames op target).map .bind
  | .define _ name _ _ body => onlyLoads (eventsOfStmts loads body) ++ [.bind name.name]
  | .branch _ _ yes no => onlyLoads (eventsOfStmts loads yes) ++ onlyLoads (eventsOfStmts loads no)
  | .forIn _ _ _ body | .whileDo _ _ body => onlyLoads (eventsOfStmts loads body)
  | .load _ module symbols => (symbols.flatMap (LoadSymbol.loadedNames (loads.get? module))).map .load
  | .hole | .expr _ | .ret _ _ | .exit _ | .next _ | .pass _ => []

def eventsOfStmts (loads : NameMap Interface) : List Stmt → List NameEvent
  | [] => []
  | s :: rest => s.events loads ++ eventsOfStmts loads rest

end

/-! ### Small facts about mentions and events -/

section Lists

variable {c : Setup} {n : Text}

theorem Mention.isForward_succ (forward : NameMap Forward) (depth : Nat) (x : Mention) :
    x.isForward forward (depth + 1) = x.inBody.isForward forward depth := by
  cases x <;> simp [Mention.isForward, Mention.inBody]

theorem Mention.error_inBody (x : Mention) : x.inBody.error = x.error := by
  cases x <;> rfl

theorem Setup.complaints_append (depth : Nat) (xs ys : List Mention) :
    c.complaints depth (xs ++ ys) = c.complaints depth xs ++ c.complaints depth ys := by
  simp only [Setup.complaints, List.filter_append, List.map_append]

theorem Setup.complaints_sublist {xs ys : List Mention} (h : xs.Sublist ys) (depth : Nat) :
    (c.complaints depth xs).Sublist (c.complaints depth ys) :=
  (h.filter _).map _

theorem Setup.complaints_succ (depth : Nat) (xs : List Mention) :
    c.complaints (depth + 1) xs = c.complaints depth (xs.map Mention.inBody) := by
  simp only [Setup.complaints, List.filter_map, List.map_map]
  rw [funext (f := Mention.error ∘ Mention.inBody) Mention.error_inBody]
  simp only [Mention.isForward_succ, Function.comp_def]

theorem onlyLoads_append (xs ys : List NameEvent) : onlyLoads (xs ++ ys) = onlyLoads xs ++ onlyLoads ys :=
  List.filter_append ..

theorem onlyLoads_onlyLoads (xs : List NameEvent) : onlyLoads (onlyLoads xs) = onlyLoads xs := by
  simp [onlyLoads]

theorem onlyLoads_map_bind (names : List Text) : onlyLoads (names.map .bind) = [] := by
  simp [onlyLoads, NameEvent.isLoad]

theorem foldl_after_onlyLoads (isModule isLoaded : Bool) (events : List NameEvent) :
    (onlyLoads events).foldl (NameEvent.after isModule n) isLoaded =
      events.foldl (NameEvent.after false n) isLoaded := by
  induction events generalizing isLoaded with
  | nil => rfl
  | cons e rest ih =>
      cases e with
      | load name => exact ih _
      | bind name => simpa [onlyLoads, NameEvent.isLoad, NameEvent.after] using ih isLoaded

end Lists

/-! ### Judgements -/

def TypingError.isUnbound (e : TypingError) : Bool := e.kind == .notInScope

/-- No error is about an unbound name. -/
def KnowsNames (errors : List TypingError) : Prop := ∀ e ∈ errors, e.isUnbound = false

theorem knowsNames_nil : KnowsNames [] := List.forall_mem_nil _

theorem knowsNames_singleton {e : TypingError} : KnowsNames [e] ↔ e.isUnbound = false := List.forall_mem_singleton

theorem KnowsNames.append {xs ys : List TypingError} (hxs : KnowsNames xs) (hys : KnowsNames ys) :
    KnowsNames (xs ++ ys) :=
  List.forall_mem_append.mpr ⟨hxs, hys⟩

theorem KnowsNames.filter_eq_nil {errors : List TypingError} (h : KnowsNames errors) :
    errors.filter TypingError.isUnbound = [] :=
  List.filter_eq_nil_iff.mpr fun e he => Bool.not_eq_true _ ▸ h e he

theorem Call.knowsNames_checkArg (p : Param) (found : Ty) : KnowsNames (checkArg p found) := by
  rw [checkArg]
  split
  · exact knowsNames_nil
  · exact knowsNames_singleton.mpr rfl

theorem Call.knowsNames_checkSlot (b : Binding) (s : Slot) : KnowsNames (checkSlot b s) := by
  rw [checkSlot]
  split
  · exact knowsNames_checkArg _ _
  · split
    · exact List.forall_mem_flatMap.mpr fun t _ => knowsNames_checkArg s.param t
    · exact List.forall_mem_flatMap.mpr fun a _ => knowsNames_checkArg s.param a.2
    · exact knowsNames_nil

theorem Call.knowsNames_problems (params : List Param) (args : List Arg) : KnowsNames (problems params args) := by
  have hmap : ∀ {α : Type} {make : α → TypingError} (as : List α), (∀ a, (make a).isUnbound = false) →
      KnowsNames (as.map make) := fun as h => List.forall_mem_map.mpr fun a _ => h a
  unfold problems
  refine (((KnowsNames.append ?_ ?_).append (hmap _ fun _ => rfl)).append (hmap _ fun _ => rfl)).append ?_
  · split
    · exact knowsNames_singleton.mpr rfl
    · exact knowsNames_nil
  · split
    · exact knowsNames_nil
    · exact hmap _ fun _ => rfl
  · exact List.forall_mem_flatMap.mpr fun s _ => knowsNames_checkSlot _ s

namespace Rules

variable (r : Rules) (span : Span)

theorem knowsNames_settle (verdicts : List Verdict) {error : TypingError} (h : error.isUnbound = false) :
    KnowsNames (r.settle verdicts error span).errors := by
  simp only [settle]
  split
  · exact knowsNames_singleton.mpr h
  · exact knowsNames_nil

theorem knowsNames_ite {p : Prop} [Decidable p] {t : Ty} (verdicts : List Verdict) {error : TypingError}
    (h : error.isUnbound = false) :
    KnowsNames (if p then ({ type := t } : Judgement) else r.settle verdicts error span).errors := by
  split
  · exact knowsNames_nil
  · exact knowsNames_settle r span verdicts h

theorem knowsNames_attr (recv : Ty) (name : Text) : KnowsNames (r.attr recv name span).errors :=
  knowsNames_ite r span _ rfl

theorem knowsNames_binOp (op : Text) (left right : Ty) : KnowsNames (r.binOp op left right span).errors := by
  unfold binOp
  split
  · exact knowsNames_nil
  · exact knowsNames_ite r span _ rfl

theorem knowsNames_unOp (op : Text) (operand : Ty) : KnowsNames (r.unOp op operand span).errors := by
  unfold unOp
  split
  · exact knowsNames_nil
  · exact knowsNames_ite r span _ rfl

theorem knowsNames_index (value index : Ty) (constant : Option Int) :
    KnowsNames (r.index value index constant span).errors :=
  knowsNames_ite r span _ rfl

theorem knowsNames_slice (value : Ty) : KnowsNames (r.slice value span).errors := knowsNames_ite r span _ rfl

theorem knowsNames_iter (t : Ty) : KnowsNames (r.iter t span).errors := knowsNames_ite r span _ rfl

theorem distinctErrors_subset (seen : List (ErrorKind × Text)) (errors : List TypingError) :
    distinctErrors seen errors ⊆ errors := by
  induction errors generalizing seen with
  | nil => exact List.Subset.refl _
  | cons e rest ih =>
      rw [distinctErrors]
      split
      · exact List.subset_cons_of_subset _ (ih seen)
      · exact List.cons_subset_cons _ (ih _)

theorem knowsNames_callProblems (args : List Arg) (a : Alt) : KnowsNames (callProblems args a) := by
  unfold callProblems
  split
  · exact Call.knowsNames_problems _ args
  · exact knowsNames_nil

theorem knowsNames_call (callee : Ty) (args : List Arg) : KnowsNames (r.call callee args span).errors := by
  unfold call
  split
  · exact knowsNames_nil
  · refine KnowsNames.append (List.forall_mem_map.mpr fun e he => ?_) (knowsNames_settle r span _ rfl)
    obtain ⟨a, _, hproblem⟩ := List.mem_flatMap.mp (distinctErrors_subset _ _ he)
    exact knowsNames_callProblems args a e hproblem

theorem knowsNames_callBuiltin (name : Text) (sig : Signature) (args : List Arg) :
    KnowsNames (r.callBuiltin name sig args span).errors := by
  unfold callBuiltin
  dsimp only
  split
  · exact knowsNames_call r span _ args
  · exact knowsNames_call r span _ args

end Rules

/-! ### Effects -/

/-- What code with these mentions and events does to a state, as far as names go. -/
structure State.Effect (c : Setup) (mentions : List Mention) (events : List NameEvent) (s s' : State) : Prop where
  outer : s'.scope.outer = s.scope.outer
  isCopy : s'.scope.isCopy = s.scope.isCopy
  depth : s'.depth = s.depth
  errors : ∃ new, s'.errors = s.errors ++ new ∧
    (new.filter TypingError.isUnbound).Sublist (c.complaints s.depth mentions)
  loaded : ∀ n, s'.loaded.contains n = events.foldl (NameEvent.after s.scope.isModule n) (s.loaded.contains n)

namespace State.Effect

variable {c : Setup} {xs ys : List Mention} {es fs : List NameEvent} {s s' s'' : State}

theorem isModule (h : s.Effect c xs es s') : s'.scope.isModule = s.scope.isModule := by
  rw [Scope.isModule, Scope.isModule, h.outer, h.isCopy]

theorem trans (h : s.Effect c xs es s') (h' : s'.Effect c ys fs s'') : s.Effect c (xs ++ ys) (es ++ fs) s'' where
  outer := h'.outer.trans h.outer
  isCopy := h'.isCopy.trans h.isCopy
  depth := h'.depth.trans h.depth
  errors := by
    obtain ⟨new, herrors, hnew⟩ := h.errors
    obtain ⟨new', herrors', hnew'⟩ := h'.errors
    refine ⟨new ++ new', by rw [herrors', herrors, List.append_assoc], ?_⟩
    rw [List.filter_append, Setup.complaints_append, ← h.depth]
    exact (h.depth.symm ▸ hnew).append hnew'
  loaded n := by rw [h'.loaded, h.loaded, h.isModule, List.foldl_append]

theorem mono (h : s.Effect c xs es s') (hsub : xs.Sublist ys) : s.Effect c ys es s' := by
  obtain ⟨new, herrors, hnew⟩ := h.errors
  exact ⟨h.outer, h.isCopy, h.depth, ⟨new, herrors, hnew.trans (Setup.complaints_sublist hsub _)⟩, h.loaded⟩

theorem of_onlyLoads (h : s.Effect c xs es s') (hs : s.scope.isModule = false) (heq : onlyLoads es = onlyLoads fs) :
    s.Effect c xs fs s' := by
  refine ⟨h.outer, h.isCopy, h.depth, h.errors, fun n => ?_⟩
  rw [h.loaded, hs, ← foldl_after_onlyLoads false, heq, foldl_after_onlyLoads]

theorem quiet (houter : s'.scope.outer = s.scope.outer) (hcopy : s'.scope.isCopy = s.scope.isCopy)
    (hdepth : s'.depth = s.depth) (herrors : s'.errors = s.errors) (hloaded : s'.loaded = s.loaded) :
    s.Effect c [] [] s' :=
  ⟨houter, hcopy, hdepth, ⟨[], herrors.trans (List.append_nil _).symm, List.nil_sublist _⟩,
    fun n => congrArg (·.contains n) hloaded⟩

theorem refl (s : State) : s.Effect c [] [] s := quiet rfl rfl rfl rfl rfl

end State.Effect

theorem State.effect_report {c : Setup} {xs : List Mention} (s : State) (errors : List TypingError)
    (h : (errors.filter TypingError.isUnbound).Sublist (c.complaints s.depth xs)) :
    s.Effect c xs [] (s.report errors) := by
  by_cases hdead : s.dead = 0
  · rw [State.report, if_pos hdead]
    exact ⟨rfl, rfl, rfl, ⟨errors, rfl, h⟩, fun _ => rfl⟩
  · rw [State.report, if_neg hdead]
    exact (State.Effect.refl s).mono (List.nil_sublist _)

theorem State.effect_report_known {c : Setup} (s : State) {errors : List TypingError} (h : KnowsNames errors) :
    s.Effect c [] [] (s.report errors) :=
  s.effect_report errors (h.filter_eq_nil ▸ List.nil_sublist _)

theorem State.effect_report_error {c : Setup} (s : State) {x : Mention} (h : x.isForward c.forward s.depth = false) :
    s.Effect c [x] [] (s.report [x.error]) := by
  refine s.effect_report [x.error] (List.filter_sublist.trans ?_)
  rw [Setup.complaints, List.filter_cons_of_pos (by rw [h]; rfl)]
  exact List.Sublist.refl _

namespace Check

variable {α β : Type} {c : Setup} {isTop : Bool} {xs ys : List Mention} {es fs : List NameEvent}

/-- A walk has an effect from every state; if it is not for the top, from every state outside the scope of the
module. -/
def Does (c : Setup) (isTop : Bool) (mentions : List Mention) (events : List NameEvent) (m : Check α) : Prop :=
  ∀ s : State, (s.scope.isModule = true → isTop = true) → s.Effect c mentions events (m.run s).2

namespace Does

theorem pure (a : α) : Does c isTop [] [] (Pure.pure a) := fun s _ => .refl s

theorem look : Does c isTop [] [] (get : Check State) := fun s _ => .refl s

theorem bind_result {m : Check α} {k : α → Check β} (h : Does c isTop xs es m)
    (hnext : ∀ s : State, Does c isTop ys fs (k (m.run s).1)) : Does c isTop (xs ++ ys) (es ++ fs) (m >>= k) := by
  intro s hs
  have hfirst := h s hs
  exact hfirst.trans (hnext s _ (hfirst.isModule ▸ hs))

theorem bind {m : Check α} {k : α → Check β} (h : Does c isTop xs es m) (hnext : ∀ a, Does c isTop ys fs (k a)) :
    Does c isTop (xs ++ ys) (es ++ fs) (m >>= k) :=
  h.bind_result fun _ => hnext _

theorem after {m : Check α} {k : α → Check β} (h : Does c isTop [] [] m) (hnext : ∀ a, Does c isTop ys fs (k a)) :
    Does c isTop ys fs (m >>= k) :=
  h.bind hnext

theorem bind_quiet {m : Check α} {k : α → Check β} (h : Does c isTop xs es m)
    (hnext : ∀ a, Does c isTop [] [] (k a)) : Does c isTop xs es (m >>= k) := by
  have hboth := h.bind hnext
  rwa [List.append_nil, List.append_nil] at hboth

theorem mono {m : Check α} (h : Does c isTop xs es m) (hsub : xs.Sublist ys) : Does c isTop ys es m :=
  fun s hs => (h s hs).mono hsub

theorem of_onlyLoads {m : Check α} (h : Does c false xs es m) (heq : onlyLoads es = onlyLoads fs) :
    Does c false xs fs m :=
  fun s hs => (h s hs).of_onlyLoads (by simpa using hs) heq

theorem ite {p : Prop} [Decidable p] {yes no : Check α} (hyes : p → Does c isTop xs es yes)
    (hno : ¬p → Does c isTop xs es no) : Does c isTop xs es (if p then yes else no) := by
  split
  · next h => exact hyes h
  · next h => exact hno h

theorem discard {m : Check α} (h : Does c isTop xs es m) : Does c isTop xs es (Functor.discard m) :=
  h.bind_quiet fun _ => pure _

theorem change {f : State → State} (hscope : ∀ s, (f s).scope = s.scope := by exact fun _ => rfl)
    (hdepth : ∀ s, (f s).depth = s.depth := by exact fun _ => rfl)
    (herrors : ∀ s, (f s).errors = s.errors := by exact fun _ => rfl)
    (hloaded : ∀ s, (f s).loaded = s.loaded := by exact fun _ => rfl) : Does c isTop [] [] (modify f : Check Unit) :=
  fun s _ => .quiet (congrArg Scope.outer (hscope s)) (congrArg Scope.isCopy (hscope s)) (hdepth s) (herrors s)
    (hloaded s)

end Does

end Check

end Gradual
