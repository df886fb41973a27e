import Gradual.Oracle.Standard
import Gradual.Proofs.ExpressionParts
import Gradual.Proofs.Liveness
import Gradual.Proofs.NameWalk

/-! Which expressions are approximate. A walk counts the approximations it makes and the approximate names it reads,
and an expression is approximate if the count has changed when it is evaluated. Calls of global functions set the
count back if their result is precise. Here the count is told apart: `Check.Meets` lists what a walk comes across,
where an expression that is evaluated on the way is one event. The count never falls during an evaluation, so that
nothing that was counted before is set back, and an expression other than a precise call is approximate exactly if
one of the events of its evaluation is. -/

namespace Gradual

namespace Check

/-! ### What a walk meets -/

/-- An expression that is evaluated for a node, from a state. -/
structure Evaluation where
  path : NodePath
  expr : Expr
  state : State

namespace Evaluation

variable (c : Setup) (E : Evaluation)

def run : TypeInfo × State := (Check.expr c E.path E.expr).run E.state

def IsApproximate : Prop := (E.run c).1.isApproximate = true

/-- A call of a global function that the oracle knows, with a result without a dynamic part. -/
def IsPreciseCall : Prop :=
  ∃ span callee items id sig, E.expr = .call span callee items ∧
    calleeOf c E.state.scope callee = .builtin id sig ∧ (E.run c).1.type.hasAny = false

end Evaluation

/-- A name stands for something that is only approximately known: it is bound so, or if nothing else is known of it,
the module binds it so later. -/
def IsApproximateName (c : Setup) (s : State) (name : Text) : Prop :=
  constant? name = none ∧
    ((∃ b, s.scope.resolve? name = some b ∧ b.isApproximate = true) ∨
      s.scope.resolve? name = none ∧ c.rules.oracle.signature name = none ∧ s.scope.isWildcard = false ∧ 0 < s.depth ∧
        ∃ fwd, c.forward.get? name = some fwd ∧ fwd.isApproximate = true)

/-- What a walk comes across: an expression that it evaluates, an approximation that it makes, or an approximate name
that it reads. -/
inductive Event where
  | evaluates (E : Evaluation)
  | approximates (a : Approximation)
  | reads (name : Text)

namespace Event

def part? : Event → Option (NodePath × Expr)
  | .evaluates E => some (E.path, E.expr)
  | .approximates _ | .reads _ => none

def IsApproximate (c : Setup) : Event → Prop
  | .evaluates E => E.IsApproximate c
  | .approximates _ | .reads _ => True

end Event

/-- What a walk comes across from a state, in order. Evaluating an expression is one event, whatever it meets. Other
changes of the state leave the count of approximations as it is; there is no event that sets it back. -/
inductive Meets (c : Setup) : {α : Type} → Check α → State → List Event → Prop
  | pure {α : Type} (a : α) (s : State) : Meets c (Pure.pure a) s []
  | bind {α β : Type} {m : Check α} {k : α → Check β} {s : State} {events events' : List Event}
      (h : Meets c m s events) (hnext : Meets c (k (m.run s).1) (m.run s).2 events') :
      Meets c (m >>= k) s (events ++ events')
  | look (s : State) : Meets c get s []
  | change {f : State → State} {s : State} (htaint : (f s).taint = s.taint) (hdead : (f s).dead = s.dead) :
      Meets c (modify f) s []
  | settle (j : Judgement) (s : State) : Meets c (settle j) s (j.approximations.map .approximates)
  | approximate (category message : Text) (span : Span) (s : State) :
      Meets c (approximate category message span) s [.approximates ⟨category, message, span⟩]
  | read {s : State} {name : Text} (h : IsApproximateName c s name) : Meets c taint s [.reads name]
  | evaluate (path : NodePath) (e : Expr) (s : State) : Meets c (expr c path e) s [.evaluates ⟨path, e, s⟩]

/-- What the evaluation of an expression comes across before its type is noted. -/
def Evaluation.Meets (c : Setup) (E : Evaluation) (events : List Event) : Prop :=
  ∃ form span eval, Check.expr c E.path E.expr = noted E.path form span eval ∧ Check.Meets c eval E.state events

/-- An expression is evaluated directly as a part of another. -/
def Evaluation.IsPartOf (c : Setup) (F E : Evaluation) : Prop := ∃ events, E.Meets c events ∧ .evaluates F ∈ events

/-- An approximation or an approximate name lies beneath an expression, outside of every precise call. -/
inductive Evaluation.RestsOnApproximation (c : Setup) : Evaluation → Prop
  | approximates {E : Evaluation} {events : List Event} {a : Approximation} (hE : ¬E.IsPreciseCall c)
      (h : E.Meets c events) (ha : .approximates a ∈ events) : RestsOnApproximation c E
  | reads {E : Evaluation} {events : List Event} {name : Text} (hE : ¬E.IsPreciseCall c)
      (h : E.Meets c events) (hname : .reads name ∈ events) : RestsOnApproximation c E
  | part {E F : Evaluation} (hE : ¬E.IsPreciseCall c) (h : F.IsPartOf c E) (hF : RestsOnApproximation c F) :
      RestsOnApproximation c E

/-! ### The count -/

namespace Evaluation

variable {c : Setup}

theorem isApproximate_iff (E : Evaluation) : E.IsApproximate c ↔ (E.run c).2.taint ≠ E.state.taint := by
  obtain ⟨path, e, s⟩ := E
  have hnoted (form : Text) (span : Span) (eval : Check Ty) :
      ((noted path form span eval).run s).1.isApproximate = true ↔
        ((noted path form span eval).run s).2.taint ≠ s.taint := bne_iff_ne
  cases e with
  | hole => exact ⟨fun h => absurd h Bool.false_ne_true, fun h => absurd rfl h⟩
  | _ => exact hnoted _ _ _

theorem isApproximate_eq_false_iff (E : Evaluation) :
    (E.run c).1.isApproximate = false ↔ (E.run c).2.taint = E.state.taint := by
  rw [← Bool.not_eq_true]
  exact (not_congr (isApproximate_iff E)).trans not_ne_iff

end Evaluation

theorem taint_settle (j : Judgement) (s : State) :
    ((settle j).run s).2.taint = s.taint + j.approximations.length ∧ ((settle j).run s).2.dead = s.dead := by
  have hreport : (s.report j.errors).taint = s.taint ∧ (s.report j.errors).dead = s.dead := by
    unfold State.report
    split
    · exact ⟨rfl, rfl⟩
    · exact ⟨rfl, rfl⟩
  exact ⟨congrArg (· + _) hreport.1, hreport.2⟩

namespace Meets

variable {c : Setup} {α : Type} {m : Check α} {s : State} {events : List Event}

/-- If the count does not fall in the expressions that a walk evaluates, it does not fall in the walk, and it rises
exactly if one of the events is approximate. -/
theorem taint_le (h : Meets c m s events)
    (hparts : ∀ E, .evaluates E ∈ events → E.state.taint ≤ (E.run c).2.taint) :
    s.taint ≤ (m.run s).2.taint ∧ ((m.run s).2.taint ≠ s.taint ↔ ∃ event ∈ events, event.IsApproximate c) := by
  have hnone {s s' : State} (h : s'.taint = s.taint) :
      s.taint ≤ s'.taint ∧ (s'.taint ≠ s.taint ↔ ∃ event ∈ ([] : List Event), event.IsApproximate c) := by
    refine ⟨Nat.le_of_eq h.symm, ⟨fun hne => absurd h hne, ?_⟩⟩
    rintro ⟨_, hmem, _⟩
    cases hmem
  induction h with
  | pure a s => exact hnone rfl
  | @bind _ _ m k s events events' h hnext ih ihnext =>
      obtain ⟨hle, hiff⟩ := ih fun E hE => hparts E (List.mem_append_left events' hE)
      obtain ⟨hle', hiff'⟩ := ihnext fun E hE => hparts E (List.mem_append_right events hE)
      refine ⟨Nat.le_trans hle hle', ?_⟩
      have heither : ((m >>= k).run s).2.taint ≠ s.taint ↔
          (m.run s).2.taint ≠ s.taint ∨ ((k (m.run s).1).run (m.run s).2).2.taint ≠ (m.run s).2.taint := by
        show ((k (m.run s).1).run (m.run s).2).2.taint ≠ s.taint ↔ _
        omega
      rw [heither, hiff, hiff']
      simp only [List.mem_append, or_and_right, exists_or]
  | look s => exact hnone rfl
  | change htaint _ => exact hnone htaint
  | settle j s =>
      rw [(taint_settle j s).1]
      refine ⟨Nat.le_add_right _ _, ⟨fun hne => ?_, ?_⟩⟩
      · obtain ⟨a, ha⟩ := List.exists_mem_of_length_pos (l := j.approximations) (by omega)
        exact ⟨.approximates a, List.mem_map_of_mem ha, trivial⟩
      · rintro ⟨_, hmem, _⟩
        obtain ⟨a, ha, _⟩ := List.mem_map.mp hmem
        have := List.length_pos_of_mem ha
        omega
  | approximate category message span s =>
      exact ⟨Nat.le_succ _, fun _ => ⟨_, List.mem_singleton.mpr rfl, trivial⟩, fun _ => Nat.succ_ne_self _⟩
  | read _ =>
      exact ⟨Nat.le_succ _, fun _ => ⟨_, List.mem_singleton.mpr rfl, trivial⟩, fun _ => Nat.succ_ne_self _⟩
  | evaluate path e s =>
      refine ⟨hparts _ (List.mem_singleton.mpr rfl), ?_⟩
      refine (Evaluation.isApproximate_iff (c := c) ⟨path, e, s⟩).symm.trans ⟨fun h => ?_, ?_⟩
      · exact ⟨_, List.mem_singleton.mpr rfl, h⟩
      · rintro ⟨_, hmem, h⟩
        cases List.mem_singleton.mp hmem
        exact h

theorem looked {k : State → Check α} (h : Meets c (k s) s events) : Meets c (get >>= k) s events := (look s).bind h

theorem exists_looked {k : State → Check α} {P : List Event → Prop} (h : ∃ events, Meets c (k s) s events ∧ P events) :
    ∃ events, Meets c (get >>= k) s events ∧ P events := by
  obtain ⟨events, hevents, hP⟩ := h
  exact ⟨events, hevents.looked, hP⟩

theorem atScope {k : Scope → Check α} (h : Meets c (k s.scope) s events) : Meets c (Check.scope >>= k) s events :=
  ((pure s.scope s).looked : Meets c Check.scope s []).bind h

theorem dead_eq (h : Meets c m s events) :
    (m.run s).2.dead = s.dead ∧ ∀ E, .evaluates E ∈ events → E.state.dead = s.dead := by
  induction h with
  | pure a s | look s => exact ⟨rfl, fun _ hE => absurd hE List.not_mem_nil⟩
  | @bind _ _ m k s events events' h hnext ih ihnext =>
      refine ⟨ihnext.1.trans ih.1, fun E hE => ?_⟩
      rcases List.mem_append.mp hE with hE | hE
      · exact ih.2 E hE
      · exact (ihnext.2 E hE).trans ih.1
  | change _ hdead => exact ⟨hdead, fun _ hE => absurd hE List.not_mem_nil⟩
  | settle j s =>
      refine ⟨(taint_settle j s).2, fun E hE => ?_⟩
      obtain ⟨a, _, ha⟩ := List.mem_map.mp hE
      cases ha
  | approximate category message span s => exact ⟨rfl, fun _ hE => by cases List.mem_singleton.mp hE⟩
  | read _ => exact ⟨rfl, fun _ hE => by cases List.mem_singleton.mp hE⟩
  | evaluate path e s =>
      refine ⟨(moves_expr c path s e).dead, fun E hE => ?_⟩
      cases List.mem_singleton.mp hE
      rfl

end Meets

/-! ### What each walk evaluates -/

/-- A walk evaluates some expressions, from whatever state. -/
def Covers (c : Setup) {α : Type} (m : Check α) (parts : List (NodePath × Expr)) : Prop :=
  ∀ s, ∃ events, Meets c m s events ∧ events.filterMap Event.part? = parts

namespace Covers

variable {c : Setup} {α β : Type} {parts parts' : List (NodePath × Expr)}

theorem pure (a : α) : Covers c (Pure.pure a) [] := fun s => ⟨[], .pure a s, rfl⟩

theorem bind_run {m : Check α} {k : α → Check β} (h : Covers c m parts)
    (hnext : ∀ s, Covers c (k (m.run s).1) parts') : Covers c (m >>= k) (parts ++ parts') := by
  intro s
  obtain ⟨events, hevents, hparts⟩ := h s
  obtain ⟨events', hevents', hparts'⟩ := hnext s (m.run s).2
  exact ⟨_, hevents.bind hevents', by rw [List.filterMap_append, hparts, hparts']⟩

theorem bind {m : Check α} {k : α → Check β} (h : Covers c m parts) (hnext : ∀ a, Covers c (k a) parts') :
    Covers c (m >>= k) (parts ++ parts') := h.bind_run fun _ => hnext _

theorem after {m : Check α} {k : α → Check β} (h : Covers c m []) (hnext : ∀ a, Covers c (k a) parts) :
    Covers c (m >>= k) parts := h.bind hnext

theorem first {m : Check α} {k : α → Check β} (h : Covers c m parts) (hnext : ∀ a, Covers c (k a) []) :
    Covers c (m >>= k) parts := List.append_nil parts ▸ h.bind hnext

theorem look {k : State → Check α} (h : ∀ s, Covers c (k s) parts) : Covers c (get >>= k) parts :=
  after (fun s => ⟨[], .look s, rfl⟩) h

theorem change {f : State → State} (htaint : ∀ s, (f s).taint = s.taint := by exact fun _ => rfl)
    (hdead : ∀ s, (f s).dead = s.dead := by exact fun _ => rfl) : Covers c (modify f) [] :=
  fun s => ⟨[], .change (htaint s) (hdead s), rfl⟩

theorem scope : Covers c Check.scope [] := look fun s => pure s.scope

theorem modifyScope (f : Scope → Scope) : Covers c (Check.modifyScope f) [] := change

theorem note (path : NodePath) (form : Text) (span : Span) (info : TypeInfo) :
    Covers c (Check.note path form span info) [] := change

theorem report (e : TypingError) (span : Span) : Covers c (Check.report e span) [] := by
  refine change (fun s => ?_) fun s => ?_ <;> unfold State.report <;> split <;> rfl

theorem settle (j : Judgement) : Covers c (Check.settle j) [] := by
  refine fun s => ⟨_, .settle j s, ?_⟩
  rw [List.filterMap_map]
  exact List.filterMap_eq_nil_iff.mpr fun _ _ => rfl

theorem approximate (category message : Text) (span : Span) : Covers c (Check.approximate category message span) [] :=
  fun s => ⟨_, .approximate category message span s, rfl⟩

theorem expr (path : NodePath) (e : Expr) : Covers c (Check.expr c path e) [(path, e)] :=
  fun s => ⟨_, .evaluate path e s, rfl⟩

theorem ite {p : Prop} [Decidable p] {yes no : Check α} (hyes : Covers c yes parts) (hno : Covers c no parts) :
    Covers c (if p then yes else no) parts := by
  split
  · exact hyes
  · exact hno

theorem aside {enter : Scope → Scope} {walk : Check α} (h : Covers c walk parts) :
    Covers c (Check.aside enter walk) parts :=
  scope.after fun _ => (modifyScope _).after fun _ => h.first fun a => (modifyScope _).after fun _ => pure a

theorem inBody {walk : Check α} (h : Covers c walk parts) : Covers c (Check.inBody walk) parts :=
  (change : Covers c _ []).after fun _ => h.first fun a => (change : Covers c _ []).after fun _ => pure a

end Covers

section Walks

variable (c : Setup)

theorem meets_ident {s : State} {id : Ident} (h : IsApproximateName c s id.name) :
    Meets c (ident c id) s [.reads id.name] := by
  have hread (type : Ty) : Meets c (do taint; return type) s [.reads id.name] := (Meets.read h).bind (.pure _ _)
  obtain ⟨hconstant, ⟨b, hb, hflag⟩ | ⟨hresolve, hsignature, hwildcard, hdepth, fwd, hfwd, hflag⟩⟩ := h
  · refine .looked ?_
    rw [hconstant, hb]
    dsimp only
    rw [hflag]
    exact hread b.type
  · refine .looked ?_
    rw [hconstant, hresolve, hsignature, hwildcard, if_pos hdepth, hfwd]
    dsimp only
    rw [hflag]
    exact hread fwd.type

theorem covers_ident (id : Ident) : Covers c (ident c id) [] := by
  intro s
  have hread {isApproximate : Bool} (type : Ty) (h : isApproximate = true → IsApproximateName c s id.name) :
      ∃ events, Meets c (do
        if isApproximate then taint
        return type) s events ∧ events.filterMap Event.part? = [] := by
    cases isApproximate with
    | true => exact ⟨_, (Meets.read (h rfl)).bind (.pure _ _), rfl⟩
    | false => exact ⟨_, .pure _ _, rfl⟩
  refine Meets.exists_looked ?_
  dsimp only
  split
  · exact Covers.pure _ s
  · next hconstant =>
    split
    · next b hb => exact hread b.type fun hflag => ⟨hconstant, Or.inl ⟨b, hb, hflag⟩⟩
    · next hresolve =>
      split
      · exact Covers.pure _ s
      · next hsignature =>
        split
        · exact (Covers.approximate _ _ _).after (fun _ => .pure _) s
        · next hwildcard =>
          split
          · next fwd hfwd =>
            refine hread fwd.type fun hflag => ⟨hconstant, Or.inr ⟨hresolve, hsignature, ?_⟩⟩
            split at hfwd
            · next hdepth => exact ⟨Bool.eq_false_iff.mpr hwildcard, hdepth, fwd, hfwd, hflag⟩
            · cases hfwd
          · exact (Covers.report _ _).after (fun _ => .pure _) s

theorem covers_sliceBound (value : Ty) (span : Span) (bound : TypeInfo) : Covers c (sliceBound value span bound) [] :=
  .ite (.pure ()) (.report _ _)

theorem covers_checkDefault (name : Text) (declared : TypeExpr) (default : Expr) (info : TypeInfo) :
    Covers c (checkDefault name declared default info) [] := .ite (.pure ()) (.report _ _)

theorem covers_signatureOf (params : List Param) (result : Ty) (span : Span) :
    Covers c (signatureOf params result span) [] := by
  unfold signatureOf
  split
  · exact .pure _
  · exact (Covers.approximate _ _ _).after fun _ => .pure _

theorem covers_bindParams (path : NodePath) (sig : Option Signature) (i : Nat) (params : List ParamDecl) :
    Covers c (bindParams path sig i params) [] := by
  induction params generalizing i with
  | nil => exact .pure ()
  | cons p rest ih =>
      cases p with
      | hole => exact ih (i + 1)
      | param span name kind type default =>
          exact (Covers.modifyScope _).after fun _ => (Covers.note _ _ _ _).after fun _ => ih (i + 1)

theorem covers_bindName (path : NodePath) (id : Ident) (type : Ty) (isApproximate : Bool) :
    Covers c (bindName path id type isApproximate) [] := by
  rw [bindName_eq]
  refine Covers.scope.after fun s => ?_
  have hrest (info : TypeInfo) : Covers c (holdName path id type isApproximate info) [] :=
    (Covers.change : Covers c _ []).after fun _ => .note _ _ _ _
  cases s.annotation? id.name with
  | none => exact hrest _
  | some declared => exact .ite (hrest _) ((Covers.report _ _).after fun _ => hrest _)

theorem covers_unpacked (type : Ty) (count : Nat) (span : Span) : Covers c (unpacked c type count span) [] := by
  unfold unpacked
  split
  · exact .ite (.pure _) ((Covers.report _ _).after fun _ => .pure _)
  · exact (Covers.settle _).after fun _ => .pure _

theorem covers_widen (e : Expr) (before after : Ty) : Covers c (widen e before after) [] := by
  cases e with
  | ident id =>
      rw [widen]
      exact .modifyScope _
  | _ => exact .pure ()

theorem covers_storeAt (path : NodePath) (span : Span) (object index : Expr) (container at_ value : Ty) :
    Covers c (storeAt c path span object index container at_ value) [] := by
  have hwiden (after : Ty) : Covers c (do
      widen object container after
      note path "IndexExpression" span ⟨value, false⟩) [] := (covers_widen c _ _ _).after fun _ => .note _ _ _ _
  unfold storeAt
  split
  · exact hwiden _
  · exact .ite (hwiden _) ((Covers.report _ _).after fun _ => hwiden _)
  · exact (Covers.settle _).after fun _ => .note _ _ _ _

theorem covers_recordCall (args : List Arg) (span : Span) : Covers c (recordCall c args span) [] := by
  unfold recordCall
  dsimp only
  split
  · split
    · exact ((Covers.settle _).after fun _ => .pure ()).after fun _ => .pure _
    · exact (Covers.pure ()).after fun _ => .pure _
  · exact .pure _

theorem covers_widenOnCall (callee : Expr) (args : List Arg) : Covers c (widenOnCall callee args) [] := by
  obtain ⟨f, hf, _⟩ := exists_widenOnCall_eq callee args
  rw [hf]
  exact .modifyScope f

theorem covers_exprs (path : NodePath) (i : Nat) (es : List Expr) :
    Covers c (exprs c path i es) (partsEach (fun path e => [(path, e)]) path i es) := by
  induction es generalizing i with
  | nil => exact .pure []
  | cons e rest ih => exact (Covers.expr _ e).bind fun _ => (ih (i + 1)).first fun _ => .pure _

theorem covers_entries (path : NodePath) (i : Nat) (items : List DictEntry) :
    Covers c (entries c path i items) (partsEach DictEntry.parts path i items) := by
  induction items generalizing i with
  | nil => exact .pure []
  | cons item rest ih =>
      cases item with
      | hole => exact ih (i + 1)
      | entry span key value =>
          exact (Covers.expr _ key).bind fun _ => (Covers.expr _ value).bind fun _ =>
            (ih (i + 1)).first fun _ => .pure _

theorem covers_fields (path : NodePath) (i : Nat) (items : List FieldExpr) :
    Covers c (fields c path i items) (partsEach FieldExpr.parts path i items) := by
  induction items generalizing i with
  | nil => exact .pure []
  | cons item rest ih =>
      cases item with
      | hole => exact ih (i + 1)
      | field span name value =>
          exact (Covers.expr _ value).bind fun _ => (Covers.note _ _ _ _).after fun _ =>
            (ih (i + 1)).first fun _ => .pure _

theorem covers_args (path : NodePath) (i : Nat) (items : List ArgExpr) :
    Covers c (args c path i items) (partsEach ArgExpr.parts path i items) := by
  induction items generalizing i with
  | nil => exact .pure []
  | cons item rest ih =>
      cases item with
      | hole => exact ih (i + 1)
      | arg span kind name value =>
          exact (Covers.expr _ value).bind fun _ => (Covers.note _ _ _ _).after fun _ =>
            (ih (i + 1)).first fun _ => .pure _

theorem covers_paramDecls (path : NodePath) (i : Nat) (params : List ParamDecl) :
    Covers c (paramDecls c path i params) (partsEach ParamDecl.parts path i params) := by
  induction params generalizing i with
  | nil => exact .pure []
  | cons p rest ih =>
      cases p with
      | hole => exact ih (i + 1)
      | param span name kind type default =>
          exact (Covers.expr _ default).bind fun _ => (covers_checkDefault c _ _ _ _).after fun _ =>
            (ih (i + 1)).first fun _ => .pure _

mutual

theorem covers_assign (c : Setup) (path : NodePath) (type : Ty) (isApproximate : Bool) :
    (target : Expr) → Covers c (assign c path type isApproximate target) (target.targetParts path)
  | .ident id => covers_bindName c path id type isApproximate
  | .list span elems | .tuple span elems =>
      (covers_unpacked c type elems.length span).bind_run fun s =>
        covers_assignEach c path isApproximate 0 elems _ (length_unpacked type elems.length span s)
  | .index span object index => (Covers.expr _ object).bind fun _ => (Covers.expr _ index).first fun _ =>
      covers_storeAt c path span object index _ _ _
  | .member _ object _ => (Covers.expr _ object).first fun _ => (Covers.settle _).after fun _ => .note _ _ _ _
  | .hole | .str _ _ | .int _ _ | .float _ _ | .bool _ _ | .none _ => .pure ()
  | .dict _ _ | .struct _ _ | .call _ _ _ | .slice _ _ _ _ _ | .binary _ _ _ _ => .pure ()
  | .unary _ _ _ | .conditional _ _ _ _ | .lambda _ _ _ | .listComp _ _ _ | .dictComp _ _ _ _ => .pure ()

theorem covers_assignEach (c : Setup) (path : NodePath) (isApproximate : Bool) (i : Nat) :
    (targets : List Expr) → (types : List Ty) → types.length = targets.length →
      Covers c (assignEach c path isApproximate i targets types) (targetPartsEach path i targets)
  | [], _, _ => .pure ()
  | e :: rest, t :: types, h => (covers_assign c (i :: path) t isApproximate e).bind fun _ =>
      covers_assignEach c path isApproximate (i + 1) rest types (Nat.succ.inj h)

end

theorem covers_clauses (path : NodePath) (i : Nat) (items : List Clause) :
    Covers c (clauses c path i items) (partsEach Clause.parts path i items) := by
  induction items generalizing i with
  | nil => exact .pure ()
  | cons item rest ih =>
      cases item with
      | hole => exact ih (i + 1)
      | clause span target iterable condition =>
          rw [clauses, partsEach, Clause.parts]
          split
          · exact ((Covers.expr _ condition).first fun _ => .pure ()).bind fun _ =>
              (Covers.modifyScope _).after fun _ => ih (i + 1)
          · exact (Covers.expr _ iterable).bind fun _ => (Covers.settle _).after fun _ =>
              (covers_assign c _ _ _ target).bind fun _ => ih (i + 1)

/-! ### Expressions -/

section Builtin

variable {c} {id : Ident} {sig : Signature}

theorem builtinCall_of_hasAny {given : List Arg} {span : Span}
    (h : (c.rules.callBuiltin id.name sig given span).type.hasAny = true) (before : Nat) :
    builtinCall c id sig given before span = settle (c.rules.callBuiltin id.name sig given span) := by
  refine StateT.ext fun s => of_run_bind (fun r => r = _) ?_
  have hset : (!((settle (c.rules.callBuiltin id.name sig given span)).run s).1.hasAny) = false := by
    show (!(c.rules.callBuiltin id.name sig given span).type.hasAny) = false
    rw [h, Bool.not_true]
  rw [hset]
  rfl

theorem taint_builtinCall {given : List Arg} {span : Span}
    (h : (c.rules.callBuiltin id.name sig given span).type.hasAny = false) (before : Nat) (s : State) :
    ((builtinCall c id sig given before span).run s).2.taint = before := by
  refine of_run_bind (fun r => r.2.taint = before) ?_
  have hset : (!((settle (c.rules.callBuiltin id.name sig given span)).run s).1.hasAny) = true := by
    show (!(c.rules.callBuiltin id.name sig given span).type.hasAny) = true
    rw [h, Bool.not_false]
  rw [hset]
  rfl

theorem type_builtinCall (given : List Arg) (before : Nat) (span : Span) (s : State) :
    ((builtinCall c id sig given before span).run s).1 = (c.rules.callBuiltin id.name sig given span).type := by
  refine of_run_bind (fun r => r.1 = _) ?_
  split
  · rfl
  · rfl

/-- The state in which the arguments of a call of a global function are evaluated. -/
def atArguments (path : NodePath) (id : Ident) (sig : Signature) (s : State) : State :=
  s.note (0 :: path) "Identifier" id.span ⟨.function (some sig), false⟩

variable (path : NodePath) (span : Span) {callee : Expr} (items : List ArgExpr) {s : State}
  (h : calleeOf c s.scope callee = .builtin id sig)

include h

theorem exists_eval_builtin : ∃ eval, expr c path (.call span callee items) = noted path "FunctionCall" span eval ∧
    eval.run s =
      (builtinCall c id sig ((args c (1 :: path) 0 items).run (atArguments path id sig s)).1 s.taint span).run
        ((args c (1 :: path) 0 items).run (atArguments path id sig s)).2 := by
  refine ⟨_, rfl, of_run_bind (fun r => r = _) ?_⟩
  have hcallee : calleeOf c (scope.run s).1 callee = .builtin id sig := h
  rw [hcallee]
  rfl

theorem type_builtin : ((expr c path (.call span callee items)).run s).1.type = (c.rules.callBuiltin id.name sig
    ((args c (1 :: path) 0 items).run (atArguments path id sig s)).1 span).type := by
  obtain ⟨eval, heval, hrun⟩ := exists_eval_builtin path span items h
  rw [heval]
  show (eval.run s).1 = _
  rw [hrun, type_builtinCall]

theorem taint_builtin (hprecise : ((expr c path (.call span callee items)).run s).1.type.hasAny = false) :
    ((expr c path (.call span callee items)).run s).2.taint = s.taint := by
  rw [type_builtin path span items h] at hprecise
  obtain ⟨eval, heval, hrun⟩ := exists_eval_builtin path span items h
  rw [heval]
  show (eval.run s).2.taint = s.taint
  rw [hrun, taint_builtinCall hprecise]

theorem exists_meets_builtin (hany : ((expr c path (.call span callee items)).run s).1.type.hasAny = true) :
    ∃ events, Evaluation.Meets c ⟨path, .call span callee items, s⟩ events ∧
      events.filterMap Event.part? = partsEach ArgExpr.parts (1 :: path) 0 items := by
  rw [type_builtin path span items h] at hany
  obtain ⟨events, hevents, hparts⟩ := covers_args c (1 :: path) 0 items (atArguments path id sig s)
  obtain ⟨events', hevents', hparts'⟩ := Covers.settle (c := c) (c.rules.callBuiltin id.name sig
    ((args c (1 :: path) 0 items).run (atArguments path id sig s)).1 span)
    ((args c (1 :: path) 0 items).run (atArguments path id sig s)).2
  rw [← builtinCall_of_hasAny hany s.taint] at hevents'
  refine ⟨events ++ events', ⟨_, _, _, rfl, ?_⟩, by rw [List.filterMap_append, hparts, hparts', List.append_nil]⟩
  refine Meets.atScope ?_
  rw [h]
  exact (Meets.change rfl rfl).bind ((Meets.look _).bind (hevents.bind hevents'))

end Builtin

theorem exists_meets_call (path : NodePath) (span : Span) (callee : Expr) (items : List ArgExpr) (s : State)
    (hE : ¬Evaluation.IsPreciseCall c ⟨path, .call span callee items, s⟩) :
    ∃ events, Evaluation.Meets c ⟨path, .call span callee items, s⟩ events ∧
      events.filterMap Event.part? = partsOf c s.scope path (.call span callee items) := by
  rw [partsOf]
  cases hcallee : calleeOf c s.scope callee with
  | record =>
      have hcovers := (covers_args c (1 :: path) 0 items).first fun given => covers_recordCall c given span
      obtain ⟨events, hevents, hparts⟩ := hcovers s
      refine ⟨events, ⟨_, _, _, rfl, Meets.atScope ?_⟩, hparts⟩
      rw [hcallee]
      exact hevents
  | builtin id sig =>
      refine exists_meets_builtin path span items hcallee ?_
      rw [← Bool.not_eq_false]
      exact fun hprecise => hE ⟨span, callee, items, id, sig, rfl, hcallee, hprecise⟩
  | value =>
      have hcovers := (Covers.expr (c := c) (0 :: path) callee).bind fun f =>
        (covers_args c (1 :: path) 0 items).first fun given =>
          (Covers.settle (c.rules.call f.type given span)).after fun type =>
            (covers_widenOnCall c callee given).after fun _ => .pure type
      obtain ⟨events, hevents, hparts⟩ := hcovers s
      refine ⟨events, ⟨_, _, _, rfl, Meets.atScope ?_⟩, hparts⟩
      rw [hcallee]
      exact hevents

/-- An expression that is no precise call meets events in its evaluation, among them the evaluation of each of its
parts. -/
theorem exists_meets (E : Evaluation) (hhole : E.expr.isHole = false) (hE : ¬E.IsPreciseCall c) :
    ∃ events, E.Meets c events ∧ events.filterMap Event.part? = partsOf c E.state.scope E.path E.expr := by
  obtain ⟨path, e, s⟩ := E
  have hnoted {form : Text} {span : Span} {eval : Check Ty} {parts : List (NodePath × Expr)} (h : Covers c eval parts)
      (heval : expr c path e = noted path form span eval) :
      ∃ events, Evaluation.Meets c ⟨path, e, s⟩ events ∧ events.filterMap Event.part? = parts := by
    obtain ⟨events, hevents, hparts⟩ := h s
    exact ⟨events, ⟨form, span, eval, heval, hevents⟩, hparts⟩
  cases e with
  | hole => cases hhole
  | ident id => exact hnoted (covers_ident c id) rfl
  | str | int | float | bool | none => exact hnoted (.pure _) rfl
  | list span elems | tuple span elems => exact hnoted ((covers_exprs c path 0 elems).first fun _ => .pure _) rfl
  | dict span items => exact hnoted ((covers_entries c path 0 items).first fun _ => .pure _) rfl
  | struct span items => exact hnoted ((covers_fields c path 0 items).first fun _ => .pure _) rfl
  | call span callee items => exact exists_meets_call c path span callee items s hE
  | member span object name => exact hnoted ((Covers.expr _ object).first fun _ => .settle _) rfl
  | index span object index =>
      exact hnoted ((Covers.expr _ object).bind fun _ => (Covers.expr _ index).first fun _ => .settle _) rfl
  | slice span object start stop step =>
      refine hnoted ((Covers.expr _ object).bind fun _ => (Covers.expr _ start).bind fun _ =>
        (covers_sliceBound c _ _ _).after fun _ => (Covers.expr _ stop).bind fun _ =>
        (covers_sliceBound c _ _ _).after fun _ => (Covers.expr _ step).first fun _ =>
        (covers_sliceBound c _ _ _).after fun _ => .settle _) rfl
  | binary span op left right =>
      refine hnoted ((Covers.expr _ left).bind fun _ => .ite ?_ ?_) rfl
      · exact Covers.scope.after fun _ => (Covers.expr _ right).aside.first fun _ => .pure _
      · exact (Covers.expr _ right).first fun _ => .settle _
  | unary span op operand => exact hnoted ((Covers.expr _ operand).first fun _ => .settle _) rfl
  | conditional span condition yes no =>
      exact hnoted (((Covers.expr _ condition).first fun _ => .pure ()).bind fun _ => Covers.scope.after fun _ =>
        (Covers.expr _ yes).aside.bind fun _ => (Covers.expr _ no).aside.first fun _ => .pure _) rfl
  | lambda span params body =>
      exact hnoted ((covers_paramDecls c _ 0 params).bind fun _ => (covers_signatureOf c _ _ _).after fun _ =>
        Covers.first (.aside ((covers_bindParams c _ _ 0 params).after fun _ => (Covers.expr _ body).inBody))
          fun _ => .pure _) rfl
  | listComp span elem items =>
      exact hnoted (.aside ((covers_clauses c _ 0 items).bind fun _ => (Covers.expr _ elem).first fun _ => .pure _)) rfl
  | dictComp span key value items =>
      exact hnoted (.aside ((covers_clauses c _ 0 items).bind fun _ => (Covers.expr _ key).bind fun _ =>
        (Covers.expr _ value).first fun _ => .pure _)) rfl

end Walks

namespace Evaluation

variable {c : Setup} {E : Evaluation} {events : List Event}

theorem Meets.taint_le (h : E.Meets c events)
    (hparts : ∀ F, .evaluates F ∈ events → F.state.taint ≤ (F.run c).2.taint) :
    E.state.taint ≤ (E.run c).2.taint ∧ (E.IsApproximate c ↔ ∃ event ∈ events, event.IsApproximate c) := by
  obtain ⟨form, span, eval, heval, hevents⟩ := h
  have htaint : (E.run c).2.taint = (eval.run E.state).2.taint := by
    rw [run, heval]
    rfl
  rw [isApproximate_iff, htaint]
  exact hevents.taint_le hparts

theorem isApproximate_of_isPreciseCall (h : E.IsPreciseCall c) : (E.run c).1.isApproximate = false := by
  obtain ⟨path, e, s⟩ := E
  obtain ⟨span, callee, items, id, sig, rfl, hcallee, hprecise⟩ := h
  rw [isApproximate_eq_false_iff]
  exact taint_builtin path span items hcallee hprecise

theorem sizeOf_lt_of_evaluates {F : Evaluation} (h : .evaluates F ∈ events)
    (hparts : events.filterMap Event.part? = partsOf c E.state.scope E.path E.expr) :
    sizeOf F.expr < sizeOf E.expr := by
  have hpart : (F.path, F.expr) ∈ partsOf c E.state.scope E.path E.expr := by
    rw [← hparts]
    exact List.mem_filterMap.mpr ⟨.evaluates F, h, rfl⟩
  exact sizeOf_lt_of_mem_partsOf c E.state.scope hpart

/-- The count does not fall when an expression is evaluated. A precise call sets it back, but only as far as its own
beginning. -/
theorem taint_le (c : Setup) (E : Evaluation) : E.state.taint ≤ (E.run c).2.taint := by
  induction hsize : sizeOf E.expr using Nat.strongRecOn generalizing E with
  | ind n ih =>
      subst hsize
      by_cases hprecise : E.IsPreciseCall c
      · have hsame := isApproximate_of_isPreciseCall hprecise
        exact Nat.le_of_eq ((isApproximate_eq_false_iff E).mp hsame).symm
      · cases hhole : E.expr.isHole with
        | true =>
            obtain ⟨path, e, s⟩ := E
            cases e with
            | hole => exact Nat.le_refl _
            | _ => cases hhole
        | false =>
            obtain ⟨events, hevents, hparts⟩ := exists_meets c E hhole hprecise
            exact (hevents.taint_le fun F hF => ih _ (sizeOf_lt_of_evaluates hF hparts) F rfl).1

theorem Meets.isApproximate_iff (h : E.Meets c events) :
    E.IsApproximate c ↔ ∃ event ∈ events, event.IsApproximate c :=
  (h.taint_le fun F _ => Evaluation.taint_le c F).2

theorem isApproximate_of_restsOnApproximation (h : E.RestsOnApproximation c) : E.IsApproximate c := by
  induction h with
  | approximates _ h ha => exact h.isApproximate_iff.mpr ⟨_, ha, trivial⟩
  | reads _ h hname => exact h.isApproximate_iff.mpr ⟨_, hname, trivial⟩
  | part _ h _ ih =>
      obtain ⟨events, hevents, hF⟩ := h
      exact hevents.isApproximate_iff.mpr ⟨_, hF, ih⟩

theorem restsOnApproximation_of_isApproximate (h : E.IsApproximate c) : E.RestsOnApproximation c := by
  induction hsize : sizeOf E.expr using Nat.strongRecOn generalizing E with
  | ind n ih =>
      subst hsize
      have hprecise : ¬E.IsPreciseCall c := fun hprecise =>
        absurd h (ne_true_of_eq_false (isApproximate_of_isPreciseCall hprecise))
      have hhole : E.expr.isHole = false := by
        obtain ⟨path, e, s⟩ := E
        cases e with
        | hole => cases h
        | _ => rfl
      obtain ⟨events, hevents, hparts⟩ := exists_meets c E hhole hprecise
      obtain ⟨event, hevent, happroximate⟩ := hevents.isApproximate_iff.mp h
      cases event with
      | evaluates F =>
          exact .part hprecise ⟨events, hevents, hevent⟩
            (ih _ (sizeOf_lt_of_evaluates hevent hparts) happroximate rfl)
      | approximates a => exact .approximates hprecise hevents hevent
      | reads name => exact .reads hprecise hevents hevent

theorem isApproximate_of_name {id : Ident} (hE : E.expr = .ident id) (hname : IsApproximateName c E.state id.name) :
    E.IsApproximate c := by
  obtain ⟨path, e, s⟩ := E
  cases hE
  have hmeets : Evaluation.Meets c ⟨path, .ident id, s⟩ [.reads id.name] := ⟨_, _, _, rfl, meets_ident c hname⟩
  exact hmeets.isApproximate_iff.mpr ⟨_, List.mem_singleton.mpr rfl, trivial⟩

theorem IsPartOf.dead_eq {F : Evaluation} (h : F.IsPartOf c E) : F.state.dead = E.state.dead := by
  obtain ⟨events, ⟨_, _, _, _, hevents⟩, hF⟩ := h
  exact hevents.dead_eq.2 F hF

end Evaluation

/-- What is noted of an expression in live code tells exactly whether it is approximate. A precise call is not, whatever
its arguments are. Any other expression is, if one of the parts that are evaluated for it is; these are the parts that
its form shows. So an expression is approximate exactly if an approximation or an approximate name lies beneath it,
outside of every precise call. -/
theorem expr_isApproximate_exactly (c : Setup) (E : Evaluation) (hhole : E.expr.isHole = false)
    (hlive : E.state.dead = 0) :
    (E.run c).2.types.get? E.path = some (E.run c).1 ∧
    (E.IsPreciseCall c → (E.run c).1.isApproximate = false) ∧
    (¬E.IsPreciseCall c →
      (∀ F : Evaluation, F.IsPartOf c E → F.state.dead = 0 ∧ (F.IsApproximate c → E.IsApproximate c)) ∧
      ∃ events, E.Meets c events ∧ events.filterMap Event.part? = partsOf c E.state.scope E.path E.expr) ∧
    (∀ id, E.expr = .ident id → IsApproximateName c E.state id.name → E.IsApproximate c) ∧
    (E.IsApproximate c ↔ E.RestsOnApproximation c) := by
  refine ⟨get?_expr c E.path hhole hlive, fun hprecise => ?_, fun hprecise => ⟨fun F hF => ?_, ?_⟩, ?_, ?_⟩
  · exact Evaluation.isApproximate_of_isPreciseCall hprecise
  · refine ⟨hF.dead_eq.trans hlive, fun happroximate => ?_⟩
    obtain ⟨events, hevents, hmem⟩ := hF
    exact hevents.isApproximate_iff.mpr ⟨_, hmem, happroximate⟩
  · exact exists_meets c E hhole hprecise
  · exact fun id hE hname => Evaluation.isApproximate_of_name hE hname
  · exact ⟨Evaluation.restsOnApproximation_of_isApproximate, Evaluation.isApproximate_of_restsOnApproximation⟩

/-- A name for something that is not known: `x` after it was loaded from nowhere. -/
def holdsUnknown : State := { scope := { own := { symbols := .ofList [("x", ⟨.any, true⟩)] } } }

/-- The length of something: `len(x)`. -/
def lengthOf : Expr := .call {} (.ident ⟨{}, "len"⟩) [.arg {} "positional" "" (.ident ⟨{}, "x"⟩)]

/-- A list of something that is not known and of its length, `[x, len(x)]`, is approximate for the first element; the
length is not, in the state that it is evaluated in. -/
theorem expr_isApproximate_exactly_lengthOf :
    let c : Setup := { rules := ⟨.standard, .lint⟩ }
    let E : Evaluation := ⟨[], .list {} [.ident ⟨{}, "x"⟩, lengthOf], holdsUnknown⟩
    let F : Evaluation := ⟨[1], lengthOf, (Evaluation.run c ⟨[0], .ident ⟨{}, "x"⟩, holdsUnknown⟩).2⟩
    (E.expr.isHole = false ∧ E.state.dead = 0 ∧ ¬E.IsPreciseCall c ∧ E.RestsOnApproximation c) ∧
      F.expr.isHole = false ∧ F.state.dead = 0 ∧ F.IsPreciseCall c ∧ (F.run c).1.isApproximate = false := by
  intro c E F
  have hlist := expr_isApproximate_exactly c E rfl rfl
  have hlength := expr_isApproximate_exactly c F rfl (by decide +kernel)
  have hprecise : F.IsPreciseCall c := ⟨_, _, _, _, _, rfl, rfl, by decide +kernel⟩
  have happroximate : E.IsApproximate c := (by decide +kernel : (E.run c).1.isApproximate = true)
  refine ⟨⟨rfl, rfl, ?_, hlist.2.2.2.2.mp happroximate⟩, rfl, by decide +kernel, hprecise, hlength.2.1 hprecise⟩
  rintro ⟨_, _, _, _, _, h, _⟩
  cases h

end Check

end Gradual
