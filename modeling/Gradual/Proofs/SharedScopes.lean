import Gradual.Proofs.ExpressionParts
import Gradual.Proofs.Liveness

/-! Which parts of an expression are evaluated in its own scope, and which in copies. The right operand of `and` and
`or` and the branches of a conditional expression are evaluated in copies of the scope, which are given up; all other
parts outside lambdas and comprehensions share it. Evaluating an expression passes each part that shares its scope: up
to there and from there on, other expressions are evaluated, and none at the place of the part. -/

namespace Gradual

/-! ### Parts and scopes -/

namespace Expr

/-- The parts of an expression that are evaluated in its own scope. -/
def ownParts (path : NodePath) : Expr → List (NodePath × Expr)
  | .list _ elems | .tuple _ elems => partsEach (fun path e => [(path, e)]) path 0 elems
  | .dict _ items => partsEach DictEntry.parts path 0 items
  | .struct _ items => partsEach FieldExpr.parts path 0 items
  | .call _ callee items => (0 :: path, callee) :: partsEach ArgExpr.parts (1 :: path) 0 items
  | .member _ object _ => [(0 :: path, object)]
  | .index _ object at_ => [(0 :: path, object), (1 :: path, at_)]
  | .slice _ object start stop step => [(0 :: path, object), (1 :: path, start), (2 :: path, stop), (3 :: path, step)]
  | .binary _ op left right =>
    if op = "and" || op = "or" then [(0 :: path, left)] else [(0 :: path, left), (1 :: path, right)]
  | .unary _ _ operand => [(0 :: path, operand)]
  | .conditional _ condition _ _ => [(0 :: path, condition)]
  | _ => []

/-- The parts of an expression that are evaluated in copies of its scope. -/
def copiedParts (path : NodePath) : Expr → List (NodePath × Expr)
  | .binary _ op _ right => if op = "and" || op = "or" then [(1 :: path, right)] else []
  | .conditional _ _ yes no => [(1 :: path, yes), (2 :: path, no)]
  | _ => []

/-- A part of a part, and so on, of the expression at a place; lambdas and comprehensions are not entered. -/
inductive Occurs (q : NodePath × Expr) : NodePath → Expr → Prop
  | self : Occurs q q.1 q.2
  | part {path : NodePath} {e : Expr} {p : NodePath × Expr} (hp : p ∈ e.ownParts path ++ e.copiedParts path)
      (h : Occurs q p.1 p.2) : Occurs q path e

/-- A part of a part, and so on, that is evaluated in the scope of the expression at a place. -/
inductive SharesScope (q : NodePath × Expr) : NodePath → Expr → Prop
  | self : SharesScope q q.1 q.2
  | part {path : NodePath} {e : Expr} {p : NodePath × Expr} (hp : p ∈ e.ownParts path)
      (h : SharesScope q p.1 p.2) : SharesScope q path e

variable {path : NodePath} {e : Expr} {p q : NodePath × Expr}

theorem SharesScope.occurs (h : SharesScope q path e) : Occurs q path e := by
  induction h with
  | self => exact .self
  | part hp _ ih => exact .part (List.mem_append_left _ hp) ih

/-- What does not share the scope of an expression is in a copy that some part makes of it. -/
theorem Occurs.sharesScope_or (h : Occurs q path e) : SharesScope q path e ∨
    ∃ b : NodePath × Expr, SharesScope b path e ∧ ∃ p ∈ b.2.copiedParts b.1, Occurs q p.1 p.2 := by
  induction h with
  | self => exact Or.inl .self
  | @part path e p hp h ih =>
      rcases List.mem_append.mp hp with hown | hcopied
      · rcases ih with hshares | ⟨b, hb, hin⟩
        · exact Or.inl (.part hown hshares)
        · exact Or.inr ⟨b, .part hown hb, hin⟩
      · exact Or.inr ⟨(path, e), .self, p, hcopied, h⟩

end Expr

theorem below_of_mem_partsEach {α : Type} {parts : NodePath → α → List (NodePath × Expr)} {path : NodePath}
    {p : NodePath × Expr} (hparts : ∀ at_ a, p ∈ parts at_ a → at_ <:+ p.1) {i : Nat} {items : List α}
    (h : p ∈ partsEach parts path i items) : ∃ j, j :: path <:+ p.1 := by
  induction items generalizing i with
  | nil => cases h
  | cons a rest ih =>
      rcases List.mem_append.mp h with h | h
      · exact ⟨i, hparts _ a h⟩
      · exact ih h

theorem Expr.below_of_mem_ownParts {path : NodePath} {e : Expr} {p : NodePath × Expr} (h : p ∈ e.ownParts path) :
    ∃ j, j :: path <:+ p.1 := by
  cases e with
  | list | tuple =>
      exact below_of_mem_partsEach (fun at_ a ha => List.mem_singleton.mp ha ▸ List.suffix_rfl) h
  | dict =>
      refine below_of_mem_partsEach (fun at_ a ha => ?_) h
      cases a with
      | hole => cases ha
      | entry =>
          simp only [DictEntry.parts, List.mem_cons, List.not_mem_nil, or_false] at ha
          rcases ha with rfl | rfl <;> exact List.suffix_cons _ _
  | struct =>
      refine below_of_mem_partsEach (fun at_ a ha => ?_) h
      cases a with
      | hole => cases ha
      | field => exact List.mem_singleton.mp ha ▸ List.suffix_cons _ _
  | call =>
      rcases List.mem_cons.mp h with rfl | h
      · exact ⟨0, List.suffix_rfl⟩
      · obtain ⟨j, hj⟩ := below_of_mem_partsEach (fun at_ a ha => by
          cases a with
          | hole => cases ha
          | arg => exact List.mem_singleton.mp ha ▸ List.suffix_cons _ _) h
        exact ⟨1, (List.suffix_cons j _).trans hj⟩
  | member | unary | conditional => exact ⟨0, List.mem_singleton.mp h ▸ List.suffix_rfl⟩
  | index =>
      simp only [ownParts, List.mem_cons, List.not_mem_nil, or_false] at h
      rcases h with rfl | rfl <;> exact ⟨_, List.suffix_rfl⟩
  | slice =>
      simp only [ownParts, List.mem_cons, List.not_mem_nil, or_false] at h
      rcases h with rfl | rfl | rfl | rfl <;> exact ⟨_, List.suffix_rfl⟩
  | binary =>
      rw [ownParts] at h
      split at h
      · exact ⟨0, List.mem_singleton.mp h ▸ List.suffix_rfl⟩
      · simp only [List.mem_cons, List.not_mem_nil, or_false] at h
        rcases h with rfl | rfl <;> exact ⟨_, List.suffix_rfl⟩
  | _ => cases h

theorem Expr.SharesScope.eq_ident {q : NodePath × Expr} {path : NodePath} {e : Expr} (h : SharesScope q path e)
    {id : Ident} (he : e = .ident id) : q.2 = .ident id := by
  cases h with
  | self => exact he
  | part hp _ =>
      subst he
      cases hp

theorem Expr.SharesScope.suffix {q : NodePath × Expr} {path : NodePath} {e : Expr} (h : SharesScope q path e) :
    path <:+ q.1 := by
  induction h with
  | self => exact List.suffix_rfl
  | part hp _ ih =>
      obtain ⟨j, hj⟩ := below_of_mem_ownParts hp
      exact (List.suffix_cons j _).trans (hj.trans ih)

/-! ### Evaluations on the way -/

theorem State.Moves.mono {K K' : Check.StepKinds} {s s' : State} (h : s.Moves K s')
    (hnoted : ∀ path, K.Noted path → K'.Noted path) (hrebound : ∀ f, K.Rebound f → K'.Rebound f)
    (hleaves : K.Leaves → K'.Leaves) : s.Moves K' s' where
  dead := h.dead
  notes := by
    obtain ⟨notes, hnotes, hall⟩ := h.notes
    exact ⟨notes, hnotes, fun n hn => hnoted n.path (hall n hn)⟩
  loops hnot := h.loops fun hleft => hnot (hleaves hleft)
  functions hnot := h.functions fun hleft => hnot (hleaves hleft)
  kept P hP := h.kept P fun f hf hbound => hP f hf (hrebound f hbound)

namespace Check

theorem not_suffix_of_below {i : Nat} {path place : NodePath} (h : i :: path <:+ place) : ¬place <:+ path := by
  intro habove
  have hlength := (h.trans habove).length_le
  rw [List.length_cons] at hlength
  omega

/-- What evaluating expressions does that are not at a place or below it. -/
def StepKinds.apart (place : NodePath) : StepKinds := { evaluating place with Noted := fun path => ¬place <:+ path }

theorem StepKinds.evaluates_apart {place away : NodePath} (h : ∀ path, away <:+ path → ¬place <:+ path) (r : Rules) :
    (apart place).Evaluates away away r r where
  judged := r.related_self fun _ => rfl
  noted hnoted := h _ hnoted
  there := Alongside.eq
  rebound := id

/-- A walk evaluates an expression at a place on its way; before that and after it, other expressions may be evaluated
in the same scope, and none at that place. -/
def Passes (c : Setup) (q : NodePath × Expr) {α : Type} (walk : Check α) : Prop :=
  ∀ s : State, ∃ entered : State, s.Moves (.evaluating []) entered ∧
    State.Moves (.apart q.1) ((expr c q.1 q.2).run entered).2 (walk.run s).2

section Passes

variable {c : Setup} {q : NodePath × Expr} {α β : Type}

theorem passes_self (c : Setup) (q : NodePath × Expr) : Passes c q (expr c q.1 q.2) := fun s => ⟨s, .refl s, .refl _⟩

theorem Passes.bind {m : Check α} {k : α → Check β} (h : Passes c q m)
    (hnext : ∀ a (s : State), s.Moves (.apart q.1) ((k a).run s).2) : Passes c q (m >>= k) := by
  intro s
  obtain ⟨entered, hbefore, hafter⟩ := h s
  exact ⟨entered, hbefore, hafter.trans (hnext _ _)⟩

theorem Passes.after {m : Check α} {k : α → Check β} (hm : ∀ s : State, s.Moves (.evaluating []) (m.run s).2)
    (h : ∀ a, Passes c q (k a)) : Passes c q (m >>= k) := by
  intro s
  obtain ⟨entered, hbefore, hafter⟩ := h (m.run s).1 (m.run s).2
  exact ⟨entered, (hm s).trans hbefore, hafter⟩

theorem Passes.trans {p : NodePath × Expr} {walk : Check α} (h : Passes c p walk) (hp : Passes c q (expr c p.1 p.2))
    (hbelow : p.1 <:+ q.1) : Passes c q walk := by
  intro s
  obtain ⟨entered, hbefore, hafter⟩ := h s
  obtain ⟨entered', hbefore', hafter'⟩ := hp entered
  refine ⟨entered', hbefore.trans hbefore', hafter'.trans (hafter.mono ?_ (fun _ hf => hf) id)⟩
  exact fun path hnoted hbelow' => hnoted (hbelow.trans hbelow')

theorem Passes.noted {path : NodePath} {eval : Check Ty} (h : Passes c q eval) (hpath : ¬q.1 <:+ path) (form : Text)
    (span : Span) : Passes c q (noted path form span eval) := by
  intro s
  obtain ⟨entered, hbefore, hafter⟩ := h s
  refine ⟨entered, hbefore, hafter.trans ⟨rfl, ⟨[_], rfl, ?_⟩, fun _ => rfl, fun _ => rfl, fun _ _ hs => hs⟩⟩
  exact List.forall_mem_singleton.mpr hpath

end Passes

/-! ### Items -/

section Items

variable (c : Setup) {path : NodePath} {q : NodePath × Expr}

theorem moves_expr_anywhere (path : NodePath) (e : Expr) (s : State) :
    s.Moves (.evaluating []) ((expr c path e).run s).2 :=
  (moves_expr c path s e).mono (fun _ _ => List.nil_suffix) (fun _ hf => hf) id

theorem moves_note_anywhere (path : NodePath) (form : Text) (span : Span) (info : TypeInfo) (s : State) :
    s.Moves (.evaluating []) ((note path form span info).run s).2 :=
  (InStep.note (K := .evaluating []) List.nil_suffix rfl form span info).moves s

theorem moves_expr_apart {place away : NodePath} (h : ∀ path, away <:+ path → ¬place <:+ path) (e : Expr) (s : State) :
    s.Moves (.apart place) ((expr c away e).run s).2 :=
  (inStep_expr c (StepKinds.evaluates_apart h c.rules) .self e).moves s

theorem moves_note_apart {place path : NodePath} (h : ¬place <:+ path) (form : Text) (span : Span) (info : TypeInfo)
    (s : State) : s.Moves (.apart place) ((note path form span info).run s).2 :=
  (InStep.note (K := .apart place) h rfl form span info).moves s

theorem evaluates_later {i : Nat} {place : NodePath} (h : i :: path <:+ place) (r : Rules) (j : Nat) (hj : i + 1 ≤ j) :
    (StepKinds.apart place).Evaluates (j :: path) (j :: path) r r :=
  StepKinds.evaluates_apart (fun _ hbelow hplace => not_below_sibling (by omega) (h.trans hplace) hbelow) r

theorem passes_exprs {i : Nat} {elems : List Expr} (hq : q ∈ partsEach (fun path e => [(path, e)]) path i elems) :
    Passes c q (exprs c path i elems) := by
  induction elems generalizing i with
  | nil => cases hq
  | cons e rest ih =>
      rcases List.mem_append.mp hq with hq | hq
      · cases List.mem_singleton.mp hq
        refine (passes_self c (i :: path, e)).bind fun _ s => ?_
        exact (inStep_exprs c (i + 1) (evaluates_later List.suffix_rfl c.rules) rest).moves s
      · exact .after (moves_expr_anywhere c (i :: path) e) fun _ => (ih hq).bind fun _ s => .refl s

theorem passes_entries {i : Nat} {items : List DictEntry} (hq : q ∈ partsEach DictEntry.parts path i items) :
    Passes c q (entries c path i items) := by
  induction items generalizing i with
  | nil => cases hq
  | cons item rest ih =>
      cases item with
      | hole => exact ih hq
      | entry span key value =>
          have hrest (place : NodePath) (h : i :: path <:+ place) (s : State) :
              s.Moves (.apart place) ((entries c path (i + 1) rest).run s).2 :=
            (inStep_entries c (i + 1) (evaluates_later h c.rules) rest).moves s
          simp only [partsEach, DictEntry.parts, List.cons_append, List.nil_append, List.mem_cons] at hq
          rcases hq with rfl | rfl | hq
          · refine (passes_self c (0 :: i :: path, key)).bind fun _ s => ?_
            refine (moves_expr_apart c (fun _ hbelow hplace => ?_) value s).trans (hrest _ (List.suffix_cons 0 _) _)
            exact not_below_sibling (by decide) hplace hbelow
          · refine .after (moves_expr_anywhere c _ key) fun _ => ?_
            exact (passes_self c (1 :: i :: path, value)).bind fun _ s => hrest _ (List.suffix_cons 1 _) s
          · refine .after (moves_expr_anywhere c _ key) fun _ => .after (moves_expr_anywhere c _ value) fun _ => ?_
            exact (ih hq).bind fun _ s => .refl s

theorem passes_fields {i : Nat} {items : List FieldExpr} (hq : q ∈ partsEach FieldExpr.parts path i items) :
    Passes c q (fields c path i items) := by
  induction items generalizing i with
  | nil => cases hq
  | cons item rest ih =>
      cases item with
      | hole => exact ih hq
      | field span name value =>
          simp only [partsEach, FieldExpr.parts, List.cons_append, List.nil_append, List.mem_cons] at hq
          rcases hq with rfl | hq
          · refine (passes_self c (0 :: i :: path, value)).bind fun v s => ?_
            refine (moves_note_apart (not_suffix_of_below List.suffix_rfl) "StructField" span ⟨v.type, false⟩
              _).trans ?_
            exact (inStep_fields c (i + 1) (evaluates_later (List.suffix_cons 0 _) c.rules) rest).moves _
          · refine .after (moves_expr_anywhere c _ value) fun _ => .after (moves_note_anywhere _ _ _ _) fun _ => ?_
            exact (ih hq).bind fun _ s => .refl s

theorem passes_args {i : Nat} {items : List ArgExpr} (hq : q ∈ partsEach ArgExpr.parts path i items) :
    Passes c q (args c path i items) := by
  induction items generalizing i with
  | nil => cases hq
  | cons item rest ih =>
      cases item with
      | hole => exact ih hq
      | arg span kind name value =>
          simp only [partsEach, ArgExpr.parts, List.cons_append, List.nil_append, List.mem_cons] at hq
          rcases hq with rfl | hq
          · refine (passes_self c (0 :: i :: path, value)).bind fun v s => ?_
            refine (moves_note_apart (not_suffix_of_below List.suffix_rfl) "Argument" span ⟨v.type, false⟩ s).trans ?_
            exact (inStep_args c (i + 1) (evaluates_later (List.suffix_cons 0 _) c.rules) rest).moves _
          · refine .after (moves_expr_anywhere c _ value) fun _ => .after (moves_note_anywhere _ _ _ _) fun _ => ?_
            exact (ih hq).bind fun _ s => .refl s

end Items

/-! ### Expressions -/

section Expressions

variable (c : Setup) {path : NodePath} {q : NodePath × Expr}

theorem apart_sibling {i j : Nat} (hne : i ≠ j) (away : NodePath) (h : j :: path <:+ away) : ¬i :: path <:+ away :=
  not_below_sibling hne.symm h

theorem moves_widenOnCall_apart (callee : Expr) (given : List Arg) (place : NodePath) (s : State) :
    s.Moves (.apart place) ((widenOnCall callee given).run s).2 :=
  (inStep_widenOnCall (K := .apart place) id callee given).moves s

theorem moves_sliceBound (K : StepKinds) (value : Ty) (span : Span) (bound : TypeInfo) (s : State) :
    s.Moves K ((sliceBound value span bound).run s).2 :=
  (inStep_sliceBound value span bound).moves s

theorem passes_call {span : Span} {callee : Expr} {items : List ArgExpr}
    (hq : q ∈ (Expr.call span callee items).ownParts path) (hname : ∀ id, q.2 ≠ .ident id) :
    Passes c q (expr c path (.call span callee items)) := by
  obtain ⟨j, hbelow⟩ := Expr.below_of_mem_ownParts hq
  have hjudged : c.rules.Related (StepKinds.apart q.1).Judged c.rules := c.rules.related_self fun _ => rfl
  refine Passes.noted (Passes.after (fun s => .refl s) fun scope => ?_) (not_suffix_of_below hbelow) _ _
  rcases List.mem_cons.mp hq with rfl | hq
  · have hvalue : calleeOf c scope callee = .value := by
      cases callee with
      | ident id => exact absurd rfl (hname id)
      | _ => rfl
    rw [hvalue]
    refine (passes_self c (0 :: path, callee)).bind fun f s => ?_
    have hargs := (inStep_args c (K := .apart (0 :: path)) 0 (fun j _ => StepKinds.evaluates_apart
      (fun away h => apart_sibling Nat.zero_ne_one away ((List.suffix_cons j _).trans h)) c.rules) items).moves s
    exact (hargs.trans (moves_settle _ _ _)).trans (moves_widenOnCall_apart callee _ _ _)
  · cases calleeOf c scope callee with
    | record => exact (passes_args c hq).bind fun given => (inStep_recordCall c hjudged given span).moves
    | builtin id sig =>
        refine .after (moves_note_anywhere _ _ _ _) fun _ => .after (fun s => .refl s) fun before => ?_
        exact (passes_args c hq).bind fun given => (inStep_builtinCall c hjudged id sig given before.taint span).moves
    | value =>
        refine .after (moves_expr_anywhere c _ callee) fun f => (passes_args c hq).bind fun given s => ?_
        exact (moves_settle s _ _).trans (moves_widenOnCall_apart callee given _ _)

theorem passes_slice {span : Span} {object start stop step : Expr}
    (hq : q ∈ (Expr.slice span object start stop step).ownParts path) :
    Passes c q (expr c path (.slice span object start stop step)) := by
  obtain ⟨j, hbelow⟩ := Expr.below_of_mem_ownParts hq
  have hbound (i j : Nat) (hne : i ≠ j) (value : Ty) (bound : Expr) (s : State) :
      s.Moves (.apart (i :: path)) ((expr c (j :: path) bound >>= sliceBound value bound.span).run s).2 :=
    (moves_expr_apart c (apart_sibling hne) bound s).trans (moves_sliceBound _ _ _ _ _)
  simp only [Expr.ownParts, List.mem_cons, List.not_mem_nil, or_false] at hq
  refine Passes.noted ?_ (not_suffix_of_below hbelow) _ _
  rcases hq with rfl | rfl | rfl | rfl
  · refine (passes_self c (0 :: path, object)).bind fun value s => ?_
    have hbounds := ((hbound 0 1 (by decide) value.type start s).trans (hbound 0 2 (by decide) value.type stop _)).trans
      (hbound 0 3 (by decide) value.type step _)
    exact hbounds.trans (moves_settle _ _ _)
  · refine .after (moves_expr_anywhere c _ object) fun value => (passes_self c (1 :: path, start)).bind fun b s => ?_
    have hstop := (moves_sliceBound _ value.type start.span b s).trans (hbound 1 2 (by decide) value.type stop _)
    have hbounds := hstop.trans (hbound 1 3 (by decide) value.type step _)
    exact hbounds.trans (moves_settle _ _ _)
  · refine .after (moves_expr_anywhere c _ object) fun value => .after (moves_expr_anywhere c _ start) fun b =>
      .after (moves_sliceBound _ value.type start.span b) fun _ => ?_
    refine (passes_self c (2 :: path, stop)).bind fun b s => ?_
    have hbounds := (moves_sliceBound _ value.type stop.span b s).trans (hbound 2 3 (by decide) value.type step _)
    exact hbounds.trans (moves_settle _ _ _)
  · refine .after (moves_expr_anywhere c _ object) fun value => .after (moves_expr_anywhere c _ start) fun b =>
      .after (moves_sliceBound _ value.type start.span b) fun _ => .after (moves_expr_anywhere c _ stop) fun b =>
      .after (moves_sliceBound _ value.type stop.span b) fun _ => ?_
    refine (passes_self c (3 :: path, step)).bind fun b s => ?_
    exact (moves_sliceBound _ value.type step.span b s).trans (moves_settle _ _ _)

theorem passes_binary {span : Span} {op : Text} {left right : Expr}
    (hq : q ∈ (Expr.binary span op left right).ownParts path) :
    Passes c q (expr c path (.binary span op left right)) := by
  obtain ⟨j, hbelow⟩ := Expr.below_of_mem_ownParts hq
  have hK : (StepKinds.apart (0 :: path)).Evaluates (1 :: path) (1 :: path) c.rules c.rules :=
    StepKinds.evaluates_apart (apart_sibling Nat.zero_ne_one) c.rules
  have hleft : Passes c (0 :: path, left) (expr c path (.binary span op left right)) := by
    refine Passes.noted ((passes_self c (0 :: path, left)).bind fun l s => ?_) (not_suffix_of_below List.suffix_rfl) _ _
    split
    · exact (InStep.scope.bind fun _ =>
        (InStep.aside _ (inStep_expr c hK.aside.toEvaluates .self right)).bind fun _ => .pure _).moves s
    · exact (moves_expr_apart c (apart_sibling Nat.zero_ne_one) right s).trans (moves_settle _ _ _)
  rw [Expr.ownParts] at hq
  split at hq
  · cases List.mem_singleton.mp hq
    exact hleft
  · next hop =>
    simp only [List.mem_cons, List.not_mem_nil, or_false] at hq
    rcases hq with rfl | rfl
    · exact hleft
    · refine Passes.noted (.after (moves_expr_anywhere c _ left) fun l => ?_) (not_suffix_of_below hbelow) _ _
      rw [if_neg hop]
      exact (passes_self c (1 :: path, right)).bind fun _ s => moves_settle s _ _

theorem passes_expr {e : Expr} (hq : q ∈ e.ownParts path) (hname : ∀ id, q.2 ≠ .ident id) :
    Passes c q (expr c path e) := by
  obtain ⟨j, hbelow⟩ := Expr.below_of_mem_ownParts hq
  have hpath := not_suffix_of_below hbelow
  cases e with
  | hole | ident | str | int | float | bool | none | lambda | listComp | dictComp => cases hq
  | list span elems | tuple span elems =>
      exact Passes.noted ((passes_exprs c hq).bind fun _ s => .refl s) hpath _ _
  | dict span items => exact Passes.noted ((passes_entries c hq).bind fun _ s => .refl s) hpath _ _
  | struct span items => exact Passes.noted ((passes_fields c hq).bind fun _ s => .refl s) hpath _ _
  | call span callee items => exact passes_call c hq hname
  | member span object name =>
      cases List.mem_singleton.mp hq
      exact Passes.noted ((passes_self c _).bind fun _ s => moves_settle s _ _) hpath _ _
  | unary span op operand =>
      cases List.mem_singleton.mp hq
      exact Passes.noted ((passes_self c _).bind fun _ s => moves_settle s _ _) hpath _ _
  | index span object at_ =>
      simp only [Expr.ownParts, List.mem_cons, List.not_mem_nil, or_false] at hq
      refine Passes.noted ?_ hpath _ _
      rcases hq with rfl | rfl
      · refine (passes_self c (0 :: path, object)).bind fun _ s => ?_
        exact (moves_expr_apart c (apart_sibling (by decide)) at_ s).trans (moves_settle _ _ _)
      · refine .after (moves_expr_anywhere c _ object) fun _ => ?_
        exact (passes_self c (1 :: path, at_)).bind fun _ s => moves_settle s _ _
  | slice span object start stop step => exact passes_slice c hq
  | binary span op left right => exact passes_binary c hq
  | conditional span condition yes no =>
      cases List.mem_singleton.mp hq
      have hK (j : Nat) (hne : 0 ≠ j) :
          (StepKinds.apart (0 :: path)).Evaluates (j :: path) (j :: path) c.rules c.rules :=
        StepKinds.evaluates_apart (apart_sibling hne) c.rules
      have htested : Passes c (0 :: path, condition) (discard (expr c (0 :: path) condition)) := fun s =>
        ⟨s, .refl s, .refl _⟩
      refine Passes.noted (htested.bind fun _ s => ?_) hpath _ _
      exact (InStep.scope.bind fun _ =>
        (InStep.aside _ (inStep_expr c (hK 1 (by decide)).aside.toEvaluates .self yes)).bind fun _ =>
          (InStep.aside _ (inStep_expr c (hK 2 (by decide)).aside.toEvaluates .self no)).bind fun _ => .pure _).moves s

/-- An expression passes whatever shares its scope. -/
theorem passes_of_sharesScope {e : Expr} (h : Expr.SharesScope q path e) (hname : ∀ id, q.2 ≠ .ident id) :
    Passes c q (expr c path e) := by
  induction h with
  | self => exact passes_self c q
  | @part path e p hp hq ih =>
      -- A part that is a name may be left out as the name of a global function; nothing but itself occurs in it.
      exact (passes_expr c hp fun id hid => hname id (hq.eq_ident hid)).trans ih hq.suffix

/-- What an expression evaluates in copies of its scope comes after one part of its own, and leaves the scope as it is
after that. -/
theorem exists_scope_of_copiedParts {e : Expr} {p : NodePath × Expr} (hp : p ∈ e.copiedParts path) :
    ∃ first, e.ownParts path = [first] ∧
      ∀ s, ((expr c path e).run s).2.scope = ((expr c first.1 first.2).run s).2.scope := by
  cases e with
  | binary span op left right =>
      rw [Expr.copiedParts] at hp
      split at hp
      · next hop =>
        refine ⟨(0 :: path, left), if_pos hop, fun s => ?_⟩
        simp only [expr, if_pos hop]
        rfl
      · cases hp
  | conditional => exact ⟨_, rfl, fun s => rfl⟩
  | _ => cases hp

end Expressions

end Check

end Gradual
