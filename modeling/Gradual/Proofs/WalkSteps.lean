import Gradual.Check.Module
import Gradual.Proofs.NameMaps

/-! What walks are made of. A walk over a syntax tree is put together from a few kinds of steps, and only
some of them look at the rules of a check. `InStep` relates two walks that take the same steps, up to what the
judgements of two rules have to do with one another, and says what the steps may do: an expression notes types
below its place only, and it spares the names that are held to an annotation. What holds of every step then
holds of every walk, without going through the forms of the tree again. -/

namespace Gradual

/-! ### Quieter rules -/

/-- A mode that reports only failures that the other mode reports too. -/
def Mode.Quieter (mode' mode : Mode) : Prop :=
  ∀ failed total : Nat, Rules.reports mode' failed total = true → Rules.reports mode failed total = true

theorem Mode.compiler_quieter_lint : Mode.compiler.Quieter Mode.lint := by
  intro failed total h
  simp only [Rules.reports, Bool.and_eq_true] at h ⊢
  exact ⟨h.1, rfl⟩

/-- A judgement that tells the same and reports some of the same errors. -/
structure Judgement.Quieter (j' j : Judgement) : Prop where
  type : j'.type = j.type
  errors : j'.errors.Sublist j.errors
  approximations : j'.approximations = j.approximations
  broken : j'.broken = j.broken

theorem Judgement.quieter_self (j : Judgement) : j.Quieter j := ⟨rfl, .refl _, rfl, rfl⟩

/-- Rules that ask the same oracle in another mode. -/
abbrev Rules.inMode (r : Rules) (mode : Mode) : Rules := { r with mode := mode }

/-- What a check is given, with other rules. -/
abbrev Setup.withRules (c : Setup) (r : Rules) : Setup := { c with rules := r }

/-- Rules that know the same global functions as others, and whose judgements relate to theirs. -/
structure Rules.Related (R : Judgement → Judgement → Prop) (r' r : Rules) : Prop where
  signature : r'.oracle.signature = r.oracle.signature
  attr : ∀ recv name span, R (r'.attr recv name span) (r.attr recv name span)
  binOp : ∀ op left right span, R (r'.binOp op left right span) (r.binOp op left right span)
  unOp : ∀ op operand span, R (r'.unOp op operand span) (r.unOp op operand span)
  index : ∀ value index constant span, R (r'.index value index constant span) (r.index value index constant span)
  slice : ∀ value span, R (r'.slice value span) (r.slice value span)
  iter : ∀ t span, R (r'.iter t span) (r.iter t span)
  call : ∀ callee args span, R (r'.call callee args span) (r.call callee args span)
  callBuiltin : ∀ name sig args span, R (r'.callBuiltin name sig args span) (r.callBuiltin name sig args span)

theorem Rules.related_self {R : Judgement → Judgement → Prop} (h : ∀ j, R j j) (r : Rules) : r.Related R r where
  signature := rfl
  attr _ _ _ := h _
  binOp _ _ _ _ := h _
  unOp _ _ _ := h _
  index _ _ _ _ := h _
  slice _ _ := h _
  iter _ _ := h _
  call _ _ _ := h _
  callBuiltin _ _ _ _ := h _

namespace Rules

variable {r : Rules} {mode : Mode} (hquiet : mode.Quieter r.mode)

theorem indexCustom_inMode (a : Alt) (span : Span) (index : List Alt) :
    (r.inMode mode).indexCustom a span index = r.indexCustom a span index := by
  induction index with
  | nil => rfl
  | cons i rest ih => simp only [indexCustom, binOpOf, ih]

theorem indexOf_inMode (a : Alt) (index : Ty) (constant : Option Int) (span : Span) :
    (r.inMode mode).indexOf a index constant span = r.indexOf a index constant span := by
  cases a with
  | custom name host => exact indexCustom_inMode _ span index.alts
  | _ => rfl

include hquiet

theorem quieter_settle (verdicts : List Verdict) (error : TypingError) (span : Span) :
    ((r.inMode mode).settle verdicts error span).Quieter (r.settle verdicts error span) := by
  refine ⟨rfl, ?_, rfl, rfl⟩
  simp only [settle]
  split
  · next hreports => exact (if_pos (hquiet _ _ hreports)).symm ▸ List.Sublist.refl _
  · exact List.nil_sublist _

theorem quieter_ite {p : Prop} [Decidable p] (verdicts : List Verdict) (j : Judgement) (error : TypingError)
    (span : Span) : (if p then j else (r.inMode mode).settle verdicts error span).Quieter
      (if p then j else r.settle verdicts error span) := by
  split
  · exact j.quieter_self
  · exact quieter_settle hquiet verdicts error span

theorem quieter_attr (recv : Ty) (name : Text) (span : Span) :
    ((r.inMode mode).attr recv name span).Quieter (r.attr recv name span) :=
  quieter_ite hquiet _ _ _ span

theorem quieter_binOp (op : Text) (left right : Ty) (span : Span) :
    ((r.inMode mode).binOp op left right span).Quieter (r.binOp op left right span) := by
  unfold binOp
  split
  · exact Judgement.quieter_self _
  · exact quieter_ite hquiet _ _ _ span

theorem quieter_unOp (op : Text) (operand : Ty) (span : Span) :
    ((r.inMode mode).unOp op operand span).Quieter (r.unOp op operand span) := by
  unfold unOp
  split
  · exact Judgement.quieter_self _
  · exact quieter_ite hquiet _ _ _ span

theorem quieter_index (value index : Ty) (constant : Option Int) (span : Span) :
    ((r.inMode mode).index value index constant span).Quieter (r.index value index constant span) := by
  simp only [Rules.index, indexOf_inMode]
  exact quieter_ite hquiet _ _ _ span

theorem quieter_slice (value : Ty) (span : Span) :
    ((r.inMode mode).slice value span).Quieter (r.slice value span) :=
  quieter_ite hquiet _ _ _ span

theorem quieter_iter (t : Ty) (span : Span) : ((r.inMode mode).iter t span).Quieter (r.iter t span) :=
  quieter_ite hquiet _ _ _ span

theorem quieter_call (callee : Ty) (args : List Arg) (span : Span) :
    ((r.inMode mode).call callee args span).Quieter (r.call callee args span) := by
  unfold call
  split
  · exact Judgement.quieter_self _
  · have hsettled := quieter_settle hquiet (callee.alts.map fun a => callOf a span) (.notCallable callee) span
    exact ⟨rfl, hsettled.errors.append_left _, rfl, rfl⟩

theorem quieter_callBuiltin (name : Text) (sig : Signature) (args : List Arg) (span : Span) :
    ((r.inMode mode).callBuiltin name sig args span).Quieter (r.callBuiltin name sig args span) := by
  have hcalled := quieter_call hquiet (.function (some sig)) args span
  unfold callBuiltin
  dsimp only
  split
  · exact ⟨rfl, hcalled.errors, hcalled.approximations, hcalled.broken⟩
  · exact hcalled

theorem related_inMode : (r.inMode mode).Related Judgement.Quieter r where
  signature := rfl
  attr := quieter_attr hquiet
  binOp := quieter_binOp hquiet
  unOp := quieter_unOp hquiet
  index := quieter_index hquiet
  slice := quieter_slice hquiet
  iter := quieter_iter hquiet
  call := quieter_call hquiet
  callBuiltin := quieter_callBuiltin hquiet

end Rules

/-- The entries of a frame are in order. -/
structure Frame.IsSorted (f : Frame) : Prop where
  symbols : f.symbols.IsSorted
  annotations : f.annotations.IsSorted

/-- The scope in which a name is assigned to: it is bound to its annotation if it has one. -/
def Scope.hold (s : Scope) (name : Text) (type : Ty) (isApproximate : Bool) : Scope :=
  match s.annotation? name with
  | some declared => s.bind name declared false
  | none => s.bind name type isApproximate

/-- Whether a scope has the annotations of another one, and binds the names with annotations as it does. -/
structure Scope.SparesAnnotated (s s' : Scope) : Prop where
  annotations : s'.own.annotations = s.own.annotations
  symbols : ∀ name, (s.annotation? name).isSome = true → s'.own.symbols.get? name = s.own.symbols.get? name

namespace Scope.SparesAnnotated

variable {s s' s'' : Scope}

theorem refl (s : Scope) : s.SparesAnnotated s := ⟨rfl, fun _ _ => rfl⟩

theorem annotation? (h : s.SparesAnnotated s') (name : Text) : s'.annotation? name = s.annotation? name := by
  rw [Scope.annotation?, Scope.annotation?, h.annotations]

theorem trans (h : s.SparesAnnotated s') (h' : s'.SparesAnnotated s'') : s.SparesAnnotated s'' where
  annotations := h'.annotations.trans h.annotations
  symbols name hname := by
    rw [h'.symbols name (by rwa [h.annotation?]), h.symbols name hname]

end Scope.SparesAnnotated

/-- Whether a scope is as another one, except that own lists without an annotation may hold more. -/
structure Scope.Widens (s s' : Scope) : Prop where
  outer : s'.outer = s.outer
  isCopy : s'.isCopy = s.isCopy
  annotations : s'.own.annotations = s.own.annotations
  isWildcard : s'.own.isWildcard = s.own.isWildcard
  symbols : ∀ name, s'.own.symbols.get? name = s.own.symbols.get? name ∨
    s.annotation? name = none ∧ ∃ elem added isApproximate,
      s.own.symbols.get? name = some ⟨.list elem, isApproximate⟩ ∧
      s'.own.symbols.get? name = some ⟨.list (.union [elem, added]), isApproximate⟩

namespace Scope.Widens

theorem refl (s : Scope) : s.Widens s := ⟨rfl, rfl, rfl, rfl, fun _ => Or.inl rfl⟩

theorem sparesAnnotated {s s' : Scope} (h : s.Widens s') : s.SparesAnnotated s' where
  annotations := h.annotations
  symbols name hname := by
    rcases h.symbols name with hsame | ⟨hnone, _⟩
    · exact hsame
    · rw [hnone] at hname
      cases hname

end Scope.Widens

namespace Scope

variable {s : Scope} {name : Text} {b : Binding}

theorem resolve?_of_own (h : s.own.symbols.get? name = some b) : s.resolve? name = some b := by
  rw [resolve?, frames, List.findSome?_cons, h]

theorem own_of_hasLocal (hlocal : s.hasLocal name = true) (hb : s.resolve? name = some b) :
    s.own.symbols.get? name = some b := by
  obtain ⟨b', hb'⟩ := Option.isSome_iff_exists.mp hlocal
  exact hb'.trans ((resolve?_of_own hb').symm.trans hb)

theorem retype_of_own (h : s.own.symbols.get? name = some b) (type : Ty) :
    s.retype name type = s.bind name type b.isApproximate := by
  rw [retype, resolve?_of_own h]
  rfl

theorem widens_retype {elem : Ty} (hown : s.own.symbols.get? name = some b) (htype : b.type = .list elem)
    (hnone : s.annotation? name = none) (added : Ty) : s.Widens (s.retype name (.list (.union [elem, added]))) := by
  rw [retype_of_own hown]
  refine ⟨rfl, rfl, rfl, rfl, fun n => ?_⟩
  have hget := NameMap.get?_insert s.own.symbols name ⟨.list (.union [elem, added]), b.isApproximate⟩ n
  by_cases hn : n = name
  · subst hn
    refine Or.inr ⟨hnone, elem, added, b.isApproximate, ?_, hget.trans (if_pos rfl)⟩
    rw [hown, ← htype]
  · exact Or.inl (hget.trans (if_neg hn))

end Scope

theorem Ty.eq_only_of_single? {t : Ty} {a : Alt} (h : t.single? = some a) : t = .only a := by
  obtain ⟨alts⟩ := t
  unfold Ty.single? at h
  split at h
  · next b halts =>
    cases h
    exact congrArg Ty.mk halts
  · cases h

namespace Check

/-! ### What leaves a function or a round of a loop -/

theorem returned_eq (s : State) (info : TypeInfo) :
    returned s info = { s with functions := if s.dead = 0 then s.functions.modifyHead fun f =>
      { f with returns := f.returns ++ [info.type], isApproximate := f.isApproximate || info.isApproximate }
      else s.functions } := by
  unfold returned
  split
  · next f rest hfunctions =>
    rw [hfunctions]
    by_cases hdead : s.dead = 0
    · rw [if_pos hdead, if_pos hdead]
      rfl
    · rw [if_neg hdead, if_neg hdead, ← hfunctions]
  · next hfunctions =>
    rw [hfunctions, List.modifyHead_nil, ite_self, ← hfunctions]

theorem leaveLoop_eq (isExit : Bool) :
    leaveLoop isExit = modify fun s => { s with loops := if s.dead = 0 then s.loops.modifyHead fun l =>
      if isExit then { l with exits := l.exits ++ [s.scope.own] } else { l with nexts := l.nexts ++ [s.scope.own] }
      else s.loops } := by
  unfold leaveLoop
  congr
  funext s
  split
  · next l rest hloops =>
    rw [hloops]
    by_cases hdead : s.dead = 0
    · rw [if_pos hdead, if_pos hdead]
      rfl
    · rw [if_neg hdead, if_neg hdead, ← hloops]
  · next hloops =>
    rw [hloops, List.modifyHead_nil, ite_self, ← hloops]

/-! ### Walks in step -/

/-- A change of own entries of a scope, which stay in order. -/
structure ChangesOwn (f : Scope → Scope) : Prop where
  outer : ∀ s, (f s).outer = s.outer
  sorted : ∀ s, s.own.IsSorted → (f s).own.IsSorted

/-- A change of a scope that leaves annotations as they are, and what names with annotations are bound to. -/
def Spares (f : Scope → Scope) : Prop := ∀ s : Scope, s.SparesAnnotated (f s)

/-- A change of a scope in which at most own lists without an annotation come to hold more. -/
def WidensLists (f : Scope → Scope) : Prop := ∀ s : Scope, s.Widens (f s)

theorem WidensLists.spares {f : Scope → Scope} (h : WidensLists f) : Spares f := fun s => (h s).sparesAnnotated

/-- What steps may do: how the judgements of two walks relate, where the first walk notes types, how own entries
of the scope change, whether a function or a round of a loop may be left, and where the second walk notes what the
first one notes. -/
structure StepKinds where
  Judged : Judgement → Judgement → Prop
  Noted : NodePath → Prop
  Rebound : (Scope → Scope) → Prop
  Leaves : Prop
  There : NodePath → NodePath → Prop := fun here there => there = here

/-- What steps aside may do: the scope is given up when they are done. -/
def StepKinds.aside (K : StepKinds) : StepKinds := { K with Rebound := fun _ => True }

/-- Both walks are at the same place. -/
class StepKinds.SamePlace (K : StepKinds) : Prop where
  eq_there : ∀ {path path'}, K.There path path' → path' = path

/-- Two walks take the same steps, up to their judgements and to where they note types. A step may look at all of
the state except what is only written: the errors, the approximations and the types of nodes. It may change entries
of the scope it is in, but none further out. -/
inductive InStep : StepKinds → {α : Type} → Check α → Check α → Prop
  | pure {K : StepKinds} {α : Type} (a : α) : InStep K (Pure.pure a) (Pure.pure a)
  | bind {K : StepKinds} {α β : Type} {m m' : Check α} {k k' : α → Check β} (h : InStep K m m')
      (hnext : ∀ a, InStep K (k a) (k' a)) : InStep K (m >>= k) (m' >>= k')
  | look {K : StepKinds} {α : Type} {k k' : State → Check α}
      (h : ∀ s errors approximations types, InStep K (k s)
        (k' { s with errors := errors, approximations := approximations, types := types })) :
      InStep K (get >>= k) (get >>= k')
  | report {K : StepKinds} (e : TypingError) (span : Span) : InStep K (report e span) (report e span)
  | approximate {K : StepKinds} (category message : Text) (span : Span) :
      InStep K (approximate category message span) (approximate category message span)
  | settle {K : StepKinds} {j j' : Judgement} (h : K.Judged j' j) : InStep K (settle j) (settle j')
  | count {K : StepKinds} (f : Nat → Nat) :
      InStep K (modify fun s => { s with taint := f s.taint }) (modify fun s => { s with taint := f s.taint })
  | note {K : StepKinds} {path path' : NodePath} (h : K.Noted path) (hthere : K.There path path') (form : Text)
      (span : Span) (info : TypeInfo) : InStep K (note path form span info) (note path' form span info)
  | rebind {K : StepKinds} (f : Scope → Scope) (g : Scope → NameSet → NameSet) (hf : ChangesOwn f)
      (h : K.Rebound f) : InStep K (modify fun s => { s with scope := f s.scope, loaded := g s.scope s.loaded })
        (modify fun s => { s with scope := f s.scope, loaded := g s.scope s.loaded })
  | returned {K : StepKinds} (h : K.Leaves) (info : TypeInfo) :
      InStep K (modify fun s => returned s info) (modify fun s => returned s info)
  | leaveLoop {K : StepKinds} (h : K.Leaves) (isExit : Bool) : InStep K (leaveLoop isExit) (leaveLoop isExit)
  | aside {K : StepKinds} {α : Type} {walk walk' : Check α} (enter : Scope → Scope)
      (h : InStep K.aside walk walk') : InStep K (aside enter walk) (aside enter walk')
  | unreached {K : StepKinds} {walk walk' : Check Unit} (h : InStep K.aside walk walk') :
      InStep K (unreached walk) (unreached walk')
  | inLoop {K : StepKinds} {α : Type} {walk walk' : Check α} (h : InStep K walk walk') :
      InStep K (inLoop walk) (inLoop walk')
  | inBody {K : StepKinds} {α : Type} {walk walk' : Check α} (h : InStep K walk walk') :
      InStep K (inBody walk) (inBody walk')
  | inFunction {K : StepKinds} {α : Type} {walk walk' : Check α} (declared : Option Ty) (h : InStep K walk walk') :
      InStep K (inFunction declared walk) (inFunction declared walk')

/-- Two nodes stand in the same way below the nodes at two places. -/
def Alongside (place place' path path' : NodePath) : Prop := ∃ way, path = way ++ place ∧ path' = way ++ place'

/-- Steps may do what evaluating an expression does at a place or below it; the second walk is at another place. -/
structure StepKinds.Evaluates (K : StepKinds) (place place' : NodePath) (r' r : Rules) : Prop where
  judged : r'.Related K.Judged r
  noted : ∀ {path}, place <:+ path → K.Noted path
  there : ∀ {path path'}, Alongside place place' path path' → K.There path path'
  rebound : ∀ {f}, WidensLists f → K.Rebound f

/-- Steps may also assign to names, which are held to their annotations, and to what a name holds. -/
structure StepKinds.Assigns (K : StepKinds) (place place' : NodePath) (r' r : Rules) : Prop extends
    K.Evaluates place place' r' r where
  stores : ∀ {f}, Spares f → K.Rebound f
  holds : ∀ name type isApproximate, K.Rebound fun s => s.hold name type isApproximate

/-- Steps may also bind names in any way. -/
structure StepKinds.Binds (K : StepKinds) (place place' : NodePath) (r' r : Rules) : Prop extends
    K.Assigns place place' r' r where
  binds : ∀ f, K.Rebound f

/-- Steps may also leave functions and rounds of loops, with both walks at the same place. -/
structure StepKinds.Walks (K : StepKinds) (place : NodePath) (r' r : Rules) : Prop extends
    K.Binds place place r' r where
  leaves : K.Leaves

theorem below {place path : NodePath} (h : place <:+ path) {i : Nat} : place <:+ i :: path :=
  h.trans (List.suffix_cons i path)

namespace Alongside

variable {place place' path path' : NodePath}

theorem self : Alongside place place' place place' := ⟨[], rfl, rfl⟩

theorem of_suffix (h : place <:+ path) : Alongside place place path path := by
  obtain ⟨way, rfl⟩ := h
  exact ⟨way, rfl, rfl⟩

theorem under (h : place <:+ path) {i : Nat} : Alongside place place (i :: path) (i :: path) :=
  of_suffix (Check.below h)

theorem suffix (h : Alongside place place' path path') : place <:+ path := by
  obtain ⟨way, rfl, -⟩ := h
  exact List.suffix_append way place

theorem below (h : Alongside place place' path path') {i : Nat} : Alongside place place' (i :: path) (i :: path') := by
  obtain ⟨way, rfl, rfl⟩ := h
  exact ⟨i :: way, rfl, rfl⟩

theorem trans (h : Alongside place place' path path') {path₁ path₁' : NodePath}
    (h' : Alongside path path' path₁ path₁') : Alongside place place' path₁ path₁' := by
  obtain ⟨way, rfl, rfl⟩ := h
  obtain ⟨way', rfl, rfl⟩ := h'
  exact ⟨way' ++ way, (List.append_assoc _ _ _).symm, (List.append_assoc _ _ _).symm⟩

theorem eq (h : Alongside place place path path') : path' = path := by
  obtain ⟨way, rfl, rfl⟩ := h
  rfl

end Alongside

namespace StepKinds

variable {K : StepKinds} {place place' : NodePath} {r' r : Rules}

theorem Evaluates.below {path path' : NodePath} (h : K.Evaluates place place' r' r)
    (hpath : Alongside place place' path path') : K.Evaluates path path' r' r where
  judged := h.judged
  noted hnoted := h.noted (hpath.suffix.trans hnoted)
  there hthere := h.there (hpath.trans hthere)
  rebound := h.rebound

/-- What steps aside bind is given up with the scope. -/
theorem Evaluates.aside (h : K.Evaluates place place' r' r) : K.aside.Binds place place' r' r where
  judged := h.judged
  noted := h.noted
  there := h.there
  rebound _ := trivial
  stores _ := trivial
  holds _ _ _ := trivial
  binds _ := trivial

theorem Walks.aside (h : K.Walks place r' r) : K.aside.Walks place r' r where
  toBinds := h.toEvaluates.aside
  leaves := h.leaves

/-- All kinds of steps, for judgements that relate in some way. -/
def all (R : Judgement → Judgement → Prop) : StepKinds where
  Judged := R
  Noted _ := True
  Rebound _ := True
  Leaves := True

instance {R : Judgement → Judgement → Prop} : (all R).SamePlace := ⟨id⟩

theorem walks_all {R : Judgement → Judgement → Prop} (h : r'.Related R r) : (all R).Walks [] r' r where
  judged := h
  noted _ := trivial
  there := Alongside.eq
  rebound _ := trivial
  stores _ := trivial
  holds _ _ _ := trivial
  binds _ := trivial
  leaves := trivial

end StepKinds

theorem of_run_bind {α β : Type} (motive : β × State → Prop) {m : Check α} {k : α → Check β} {s : State}
    (h : motive ((k (m.run s).1).run (m.run s).2)) : motive ((m >>= k).run s) := h

namespace InStep

variable {K : StepKinds} {α : Type}

theorem skip : InStep K (Pure.pure () : Check Unit) (Pure.pure ()) := .pure ()

theorem ite {p : Prop} [Decidable p] {yes yes' no no' : Check α} (hyes : InStep K yes yes')
    (hno : InStep K no no') : InStep K (if p then yes else no) (if p then yes' else no') := by
  split
  · exact hyes
  · exact hno

theorem discard {m m' : Check α} (h : InStep K m m') : InStep K (discard m) (discard m') := h.bind fun _ => .skip

theorem scope : InStep K Check.scope Check.scope := .look fun s _ _ _ => .pure s.scope

theorem modifyScope (f : Scope → Scope) (hf : ChangesOwn f) (h : K.Rebound f) :
    InStep K (Check.modifyScope f) (Check.modifyScope f) := .rebind f (fun _ loaded => loaded) hf h

theorem taint : InStep K Check.taint Check.taint := .count (· + 1)

theorem branch {enter : Scope → Scope} {walk walk' : Check α} (h : InStep K.aside walk walk') :
    InStep K (Check.branch enter walk) (Check.branch enter walk') :=
  .aside _ (h.bind fun a => scope.bind fun s => .pure (a, s.own))

end InStep

end Check

/-! ### Changes of a scope -/

theorem Frame.isSorted_merge {f : Frame} (hf : f.IsSorted) (branches : List Frame) : (f.merge branches).IsSorted := by
  rw [Frame.merge]
  split
  · exact hf
  · refine ⟨?_, ?_⟩
    · refine List.foldlRecOn branches _ NameMap.isSorted_empty fun joined hjoined b _ => ?_
      refine List.foldlRecOn b.symbols.entries _ hjoined fun symbols hsymbols e _ => ?_
      rw [Frame.joinEntry]
      split <;> exact hsymbols.insert e.1 _
    · refine List.foldlRecOn branches _ hf.annotations fun annotations hannotations b _ => ?_
      exact List.foldlRecOn b.annotations.entries _ hannotations fun _ h e _ => h.insert e.1 e.2

namespace Check.ChangesOwn

variable {f g : Scope → Scope}

theorem id : ChangesOwn fun s => s := ⟨fun _ => rfl, fun _ h => h⟩

theorem comp (hg : ChangesOwn g) (hf : ChangesOwn f) : ChangesOwn fun s => g (f s) :=
  ⟨fun s => (hg.outer (f s)).trans (hf.outer s), fun s h => hg.sorted (f s) (hf.sorted s h)⟩

theorem ite {p : Scope → Prop} [DecidablePred p] (hf : ChangesOwn f) (hg : ChangesOwn g) :
    ChangesOwn fun s => if p s then f s else g s := by
  refine ⟨fun s => ?_, fun s h => ?_⟩
  · split
    · exact hf.outer s
    · exact hg.outer s
  · split
    · exact hf.sorted s h
    · exact hg.sorted s h

theorem foldl {α : Type} {step : Scope → α → Scope} (h : ∀ a, ChangesOwn (step · a)) (xs : List α) :
    ChangesOwn fun s => xs.foldl step s := by
  induction xs with
  | nil => exact id
  | cons a rest ih => exact ih.comp (h a)

theorem bind (name : Text) (type : Ty) (isApproximate : Bool) : ChangesOwn fun s => s.bind name type isApproximate :=
  ⟨fun _ => rfl, fun _ h => ⟨h.symbols.insert name _, h.annotations⟩⟩

theorem retype (name : Text) (type : Ty) : ChangesOwn fun s => s.retype name type :=
  ⟨fun _ => rfl, fun _ h => ⟨h.symbols.insert name _, h.annotations⟩⟩

theorem annotate (name : Text) (type : Ty) : ChangesOwn fun s => s.annotate name type :=
  ⟨fun _ => rfl, fun _ h => ⟨h.symbols, h.annotations.insert name type⟩⟩

theorem hold (name : Text) (type : Ty) (isApproximate : Bool) : ChangesOwn fun s => s.hold name type isApproximate := by
  refine ⟨fun s => ?_, fun s h => ?_⟩
  · rw [Scope.hold]
    split <;> rfl
  · rw [Scope.hold]
    split
    · exact (bind name _ _).sorted s h
    · exact (bind name _ _).sorted s h

theorem markWildcard : ChangesOwn Scope.markWildcard := ⟨fun _ => rfl, fun _ h => ⟨h.symbols, h.annotations⟩⟩

theorem merge (branches : List Frame) : ChangesOwn fun s => s.merge branches :=
  ⟨fun _ => rfl, fun _ h => Frame.isSorted_merge h branches⟩

theorem narrow (facts : Scope → List NameFact) (holds shadow : Bool) :
    ChangesOwn fun s => s.narrow (facts s) holds shadow := by
  have hstep (fs : List NameFact) : ChangesOwn fun s => s.narrow fs holds shadow := by
    refine foldl (fun f => ?_) fs
    exact ite (retype f.name _) id
  exact ⟨fun s => (hstep (facts s)).outer s, fun s => (hstep (facts s)).sorted s⟩

theorem bindEach (entries : List (Text × Ty)) :
    ChangesOwn fun s => entries.foldl (fun sc e => sc.bind e.1 e.2 false) s :=
  foldl (fun e => bind e.1 e.2 false) entries

end Check.ChangesOwn

theorem Scope.outer_narrow (s : Scope) (facts : List NameFact) (holds shadow : Bool) :
    (s.narrow facts holds shadow).outer = s.outer :=
  (Check.ChangesOwn.narrow (fun _ => facts) holds shadow).outer s

theorem Scope.outer_foldl_bind (s : Scope) (entries : List (Text × Ty)) :
    (entries.foldl (fun sc e => sc.bind e.1 e.2 false) s).outer = s.outer :=
  (Check.ChangesOwn.bindEach entries).outer s

namespace Check

section Steps

variable (c : Setup) {K : StepKinds} {place place' path path' : NodePath} {r : Rules}
  (hpath : Alongside place place' path path')

/-! ### Types of nodes -/

theorem inStep_note (hK : K.Evaluates place place' r c.rules) (hpath : Alongside place place' path path') (form : Text)
    (span : Span) (info : TypeInfo) : InStep K (note path form span info) (note path' form span info) :=
  .note (hK.noted hpath.suffix) (hK.there hpath) form span info

theorem inStep_noted (hK : K.Evaluates place place' r c.rules) (hpath : Alongside place place' path path')
    {form : Text} {span : Span} {eval eval' : Check Ty} (h : InStep K eval eval') :
    InStep K (noted path form span eval) (noted path' form span eval') := by
  refine .look fun before _ _ _ => h.bind fun type => .look fun after _ _ _ => ?_
  exact (inStep_note c hK hpath form span _).bind fun _ => .pure _

/-! ### Names and calls -/

theorem inStep_known (t : Ty) (isApproximate : Bool) :
    InStep K (do
      if isApproximate then taint
      return t) (do
      if isApproximate then taint
      return t) :=
  .ite (InStep.taint.bind fun _ => .pure t) (.pure t)

section Judged

variable (hr : r.Related K.Judged c.rules)
include hr

theorem calleeOf_withRules (s : Scope) (callee : Expr) : calleeOf (c.withRules r) s callee = calleeOf c s callee := by
  cases callee with
  | ident id => rw [calleeOf, calleeOf, hr.signature]
  | _ => rfl

theorem inStep_ident (id : Ident) : InStep K (ident c id) (ident (c.withRules r) id) := by
  unfold ident
  refine .look fun s _ _ _ => ?_
  dsimp only
  rw [hr.signature]
  split
  · exact .pure _
  · split
    · exact inStep_known _ _
    · split
      · exact .pure _
      · split
        · exact (InStep.approximate _ _ _).bind fun _ => .pure _
        · generalize (if 0 < s.depth then c.forward.get? id.name else none) = later
          cases later with
          | none => exact (InStep.report _ _).bind fun _ => .pure _
          | some fwd => exact inStep_known fwd.type fwd.isApproximate

theorem inStep_recordCall (args : List Arg) (span : Span) :
    InStep K (recordCall c args span) (recordCall (c.withRules r) args span) := by
  unfold recordCall
  rw [hr.signature]
  dsimp only
  split
  · split
    · exact (InStep.settle (hr.call _ args span)).discard.bind fun _ => .pure _
    · exact InStep.skip.bind fun _ => .pure _
  · exact .pure _

theorem inStep_builtinCall (id : Ident) (sig : Signature) (args : List Arg) (before : Nat) (span : Span) :
    InStep K (builtinCall c id sig args before span) (builtinCall (c.withRules r) id sig args before span) := by
  refine (InStep.settle (hr.callBuiltin _ sig args span)).bind fun t => ?_
  exact .ite ((InStep.count fun _ => before).bind fun _ => .pure t) (.pure t)

theorem inStep_unpacked (type : Ty) (count : Nat) (span : Span) :
    InStep K (unpacked c type count span) (unpacked (c.withRules r) type count span) := by
  unfold unpacked
  split
  · exact .ite (.pure _) ((InStep.report _ _).bind fun _ => .pure _)
  · exact (InStep.settle (hr.iter type span)).bind fun _ => .pure _

theorem inStep_augmented (op : Text) (current right : Ty) (span rightSpan : Span) :
    InStep K (augmented c op current right span rightSpan)
      (augmented (c.withRules r) op current right span rightSpan) :=
  .ite ((InStep.settle (hr.iter right rightSpan)).bind fun _ => .pure _) (.settle (hr.binOp op current right span))

end Judged

/-! ### Lists that come to hold more -/

theorem spares_widen (name : Text) (before after : Ty) :
    Spares fun s => if s.hasLocal name && !before.equal after && (s.annotation? name).isNone then
      s.retype name after else s := by
  intro s
  dsimp only
  split
  · next hwidened =>
    refine ⟨rfl, fun other hother => ?_⟩
    have hne : other ≠ name := by
      rintro rfl
      rw [Bool.and_eq_true] at hwidened
      exact absurd hother (by rw [Option.isNone_iff_eq_none.mp hwidened.2]; exact Bool.false_ne_true)
    exact (NameMap.get?_insert s.own.symbols name _ other).trans (if_neg hne)
  · exact .refl s

theorem inStep_widen (h : ∀ {f}, Spares f → K.Rebound f) (e : Expr) (before after : Ty) :
    InStep K (widen e before after) (widen e before after) := by
  cases e with
  | ident id =>
      rw [widen]
      exact .modifyScope _ (.ite (.retype id.name after) .id) (h (spares_widen id.name before after))
  | _ => exact .skip

/-- A walk that looks at the scope and then changes it, changes it in the way that it chose for that scope. -/
theorem exists_modifyScope_of_scope {P : Scope → Scope → Prop} {k : Scope → Check Unit}
    (h : ∀ s, ∃ f, k s = modifyScope f ∧ P s (f s)) : ∃ f, (scope >>= k) = modifyScope f ∧ ∀ s, P s (f s) := by
  obtain ⟨f, hf⟩ := Classical.axiomOfChoice h
  refine ⟨fun s => f s s, StateT.ext fun st => ?_, fun s => (hf s).2⟩
  show (k st.scope).run st = _
  rw [(hf st.scope).1]
  rfl

/-- What a method call does to the scope: the type that is replaced is the one that is looked at. -/
theorem exists_widenOnCall_eq (callee : Expr) (args : List Arg) :
    ∃ f, widenOnCall callee args = modifyScope f ∧
      ∀ s : Scope, s.Widens (f s) ∧ (s.own.IsSorted → (f s).own.IsSorted) := by
  have hsame (s : Scope) : ∃ f, (pure () : Check Unit) = modifyScope f ∧
      s.Widens (f s) ∧ (s.own.IsSorted → (f s).own.IsSorted) := ⟨fun s => s, rfl, .refl s, fun h => h⟩
  unfold widenOnCall
  split
  · next id method =>
    refine exists_modifyScope_of_scope (P := fun s s' => s.Widens s' ∧ (s.own.IsSorted → s'.own.IsSorted)) fun s => ?_
    split
    · next hlocal =>
      split
      · next b hb =>
        split
        · next elem hlist =>
          split
          · next added _ =>
            rw [widen]
            refine ⟨_, rfl, ?_⟩
            split
            · next hwidened =>
              rw [Bool.and_eq_true] at hwidened
              refine ⟨Scope.widens_retype (Scope.own_of_hasLocal hlocal hb) (Ty.eq_only_of_single? hlist)
                (Option.isNone_iff_eq_none.mp hwidened.2) added, fun h => ?_⟩
              exact ⟨h.symbols.insert id.name _, h.annotations⟩
            · exact ⟨.refl s, fun h => h⟩
          · exact hsame s
        · exact hsame s
      · exact hsame s
    · exact hsame s
  · exact ⟨fun s => s, rfl, fun s => ⟨.refl s, fun h => h⟩⟩

theorem inStep_widenOnCall (h : ∀ {f}, WidensLists f → K.Rebound f) (callee : Expr) (args : List Arg) :
    InStep K (widenOnCall callee args) (widenOnCall callee args) := by
  obtain ⟨f, hrun, hf⟩ := exists_widenOnCall_eq callee args
  rw [hrun]
  exact .modifyScope f ⟨fun s => (hf s).1.outer, fun s => (hf s).2⟩ (h fun s => (hf s).1)

/-! ### Slices and parameters -/

theorem inStep_sliceBound (value : Ty) (span : Span) (bound : TypeInfo) :
    InStep K (sliceBound value span bound) (sliceBound value span bound) := .ite .skip (.report _ _)

theorem inStep_checkDefault (name : Text) (declared : TypeExpr) (default : Expr) (info : TypeInfo) :
    InStep K (checkDefault name declared default info) (checkDefault name declared default info) :=
  .ite .skip (.report _ _)

theorem inStep_signatureOf (params : List Param) (result : Ty) (span : Span) :
    InStep K (signatureOf params result span) (signatureOf params result span) := by
  unfold signatureOf
  split
  · exact .pure _
  · exact (InStep.approximate _ _ _).bind fun _ => .pure _

include hpath

theorem inStep_bindParams (hK : K.Binds place place' r c.rules) (sig : Option Signature) (i : Nat)
    (params : List ParamDecl) : InStep K (bindParams path sig i params) (bindParams path' sig i params) := by
  induction params generalizing i with
  | nil => exact .skip
  | cons p rest ih =>
      cases p with
      | hole => exact ih (i + 1)
      | param span name kind declared default =>
          have hbind := ChangesOwn.bind name.name (boundType sig name.name) false
          refine (InStep.modifyScope _ (ChangesOwn.ite hbind ((ChangesOwn.annotate _ _).comp hbind)) (hK.binds _)).bind
            fun _ => (inStep_note c hK.toEvaluates hpath.below.below _ _ _).bind fun _ => ih (i + 1)

/-! ### Assignments -/

/-- Binds a name to what it is held to, and notes it. -/
def holdName (path : NodePath) (id : Ident) (type : Ty) (isApproximate : Bool) (info : TypeInfo) : Check Unit := do
  modify fun st =>
    { st with
      scope := st.scope.hold id.name type isApproximate
      loaded := if st.scope.isModule then st.loaded.erase id.name else st.loaded }
  note path "Identifier" id.span info

omit hpath in
theorem bindName_eq (id : Ident) (type : Ty) (isApproximate : Bool) :
    bindName path id type isApproximate = (do
      let s ← scope
      match s.annotation? id.name with
      | some declared =>
        if type.subtype declared then pure () else report (.incompatibleAssignment declared type) id.span
      | none => pure ()
      holdName path id type isApproximate
        (((s.annotation? id.name).map (⟨·, false⟩)).getD ⟨type, isApproximate⟩)) := by
  refine StateT.ext fun s => ?_
  unfold bindName
  have hreport (errors : List TypingError) : (s.report errors).scope = s.scope := by
    unfold State.report
    split <;> rfl
  refine of_run_bind (fun r => r = _) ?_
  refine Eq.symm (of_run_bind (fun r => r = _) (Eq.symm ?_))
  have hscope : scope.run s = (s.scope, s) := rfl
  rw [hscope]
  dsimp only
  cases hdeclares : s.scope.annotation? id.name with
  | none =>
      have hhold : s.scope.hold id.name type isApproximate = s.scope.bind id.name type isApproximate := by
        rw [Scope.hold, hdeclares]
      show _ = ((note path "Identifier" id.span ⟨type, isApproximate⟩).run
        { s with scope := s.scope.hold id.name type isApproximate, loaded := _ })
      rw [hhold]
      rfl
  | some declared =>
      have hhold : s.scope.hold id.name type isApproximate = s.scope.bind id.name declared false := by
        rw [Scope.hold, hdeclares]
      dsimp only
      split
      · show _ = ((note path "Identifier" id.span ⟨declared, false⟩).run
          { s with scope := s.scope.hold id.name type isApproximate, loaded := _ })
        rw [hhold]
        rfl
      · show _ = ((note path "Identifier" id.span ⟨declared, false⟩).run
          { s.report [_] with scope := (s.report [_]).scope.hold id.name type isApproximate, loaded := _ })
        rw [hreport, hhold, ← hreport]
        rfl

theorem inStep_bindName (hK : K.Assigns place place' r c.rules) (id : Ident) (type : Ty) (isApproximate : Bool) :
    InStep K (bindName path id type isApproximate) (bindName path' id type isApproximate) := by
  rw [bindName_eq, bindName_eq]
  refine InStep.scope.bind fun s => ?_
  have hbind (info : TypeInfo) :
      InStep K (holdName path id type isApproximate info) (holdName path' id type isApproximate info) :=
    (InStep.rebind (fun s => s.hold id.name type isApproximate)
      (fun s loaded => if s.isModule then loaded.erase id.name else loaded) (.hold _ _ _) (hK.holds _ _ _)).bind
      fun _ => inStep_note c hK.toEvaluates hpath _ _ _
  cases s.annotation? id.name with
  | none => exact hbind _
  | some declared => exact .ite (hbind _) ((InStep.report _ _).bind fun _ => hbind _)

theorem inStep_storeAt (hK : K.Assigns place place' r c.rules) (span : Span) (object index : Expr)
    (container at_ value : Ty) : InStep K (storeAt c path span object index container at_ value)
      (storeAt (c.withRules r) path' span object index container at_ value) := by
  have hstore : ∀ after, InStep K (do
      widen object container after
      note path "IndexExpression" span ⟨value, false⟩) (do
      widen object container after
      note path' "IndexExpression" span ⟨value, false⟩) := fun after =>
    (inStep_widen hK.stores object container after).bind fun _ => inStep_note c hK.toEvaluates hpath _ _ _
  unfold storeAt
  split
  · exact hstore _
  · exact .ite (hstore _) ((InStep.report _ _).bind fun _ => hstore _)
  · exact (InStep.settle (hK.judged.index container at_ _ span)).bind fun _ => inStep_note c hK.toEvaluates hpath _ _ _

/-! ### Expressions -/

theorem inStep_call (hK : K.Evaluates place place' r c.rules) {callee : Expr} {items : List ArgExpr}
    (hcallee : InStep K (expr c (0 :: path) callee) (expr (c.withRules r) (0 :: path') callee))
    (hitems : InStep K (args c (1 :: path) 0 items) (args (c.withRules r) (1 :: path') 0 items)) (span : Span) :
    InStep K (expr c path (.call span callee items)) (expr (c.withRules r) path' (.call span callee items)) := by
  refine inStep_noted c hK hpath (InStep.scope.bind fun s => ?_)
  have hsame : calleeOf (c.withRules r) s callee = calleeOf c s callee := calleeOf_withRules c hK.judged s callee
  rw [hsame]
  cases calleeOf c s callee with
  | record => exact hitems.bind fun given => inStep_recordCall c hK.judged given span
  | builtin id sig =>
      refine (inStep_note c hK hpath.below _ _ _).bind fun _ => .look fun before _ _ _ => hitems.bind fun given => ?_
      exact inStep_builtinCall c hK.judged id sig given before.taint span
  | value =>
      refine hcallee.bind fun f => hitems.bind fun given => ?_
      refine (InStep.settle (hK.judged.call f.type given span)).bind fun t => ?_
      exact (inStep_widenOnCall hK.rebound callee given).bind fun _ => .pure t

end Steps

mutual

theorem inStep_expr (c : Setup) {K : StepKinds} {place place' path path' : NodePath} {r : Rules}
    (hK : K.Evaluates place place' r c.rules) (hpath : Alongside place place' path path') :
    (e : Expr) → InStep K (expr c path e) (expr (c.withRules r) path' e)
  | .hole => .pure _
  | .ident id => inStep_noted c hK hpath (inStep_ident c hK.judged id)
  | .str _ _ | .int _ _ | .float _ _ | .bool _ _ | .none _ => inStep_noted c hK hpath (.pure _)
  | .list _ elems | .tuple _ elems =>
      inStep_noted c hK hpath ((inStep_exprs c 0 (fun _ _ => hK.below hpath.below) elems).bind fun _ => .pure _)
  | .dict _ items => inStep_noted c hK hpath
      ((inStep_entries c 0 (fun _ _ => hK.below hpath.below) items).bind fun _ => .pure _)
  | .struct _ items => inStep_noted c hK hpath
      ((inStep_fields c 0 (fun _ _ => hK.below hpath.below) items).bind fun _ => .pure _)
  | .call span callee items => inStep_call c hpath hK (inStep_expr c hK hpath.below callee)
      (inStep_args c 0 (fun _ _ => hK.below hpath.below.below) items) span
  | .member span object name => inStep_noted c hK hpath ((inStep_expr c hK hpath.below object).bind fun _ =>
      .settle (hK.judged.attr _ _ span))
  | .index span object index => inStep_noted c hK hpath ((inStep_expr c hK hpath.below object).bind fun _ =>
      (inStep_expr c hK hpath.below index).bind fun _ => .settle (hK.judged.index _ _ _ span))
  | .slice span object start stop step => by
      refine inStep_noted c hK hpath ((inStep_expr c hK hpath.below object).bind fun value => ?_)
      refine (inStep_expr c hK hpath.below start).bind fun b => (inStep_sliceBound _ _ b).bind fun _ => ?_
      refine (inStep_expr c hK hpath.below stop).bind fun b => (inStep_sliceBound _ _ b).bind fun _ => ?_
      refine (inStep_expr c hK hpath.below step).bind fun b => (inStep_sliceBound _ _ b).bind fun _ => ?_
      exact .settle (hK.judged.slice value.type span)
  | .binary span op left right => by
      refine inStep_noted c hK hpath ((inStep_expr c hK hpath.below left).bind fun l => .ite ?_ ?_)
      · refine InStep.scope.bind fun s => (InStep.aside _ ?_).bind fun r => .pure _
        exact inStep_expr c hK.aside.toEvaluates hpath.below right
      · exact (inStep_expr c hK hpath.below right).bind fun r => .settle (hK.judged.binOp op _ _ span)
  | .unary span op operand => inStep_noted c hK hpath ((inStep_expr c hK hpath.below operand).bind fun _ =>
      .settle (hK.judged.unOp op _ span))
  | .conditional _ condition yes no => by
      refine inStep_noted c hK hpath ((inStep_expr c hK hpath.below condition).discard.bind fun _ =>
        InStep.scope.bind fun s => ?_)
      refine (InStep.aside _ (inStep_expr c hK.aside.toEvaluates hpath.below yes)).bind fun y => ?_
      exact (InStep.aside _ (inStep_expr c hK.aside.toEvaluates hpath.below no)).bind fun n => .pure _
  | .lambda span params body => by
      refine inStep_noted c hK hpath ((inStep_paramDecls c hK hpath.below 0 params).bind fun declared => ?_)
      refine (inStep_signatureOf declared .any span).bind fun sig => ?_
      refine (InStep.aside Scope.extend ?_).bind fun result => .pure _
      refine (inStep_bindParams c hpath.below hK.aside sig 0 params).bind fun _ => .inBody ?_
      exact inStep_expr c hK.aside.toEvaluates hpath.below body
  | .listComp _ elem items => inStep_noted c hK hpath (.aside _ ((inStep_clauses c hK.aside hpath.below 0 items).bind
      fun _ => (inStep_expr c hK.aside.toEvaluates hpath.below elem).bind fun _ => .pure _))
  | .dictComp _ key value items =>
      inStep_noted c hK hpath (.aside _ ((inStep_clauses c hK.aside hpath.below 0 items).bind fun _ =>
        (inStep_expr c hK.aside.toEvaluates hpath.below key).bind fun _ =>
          (inStep_expr c hK.aside.toEvaluates hpath.below value).bind fun _ => .pure _))

theorem inStep_exprs (c : Setup) {K : StepKinds} {path path' : NodePath} {r : Rules} (i : Nat)
    (hK : ∀ j, i ≤ j → K.Evaluates (j :: path) (j :: path') r c.rules) :
    (es : List Expr) → InStep K (exprs c path i es) (exprs (c.withRules r) path' i es)
  | [] => .pure _
  | e :: rest => (inStep_expr c (hK i (Nat.le_refl i)) .self e).bind fun _ =>
      (inStep_exprs c (i + 1) (fun j hj => hK j (Nat.le_of_succ_le hj)) rest).bind fun _ => .pure _

theorem inStep_entries (c : Setup) {K : StepKinds} {path path' : NodePath} {r : Rules} (i : Nat)
    (hK : ∀ j, i ≤ j → K.Evaluates (j :: path) (j :: path') r c.rules) :
    (es : List DictEntry) → InStep K (entries c path i es) (entries (c.withRules r) path' i es)
  | [] => .pure _
  | .hole :: rest => inStep_entries c (i + 1) (fun j hj => hK j (Nat.le_of_succ_le hj)) rest
  | .entry _ key value :: rest => (inStep_expr c (hK i (Nat.le_refl i)) Alongside.self.below key).bind fun _ =>
      (inStep_expr c (hK i (Nat.le_refl i)) Alongside.self.below value).bind fun _ =>
        (inStep_entries c (i + 1) (fun j hj => hK j (Nat.le_of_succ_le hj)) rest).bind fun _ => .pure _

theorem inStep_fields (c : Setup) {K : StepKinds} {path path' : NodePath} {r : Rules} (i : Nat)
    (hK : ∀ j, i ≤ j → K.Evaluates (j :: path) (j :: path') r c.rules) :
    (es : List FieldExpr) → InStep K (fields c path i es) (fields (c.withRules r) path' i es)
  | [] => .pure _
  | .hole :: rest => inStep_fields c (i + 1) (fun j hj => hK j (Nat.le_of_succ_le hj)) rest
  | .field _ _ value :: rest => (inStep_expr c (hK i (Nat.le_refl i)) Alongside.self.below value).bind fun _ =>
      (inStep_note c (hK i (Nat.le_refl i)) .self _ _ _).bind fun _ =>
        (inStep_fields c (i + 1) (fun j hj => hK j (Nat.le_of_succ_le hj)) rest).bind fun _ => .pure _

theorem inStep_args (c : Setup) {K : StepKinds} {path path' : NodePath} {r : Rules} (i : Nat)
    (hK : ∀ j, i ≤ j → K.Evaluates (j :: path) (j :: path') r c.rules) :
    (es : List ArgExpr) → InStep K (args c path i es) (args (c.withRules r) path' i es)
  | [] => .pure _
  | .hole :: rest => inStep_args c (i + 1) (fun j hj => hK j (Nat.le_of_succ_le hj)) rest
  | .arg _ _ _ value :: rest => (inStep_expr c (hK i (Nat.le_refl i)) Alongside.self.below value).bind fun _ =>
      (inStep_note c (hK i (Nat.le_refl i)) .self _ _ _).bind fun _ =>
        (inStep_args c (i + 1) (fun j hj => hK j (Nat.le_of_succ_le hj)) rest).bind fun _ => .pure _

theorem inStep_paramDecls (c : Setup) {K : StepKinds} {place place' path path' : NodePath} {r : Rules}
    (hK : K.Evaluates place place' r c.rules) (hpath : Alongside place place' path path') (i : Nat) :
    (ps : List ParamDecl) → InStep K (paramDecls c path i ps) (paramDecls (c.withRules r) path' i ps)
  | [] => .pure _
  | .hole :: rest => inStep_paramDecls c hK hpath (i + 1) rest
  | .param _ _ _ _ default :: rest => (inStep_expr c hK hpath.below.below default).bind fun _ =>
      (inStep_checkDefault _ _ _ _).bind fun _ =>
        (inStep_paramDecls c hK hpath (i + 1) rest).bind fun _ => .pure _

theorem inStep_clauses (c : Setup) {K : StepKinds} {place place' path path' : NodePath} {r : Rules}
    (hK : K.Binds place place' r c.rules) (hpath : Alongside place place' path path') (i : Nat) :
    (cs : List Clause) → InStep K (clauses c path i cs) (clauses (c.withRules r) path' i cs)
  | [] => .skip
  | .hole :: rest => inStep_clauses c hK hpath (i + 1) rest
  | .clause _ target iterable condition :: rest => by
      have hrest := inStep_clauses c hK hpath (i + 1) rest
      refine .ite ?_ ?_
      · exact (inStep_expr c hK.toEvaluates hpath.below.below condition).discard.bind fun _ =>
          (InStep.modifyScope _ (.narrow _ true true) (hK.binds _)).bind fun _ => hrest
      · exact (inStep_expr c hK.toEvaluates hpath.below.below iterable).bind fun info =>
          (InStep.settle (hK.judged.iter info.type _)).bind fun elem =>
            (inStep_assign c hK.toAssigns hpath.below.below elem info.isApproximate target).bind fun _ => hrest

theorem inStep_assign (c : Setup) {K : StepKinds} {place place' path path' : NodePath} {r : Rules}
    (hK : K.Assigns place place' r c.rules) (hpath : Alongside place place' path path') (type : Ty)
    (isApproximate : Bool) : (e : Expr) →
      InStep K (assign c path type isApproximate e) (assign (c.withRules r) path' type isApproximate e)
  | .ident id => inStep_bindName c hpath hK id type isApproximate
  | .list span elems | .tuple span elems => (inStep_unpacked c hK.judged type _ span).bind fun types =>
      inStep_assignEach c hK hpath isApproximate 0 elems types
  | .index span object index => (inStep_expr c hK.toEvaluates hpath.below object).bind fun container =>
      (inStep_expr c hK.toEvaluates hpath.below index).bind fun at_ =>
        inStep_storeAt c hpath hK span object index container.type at_.type type
  | .member span object name => (inStep_expr c hK.toEvaluates hpath.below object).bind fun value =>
      (InStep.settle (hK.judged.attr value.type name.name span)).bind fun _ => inStep_note c hK.toEvaluates hpath _ _ _
  | .hole | .str _ _ | .int _ _ | .float _ _ | .bool _ _ | .none _ => .skip
  | .dict _ _ | .struct _ _ | .call _ _ _ | .slice _ _ _ _ _ | .binary _ _ _ _ => .skip
  | .unary _ _ _ | .conditional _ _ _ _ | .lambda _ _ _ | .listComp _ _ _ | .dictComp _ _ _ _ => .skip

theorem inStep_assignEach (c : Setup) {K : StepKinds} {place place' path path' : NodePath} {r : Rules}
    (hK : K.Assigns place place' r c.rules) (hpath : Alongside place place' path path') (isApproximate : Bool)
    (i : Nat) : (es : List Expr) → (ts : List Ty) → InStep K (assignEach c path isApproximate i es ts)
      (assignEach (c.withRules r) path' isApproximate i es ts)
  | [], _ => .skip
  | _ :: _, [] => .skip
  | e :: rest, t :: types => (inStep_assign c hK hpath.below t isApproximate e).bind fun _ =>
      inStep_assignEach c hK hpath isApproximate (i + 1) rest types

end

/-! ### Statements -/

section Statements

variable (c : Setup) {K : StepKinds} {place path : NodePath} {r : Rules} (hpath : Alongside place place path path)

theorem inStep_bindExports (h : ∀ f, K.Rebound f) (i : Interface) : InStep K (bindExports i) (bindExports i) :=
  .rebind (fun s => i.exports.entries.foldl (fun (sc : Scope) (e : Text × Ty) => sc.bind e.1 e.2 false) s)
    (fun _ loaded => i.exports.entries.foldl (fun (l : NameSet) (e : Text × Ty) => l.insert e.1 ()) loaded)
    (.bindEach i.exports.entries) (h _)

theorem inStep_mergeLive (h : ∀ f, K.Rebound f) (branches : List Frame) :
    InStep K (mergeLive branches) (mergeLive branches) :=
  (InStep.modifyScope (fun s => s.merge branches) (.merge branches) (h _)).bind fun _ => .pure _

include hpath

theorem inStep_targetValue (hK : K.Evaluates place place r c.rules) (target : Expr) :
    InStep K (targetValue c path target) (targetValue (c.withRules r) path target) :=
  .ite (.pure _) ((inStep_expr c hK hpath target).bind fun _ => .pure _)

theorem inStep_assignment (hK : K.Assigns place place r c.rules) (span : Span) (op : Text) (target : Expr)
    (declared : TypeExpr) (value : Expr)
    (hannotate : assignedOperator op = "" → declared.isHole = false → ∀ id, target = .ident id →
      K.Rebound fun s => s.annotate id.name declared.denote) :
    InStep K (assignment c path span op target declared value)
      (assignment (c.withRules r) path span op target declared value) := by
  unfold assignment
  split
  · next hplain =>
    refine (inStep_expr c hK.toEvaluates hpath.below value).bind fun info => ?_
    have hassign := inStep_assign c hK (hpath.below (i := 0)) info.type info.isApproximate target
    dsimp only
    split
    · next hdeclared =>
      split
      · next id =>
        exact (InStep.modifyScope (fun s => s.annotate id.name declared.denote) (.annotate _ _)
          (hannotate hplain ((Bool.not_eq_true' _).mp hdeclared) id rfl)).bind fun _ => hassign
      · exact .ite hassign ((InStep.report _ _).bind fun _ => hassign)
    · exact hassign
  · refine (inStep_targetValue c hpath.below hK.toEvaluates target).bind fun current =>
      (inStep_expr c hK.toEvaluates hpath.below value).bind fun right => ?_
    refine (inStep_augmented c hK.judged _ current right.type span _).bind fun type => ?_
    split
    · exact inStep_bindName c hpath.below hK _ type right.isApproximate
    · exact .skip

theorem inStep_returnStmt (hK : K.Walks place r c.rules) (span : Span) (value : Expr) :
    InStep K (returnStmt c path span value) (returnStmt (c.withRules r) path span value) := by
  refine (inStep_expr c hK.toEvaluates hpath.below value).bind fun info => .look fun s _ _ _ => ?_
  dsimp only
  split
  · exact .ite (.returned hK.leaves info) ((InStep.report _ _).bind fun _ => .returned hK.leaves info)
  · exact .returned hK.leaves info

theorem inStep_bindLoaded (hK : K.Binds place place r c.rules) (id : Ident) (info : TypeInfo) :
    InStep K (bindLoaded path id info) (bindLoaded path id info) :=
  (InStep.rebind (fun s => s.bind id.name info.type info.isApproximate)
    (fun _ loaded => loaded.insert id.name ()) (.bind _ _ _) (hK.binds _)).bind fun _ =>
      inStep_note c hK.toEvaluates hpath _ _ _

theorem inStep_loadSymbol (hK : K.Binds place place r c.rules) (module : Text) (source : Option Interface)
    (sym : LoadSymbol) : InStep K (loadSymbol path module source sym) (loadSymbol path module source sym) := by
  cases sym with
  | hole => exact .skip
  | symbol span here name =>
      cases source with
      | none =>
          exact .ite (.modifyScope Scope.markWildcard .markWildcard (hK.binds _)) (inStep_bindLoaded c hpath hK _ _)
      | some i =>
          refine .ite (inStep_bindExports hK.binds i) ?_
          cases i.get? name with
          | none => exact (InStep.report _ _).bind fun _ => inStep_bindLoaded c hpath hK _ _
          | some t => exact inStep_bindLoaded c hpath hK _ _

theorem inStep_loadSymbols (hK : K.Binds place place r c.rules) (module : Text) (source : Option Interface) (i : Nat)
    (symbols : List LoadSymbol) :
    InStep K (loadSymbols path module source i symbols) (loadSymbols path module source i symbols) := by
  induction symbols generalizing i with
  | nil => exact .skip
  | cons sym rest ih => exact (inStep_loadSymbol c hpath.below hK module source sym).bind fun _ => ih (i + 1)

theorem inStep_load (hK : K.Binds place place r c.rules) (span : Span) (module : Text) (symbols : List LoadSymbol) :
    InStep K (load c path span module symbols) (load (c.withRules r) path span module symbols) :=
  .ite ((InStep.approximate _ _ _).bind fun _ => inStep_loadSymbols c hpath hK _ _ _ _)
    (inStep_loadSymbols c hpath hK _ _ _ _)

end Statements

mutual

theorem inStep_stmt (c : Setup) {K : StepKinds} {place path : NodePath} {r : Rules}
    (hK : K.Walks place r c.rules) (hpath : place <:+ path) :
    (s : Stmt) → InStep K (stmt c path s) (stmt (c.withRules r) path s)
  | .hole => .pure _
  | .expr e => (inStep_expr c hK.toEvaluates (.of_suffix hpath) e).bind fun _ => .pure _
  | .assign span op target declared value =>
      (inStep_assignment c (.of_suffix hpath) hK.toAssigns span op target declared value
        fun _ _ _ _ => hK.binds _).bind fun _ => .pure _
  | .define span name params result body => by
      refine (inStep_paramDecls c hK.toEvaluates (.under hpath) 0 params).bind fun given => ?_
      refine (inStep_signatureOf given result.denote span).bind fun sig => ?_
      refine (InStep.modifyScope (fun s => s.bind name.name (.function sig) _) (.bind _ _ _) (hK.binds _)).bind
        fun _ => (InStep.aside Scope.extend ?_).bind fun walked => ?_
      · exact (inStep_bindParams c (.under hpath) hK.aside.toBinds sig 0 params).bind fun _ =>
          .inFunction _ (inStep_block c hK.aside (below hpath) 0 body)
      · exact (inStep_bindName c (.under hpath) hK.toAssigns name _ _).bind fun _ => .pure _
  | .ret span value => (inStep_returnStmt c (.of_suffix hpath) hK span value).bind fun _ => .pure _
  | .branch _ condition yes no => by
      refine (inStep_expr c hK.toEvaluates (.under hpath) condition).discard.bind fun _ => InStep.scope.bind fun s => ?_
      refine (InStep.branch (inStep_block c hK.aside (below hpath) 0 yes)).bind fun y => ?_
      exact (InStep.branch (inStep_block c hK.aside (below hpath) 0 no)).bind fun n => inStep_mergeLive hK.binds _
  | .forIn _ target iterable body => by
      refine (inStep_expr c hK.toEvaluates (.under hpath) iterable).bind fun info => ?_
      refine (InStep.settle (hK.judged.iter info.type _)).bind fun elem => InStep.scope.bind fun s => ?_
      refine (InStep.branch ?_).bind fun walked => inStep_mergeLive hK.binds _
      exact (inStep_assign c hK.aside.toAssigns (.under hpath) elem info.isApproximate target).bind fun _ =>
        .inLoop (inStep_block c hK.aside (below hpath) 0 body)
  | .whileDo _ condition body => by
      refine (inStep_expr c hK.toEvaluates (.under hpath) condition).discard.bind fun _ => InStep.scope.bind fun s => ?_
      refine InStep.scope.bind fun before =>
        (InStep.branch (.inLoop (inStep_block c hK.aside (below hpath) 0 body))).bind ?_
      exact fun walked => .ite (inStep_mergeLive hK.binds _) (inStep_mergeLive hK.binds _)
  | .exit _ => (InStep.leaveLoop hK.leaves true).bind fun _ => .pure _
  | .next _ => (InStep.leaveLoop hK.leaves false).bind fun _ => .pure _
  | .pass _ => .pure _
  | .load span module symbols => (inStep_load c (.of_suffix hpath) hK.toBinds span module symbols).bind fun _ => .pure _

theorem inStep_block (c : Setup) {K : StepKinds} {place path : NodePath} {r : Rules}
    (hK : K.Walks place r c.rules) (hpath : place <:+ path) (i : Nat) :
    (stmts : List Stmt) → InStep K (block c path i stmts) (block (c.withRules r) path i stmts)
  | [] => .pure _
  | s :: rest => (inStep_stmt c hK (below hpath) s).bind fun _ =>
      .ite (inStep_block c hK hpath (i + 1) rest)
        ((InStep.unreached (inStep_deadBlock c hK.aside hpath (i + 1) rest)).bind fun _ => .pure _)

theorem inStep_deadBlock (c : Setup) {K : StepKinds} {place path : NodePath} {r : Rules}
    (hK : K.Walks place r c.rules) (hpath : place <:+ path) (i : Nat) :
    (stmts : List Stmt) → InStep K (deadBlock c path i stmts) (deadBlock (c.withRules r) path i stmts)
  | [] => .skip
  | s :: rest => (inStep_stmt c hK (below hpath) s).discard.bind fun _ => inStep_deadBlock c hK hpath (i + 1) rest

end

end Check

end Gradual
