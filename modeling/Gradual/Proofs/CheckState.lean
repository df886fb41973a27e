import Gradual.Check.Narrowing
import Gradual.Check.State
import Gradual.Proofs.Operations

/-! The state of a check within a vocabulary. A step keeps to the vocabulary if it leads from states within it
to states within it; steps in sequence, walks aside and walks of branches, loops and functions do so if their
parts do. -/

namespace Gradual

variable {v : Vocabulary}

/-! ### Scopes -/

/-- The entries of a scope within a vocabulary. -/
structure Frame.Within (v : Vocabulary) (f : Frame) : Prop where
  sorted : f.symbols.IsSorted
  symbols : f.symbols.All fun name b => v.IsName name ∧ v.IsType b.type
  annotations : f.annotations.All fun _ t => v.IsType t

def Scope.Within (v : Vocabulary) (s : Scope) : Prop := ∀ f ∈ s.frames, f.Within v

namespace Frame

theorem within_empty : ({} : Frame).Within v := ⟨NameMap.isSorted_empty, NameMap.all_empty, NameMap.all_empty⟩

theorem Within.bind {f : Frame} (h : f.Within v) {name : Text} {t : Ty} (hname : v.IsName name)
    (ht : v.IsType t) (isApproximate : Bool) : (f.bind name t isApproximate).Within v where
  sorted := h.sorted.insert name _
  symbols := h.symbols.insert ⟨hname, ht⟩
  annotations := h.annotations

theorem Within.annotate {f : Frame} (h : f.Within v) (name : Text) {t : Ty} (ht : v.IsType t) :
    (f.annotate name t).Within v :=
  { h with annotations := h.annotations.insert ht }

/-- Bindings that are joined one by one. -/
def IsJoin (v : Vocabulary) (symbols : NameMap Binding) : Prop :=
  symbols.IsSorted ∧ symbols.All fun name b => v.IsName name ∧ v.IsType b.type

theorem isJoin_joinEntry (hv : v.Closed) {symbols : NameMap Binding} {name : Text} {b : Binding}
    (h : IsJoin v symbols) (hname : v.IsName name) (hb : v.IsType b.type) :
    IsJoin v (joinEntry symbols name b) := by
  rw [joinEntry]
  split
  · next old hold =>
    exact ⟨h.1.insert name _, h.2.insert ⟨hname, hv.union₂ (h.2.get? hold).2 hb⟩⟩
  · exact ⟨h.1.insert name _, h.2.insert ⟨hname, hv.union (List.forall_mem_singleton.mpr hb)⟩⟩

theorem isJoin_joinSymbols (hv : v.Closed) {branches : List Frame} (hbranches : ∀ f ∈ branches, f.Within v) :
    IsJoin v (joinSymbols branches) := by
  refine List.foldlRecOn branches _ ⟨NameMap.isSorted_empty, NameMap.all_empty⟩ fun joined hjoined f hf => ?_
  refine List.foldlRecOn f.symbols.entries _ hjoined fun symbols hsymbols e he => ?_
  obtain ⟨hname, ht⟩ := (hbranches f hf).symbols e he
  exact isJoin_joinEntry hv hsymbols hname ht

theorem within_merge (hv : v.Closed) {f : Frame} {branches : List Frame} (hf : f.Within v)
    (hbranches : ∀ b ∈ branches, b.Within v) : (f.merge branches).Within v := by
  rw [merge]
  split
  · exact hf
  · have hsymbols := isJoin_joinSymbols hv hbranches
    refine ⟨hsymbols.1, hsymbols.2, ?_⟩
    exact List.foldlRecOn branches _ hf.annotations fun annotations h b hb =>
      h.overlay (hbranches b hb).annotations

end Frame

namespace Scope

variable {s : Scope}

theorem within_iff : s.Within v ↔ s.own.Within v ∧ ∀ f ∈ s.outer, f.Within v := List.forall_mem_cons

theorem Within.own (h : s.Within v) : s.own.Within v := (within_iff.mp h).1

theorem Within.withOwn (h : s.Within v) {f : Frame} (hf : f.Within v) : Scope.Within v { s with own := f } :=
  within_iff.mpr ⟨hf, (within_iff.mp h).2⟩

theorem Within.copy (h : s.Within v) : s.copy.Within v := h

theorem Within.extend (h : s.Within v) : s.extend.Within v := List.forall_mem_cons.mpr ⟨Frame.within_empty, h⟩

theorem Within.bind (h : s.Within v) {name : Text} {t : Ty} (hname : v.IsName name) (ht : v.IsType t)
    (isApproximate : Bool) : (s.bind name t isApproximate).Within v :=
  h.withOwn (h.own.bind hname ht isApproximate)

theorem Within.retype (h : s.Within v) {name : Text} {t : Ty} (hname : v.IsName name) (ht : v.IsType t) :
    (s.retype name t).Within v :=
  h.bind hname ht _

theorem Within.annotate (h : s.Within v) (name : Text) {t : Ty} (ht : v.IsType t) :
    (s.annotate name t).Within v :=
  h.withOwn (h.own.annotate name ht)

theorem Within.markWildcard (h : s.Within v) : s.markWildcard.Within v :=
  h.withOwn ⟨h.own.sorted, h.own.symbols, h.own.annotations⟩

theorem Within.merge (hv : v.Closed) (h : s.Within v) {branches : List Frame}
    (hbranches : ∀ f ∈ branches, f.Within v) : (s.merge branches).Within v :=
  h.withOwn (Frame.within_merge hv h.own hbranches)

theorem Within.resolve? (h : s.Within v) {name : Text} {b : Binding} (hb : s.resolve? name = some b) :
    v.IsName name ∧ v.IsType b.type := by
  obtain ⟨f, hf, hget⟩ := List.exists_of_findSome?_eq_some hb
  exact (h f hf).symbols.get? hget

theorem Within.annotation? (h : s.Within v) {name : Text} {t : Ty} (ht : s.annotation? name = some t) :
    v.IsType t :=
  h.own.annotations.get? ht

end Scope

/-! ### States -/

/-- The entries with which a loop was left or its next round begun, within a vocabulary. -/
structure LoopFrame.Within (v : Vocabulary) (l : LoopFrame) : Prop where
  exits : ∀ f ∈ l.exits, f.Within v
  nexts : ∀ f ∈ l.nexts, f.Within v

structure FunctionFrame.Within (v : Vocabulary) (f : FunctionFrame) : Prop where
  declared : ∀ t, f.declared = some t → v.IsType t
  returns : ∀ t ∈ f.returns, v.IsType t

structure State.Within (v : Vocabulary) (s : State) : Prop where
  scope : s.scope.Within v
  errors : ∀ e ∈ s.errors, e.Within v
  approximations : ∀ a ∈ s.approximations, a.Within v
  types : ∀ n ∈ s.types.notes, v.IsType n.info.type
  loops : ∀ l ∈ s.loops, l.Within v
  functions : ∀ f ∈ s.functions, f.Within v
  isBroken : s.isBroken = true → v.MayBreak

theorem State.within_empty : ({} : State).Within v where
  scope := List.forall_mem_singleton.mpr Frame.within_empty
  errors := List.forall_mem_nil _
  approximations := List.forall_mem_nil _
  types := List.forall_mem_nil _
  loops := List.forall_mem_nil _
  functions := List.forall_mem_nil _
  isBroken := fun h => absurd h Bool.false_ne_true

namespace State.Within

variable {s : State} (h : s.Within v)

include h

theorem report {errors : List TypingError} (herrors : ∀ e ∈ errors, e.Within v) : (s.report errors).Within v := by
  rw [State.report]
  split
  · exact { h with errors := List.forall_mem_append.mpr ⟨h.errors, herrors⟩ }
  · exact h

theorem approximate {approximations : List Approximation} (happrox : ∀ a ∈ approximations, a.Within v) :
    (s.approximate approximations).Within v := by
  refine { h with approximations := ?_ }
  dsimp only [State.approximate]
  split
  · exact List.forall_mem_append.mpr ⟨h.approximations, happrox⟩
  · exact h.approximations

theorem note (hv : v.Closed) (path : NodePath) (form : Text) (span : Span) {info : TypeInfo}
    (hinfo : v.IsType info.type) : (s.note path form span info).Within v := by
  refine { h with types := List.forall_mem_cons.mpr ⟨?_, h.types⟩ }
  dsimp only
  split
  · exact hinfo
  · exact hv.never

end State.Within

abbrev TypeInfo.Within (v : Vocabulary) (info : TypeInfo) : Prop := v.IsType info.type

namespace Check

/-! ### Steps -/

/-- A step keeps to a vocabulary and gives results with a property. -/
def Keeps {α : Type} (v : Vocabulary) (Q : α → Prop) (step : Check α) : Prop :=
  ∀ s : State, s.Within v → Q (step.run s).1 ∧ (step.run s).2.Within v

/-- A step that keeps to a vocabulary, whatever it results in. -/
abbrev Safe {α : Type} (v : Vocabulary) (step : Check α) : Prop := Keeps v (fun _ => True) step

namespace Keeps

variable {α β : Type} {Q : α → Prop} {R : β → Prop}

theorem pure {a : α} (h : Q a) : Keeps v Q (Pure.pure a : Check α) := fun _ hs => ⟨h, hs⟩

theorem bind {step : Check α} {next : α → Check β} (h : Keeps v Q step) (hnext : ∀ a, Q a → Keeps v R (next a)) :
    Keeps v R (step >>= next) := fun s hs => hnext _ (h s hs).1 _ (h s hs).2

theorem get : Keeps v (State.Within v) (MonadState.get : Check State) := fun _ hs => ⟨hs, hs⟩

theorem modify {f : State → State} (h : ∀ s, s.Within v → (f s).Within v) : Safe v (modify f) :=
  fun s hs => ⟨trivial, h s hs⟩

theorem discard {step : Check α} (h : Keeps v Q step) : Safe v (discard step) :=
  fun s hs => ⟨trivial, (h s hs).2⟩

theorem skip : Safe v (Pure.pure () : Check Unit) := pure trivial

theorem ite {c : Prop} [Decidable c] {yes no : Check α} (hyes : Keeps v Q yes) (hno : Keeps v Q no) :
    Keeps v Q (if c then yes else no) := by
  split
  · exact hyes
  · exact hno

end Keeps

theorem keeps_scope : Keeps v (Scope.Within v) scope := Keeps.get.bind fun _ hs => .pure hs.scope

theorem safe_modifyScope {f : Scope → Scope} (h : ∀ s, s.Within v → (f s).Within v) : Safe v (modifyScope f) :=
  .modify fun s hs => { hs with scope := h s.scope hs.scope }

theorem safe_report {e : TypingError} (he : e.Within v) (span : Span) : Safe v (report e span) :=
  .modify fun _ hs => hs.report (List.forall_mem_singleton.mpr (he.located span))

theorem safe_approximate (hv : v.Closed) {category message : Text} (hcategory : category.isAscii = true)
    (hmessage : v.IsName message) (span : Span) : Safe v (approximate category message span) :=
  .modify fun _ hs => hs.approximate (List.forall_mem_singleton.mpr ⟨hv.ascii hcategory, hmessage⟩)

theorem safe_taint : Safe v taint := .modify fun _ hs => { hs with }

theorem safe_note (hv : v.Closed) (path : NodePath) (form : Text) (span : Span) {info : TypeInfo}
    (hinfo : v.IsType info.type) : Safe v (note path form span info) :=
  .modify fun _ hs => hs.note hv path form span hinfo

theorem keeps_settle {j : Judgement} (hj : j.Within v) : Keeps v v.IsType (settle j) := by
  refine Keeps.bind (.modify fun s hs => ?_) fun _ _ => .pure hj.type
  have hreported := (hs.report hj.errors).approximate hj.approximations
  exact { hreported with isBroken := fun h => (Bool.or_eq_true_iff.mp h).elim hreported.isBroken hj.broken }

theorem keeps_noted (hv : v.Closed) {path : NodePath} {form : Text} {span : Span} {eval : Check Ty}
    (h : Keeps v v.IsType eval) : Keeps v (TypeInfo.Within v) (noted path form span eval) := by
  refine Keeps.get.bind fun before _ => h.bind fun t ht => Keeps.get.bind fun after _ => ?_
  exact (safe_note hv path form span ht).bind fun _ _ => .pure ht

section Walks

variable {α : Type} {Q : α → Prop} {walk : Check α}

theorem keeps_aside {enter : Scope → Scope} (henter : ∀ s, s.Within v → (enter s).Within v)
    (h : Keeps v Q walk) : Keeps v Q (aside enter walk) := by
  refine keeps_scope.bind fun here hhere => (safe_modifyScope henter).bind fun _ _ => h.bind fun a ha => ?_
  exact (safe_modifyScope fun _ _ => hhere).bind fun _ _ => .pure ha

theorem keeps_branch {enter : Scope → Scope} (henter : ∀ s, s.Within v → (enter s).Within v)
    (h : Keeps v Q walk) : Keeps v (fun w => Q w.1 ∧ w.2.Within v) (branch enter walk) := by
  refine keeps_aside (fun s hs => henter s.copy hs) (h.bind fun a ha => ?_)
  exact keeps_scope.bind fun s hs => .pure ⟨ha, hs.own⟩

theorem safe_unreached {walk : Check Unit} (h : Safe v walk) : Safe v (unreached walk) := by
  refine Keeps.bind (.modify fun s hs => { hs with }) fun _ _ => ?_
  refine (keeps_aside (fun _ hs => hs.copy) h).bind fun _ _ => ?_
  exact .modify fun s hs => { hs with }

theorem keeps_inLoop (h : Keeps v Q walk) : Keeps v (fun w => Q w.1 ∧ w.2.Within v) (inLoop walk) := by
  have hempty : ({} : LoopFrame).Within v :=
    ⟨List.forall_mem_nil _, List.forall_mem_nil _⟩
  refine Keeps.bind (.modify fun s hs => { hs with loops := List.forall_mem_cons.mpr ⟨hempty, hs.loops⟩ })
    fun _ _ => h.bind fun a ha => Keeps.get.bind fun s hs => ?_
  refine Keeps.bind (.modify fun s hs => { hs with loops := fun l hl => hs.loops l (List.mem_of_mem_tail hl) })
    fun _ _ => .pure ⟨ha, ?_⟩
  cases hloops : s.loops with
  | nil => exact hempty
  | cons l rest => exact hs.loops l (hloops ▸ List.mem_cons_self)

theorem keeps_inBody (h : Keeps v Q walk) : Keeps v Q (inBody walk) := by
  refine Keeps.bind (.modify fun s hs => { hs with }) fun _ _ => h.bind fun a ha => ?_
  exact Keeps.bind (.modify fun s hs => { hs with }) fun _ _ => .pure ha

theorem keeps_inFunction {declared : Option Ty} (hdeclared : ∀ t, declared = some t → v.IsType t)
    (h : Keeps v Q walk) : Keeps v (fun w => Q w.1 ∧ w.2.Within v) (inFunction declared walk) := by
  have hstart : FunctionFrame.Within v { declared := declared } :=
    ⟨hdeclared, List.forall_mem_nil _⟩
  refine Keeps.bind (.modify fun s hs => { hs with functions := List.forall_mem_cons.mpr ⟨hstart, hs.functions⟩ })
    fun _ _ => (keeps_inBody h).bind fun a ha => Keeps.get.bind fun s hs => ?_
  refine Keeps.bind (.modify fun s hs =>
    { hs with functions := fun f hf => hs.functions f (List.mem_of_mem_tail hf) }) fun _ _ => .pure ⟨ha, ?_⟩
  cases hfunctions : s.functions with
  | nil => exact ⟨fun _ h => (nomatch h), List.forall_mem_nil _⟩
  | cons f rest => exact hs.functions f (hfunctions ▸ List.mem_cons_self)

end Walks

end Check

end Gradual
