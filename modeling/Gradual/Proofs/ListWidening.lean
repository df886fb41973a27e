import Gradual.Oracle.Standard
import Gradual.Proofs.StepEffects
import Gradual.Proofs.UnionAlgebra

/-! Evaluating an expression changes a scope only by letting lists hold more. A method call widens a list that an
own entry of the scope binds; all else that an expression binds is bound in a scope that is left again. Lists may
be widened many times in one evaluation. A union takes in the alternatives of its first member before all others
and never loses them, so that what was added step by step could have been added at once. -/

namespace Gradual

/-! ### Unions that take in more -/

namespace Ty

variable {t u : Ty}

theorem Normal.subtype_union_left (ht : t.Normal) (u : Ty) : t.subtype (union [t, u]) = true := by
  by_cases hany : .any ∈ t.alts ++ u.alts
  · rw [union_pair, ofAlts_of_any_mem hany]
    exact subtype_any t
  · refine subtype_of_forall fun a ha => ⟨a, ?_, ?_⟩
    · have hsame : Alt.insertAll t.alts [] = t.alts := Alt.insertAll_of_pairwise ht.here.sorted
      rw [alts_union_pair hany, Alt.insertAll_append, hsame]
      exact Alt.mem_insertAll_of_mem ha
    · exact ht.below_self ha

end Ty

/-! ### Scopes whose lists hold more -/

namespace Scope.Widens

variable {s s' s'' : Scope}

/-- What is added to a list in two steps may be added in one. -/
theorem trans (h : s.Widens s') (h' : s'.Widens s'') : s.Widens s'' where
  outer := h'.outer.trans h.outer
  isCopy := h'.isCopy.trans h.isCopy
  annotations := h'.annotations.trans h.annotations
  isWildcard := h'.isWildcard.trans h.isWildcard
  symbols name := by
    rcases h'.symbols name with hsame' | ⟨hnone', elem', added', isApproximate', hlist', hwider'⟩
    · rw [hsame']
      exact h.symbols name
    · rw [Scope.annotation?, h.annotations] at hnone'
      refine Or.inr ⟨hnone', ?_⟩
      rcases h.symbols name with hsame | ⟨_, elem, added, isApproximate, hlist, hwider⟩
      · exact ⟨elem', added', isApproximate', hsame ▸ hlist', hwider'⟩
      · cases hwider.symm.trans hlist'
        refine ⟨elem, .union [.union [elem, added], added'], _, hlist, hwider'.trans ?_⟩
        rw [Ty.union_absorbs]

theorem hasLocal (h : s.Widens s') (name : Text) : s'.hasLocal name = s.hasLocal name := by
  show (s'.own.symbols.get? name).isSome = (s.own.symbols.get? name).isSome
  rcases h.symbols name with hsame | ⟨_, _, _, _, hlist, hwider⟩
  · rw [hsame]
  · rw [hlist, hwider]
    rfl

end Scope.Widens

theorem State.Moves.widens {K : Check.StepKinds} {s s' : State} (h : s.Moves K s')
    (hK : ∀ f, K.Rebound f → Check.WidensLists f) : s.scope.Widens s'.scope :=
  h.kept s.scope.Widens (fun f _ hf s' hs' => hs'.trans (hK f hf s')) (.refl s.scope)

namespace Check

theorem widens_expr (c : Setup) (path : NodePath) (e : Expr) (s : State) :
    s.scope.Widens ((expr c path e).run s).2.scope := (moves_expr c path s e).widens fun _ hf => hf

/-- Evaluating an expression leaves the scopes around the present one as they are, and so the loops and functions that
are being walked. In the present scope, the same names are bound, annotated and approximate. A name whose type changes
has no annotation, was a list and is a list of the former elements and others. -/
theorem expr_widens_lists_only (c : Setup) (path : NodePath) (e : Expr) (s : State) :
    let after := ((expr c path e).run s).2
    after.scope.outer = s.scope.outer ∧ after.loops = s.loops ∧ after.functions = s.functions ∧
    (∀ name, after.scope.hasLocal name = s.scope.hasLocal name) ∧
    after.scope.own.annotations = s.scope.own.annotations ∧ after.scope.own.isWildcard = s.scope.own.isWildcard ∧
    ∀ name b b', s.scope.own.symbols.get? name = some b → after.scope.own.symbols.get? name = some b' →
      b'.isApproximate = b.isApproximate ∧
      (b'.type ≠ b.type → s.scope.annotation? name = none ∧ ∃ elem added, b.type = .list elem ∧
        b'.type = .list (.union [elem, added]) ∧ (b.type.Normal → b.type.subtype b'.type = true)) := by
  intro after
  have hmoves := moves_expr c path s e
  have hwidens : s.scope.Widens after.scope := widens_expr c path e s
  refine ⟨hwidens.outer, hmoves.loops id, hmoves.functions id, hwidens.hasLocal, hwidens.annotations,
    hwidens.isWildcard, fun name b b' hb hb' => ?_⟩
  rcases hwidens.symbols name with hsame | ⟨hnone, elem, added, isApproximate, hlist, hwider⟩
  · cases hb'.symm.trans (hsame.trans hb)
    exact ⟨rfl, fun hne => absurd rfl hne⟩
  · cases hb.symm.trans hlist
    cases hb'.symm.trans hwider
    refine ⟨rfl, fun _ => ⟨hnone, elem, added, rfl, rfl, fun hnormal => ?_⟩⟩
    have helem : elem.Normal := hnormal.alt List.mem_cons_self elem List.mem_cons_self
    exact Ty.list_subtype_list_iff.mpr (helem.subtype_union_left added)

/-- Two calls that add to one list: `[x.append("a"), x.append(None)]`. -/
def appendsTwice : Expr :=
  .list {} [.call {} (.member {} (.ident ⟨{}, "x"⟩) ⟨{}, "append"⟩) [.arg {} "positional" "" (.str {} "a")],
    .call {} (.member {} (.ident ⟨{}, "x"⟩) ⟨{}, "append"⟩) [.arg {} "positional" "" (.none {})]]

/-- A list of integers that is only approximately known. -/
def holdsList : State := { scope := { own := { symbols := .ofList [("x", ⟨.list .int, true⟩)] } } }

theorem expr_widens_lists_only_appendsTwice :
    ∃ b', ((expr { rules := ⟨.standard, .lint⟩ } [] appendsTwice).run holdsList).2.scope.own.symbols.get? "x" =
      some b' ∧ b'.type.text = "list[None | int | str]" ∧ b'.isApproximate = true ∧
      (∃ added, b'.type = .list (.union [.int, added])) ∧ (Ty.list .int).subtype b'.type = true := by
  obtain ⟨b', hb'⟩ := Option.isSome_iff_exists.mp (show (((expr { rules := ⟨.standard, .lint⟩ } []
    appendsTwice).run holdsList).2.scope.own.symbols.get? "x").isSome = true by decide +kernel)
  have htext : b'.type.text = "list[None | int | str]" := by
    refine Option.some_inj.mp ?_
    rw [← Option.map_some (f := fun b : Binding => b.type.text), ← hb']
    decide +kernel
  have hchanged : b'.type ≠ .list .int := by
    intro hsame
    rw [hsame] at htext
    exact absurd htext (by decide +kernel)
  obtain ⟨-, -, -, -, -, -, hnames⟩ := expr_widens_lists_only { rules := ⟨.standard, .lint⟩ } [] appendsTwice holdsList
  obtain ⟨hflag, htype⟩ := hnames "x" ⟨.list .int, true⟩ b' rfl hb'
  obtain ⟨-, elem, added, hlist, hwider, hsubtype⟩ := htype hchanged
  cases hlist
  exact ⟨b', hb', htext, hflag, ⟨added, hwider⟩, hsubtype (Ty.everywhere_of_holdsInside 2 (by decide +kernel))⟩

end Check

end Gradual
