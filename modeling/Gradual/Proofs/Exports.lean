import Gradual.Oracle.Standard
import Gradual.Proofs.NameWalk

/-! Which names a module exports. A name of the module's scope is exported unless it begins with an underscore or
counts as loaded, and it counts as loaded if some load of it, wherever it stands, is not followed by a binding
directly in the module. -/

namespace Gradual

theorem forall_cons_eq_append_iff {α : Type} {P : List α → Prop} {a b : α} {rest : List α} :
    (∀ pre post, a :: rest = pre ++ b :: post → P post) ↔
      (a = b → P rest) ∧ ∀ pre post, rest = pre ++ b :: post → P post := by
  constructor
  · intro h
    refine ⟨fun hab => h [] rest (by rw [hab, List.nil_append]), fun pre post hrest => ?_⟩
    exact h (a :: pre) post (by rw [hrest, List.cons_append])
  · rintro ⟨hfirst, hrest⟩ pre post heq
    cases pre with
    | nil =>
        obtain ⟨hab, rfl⟩ := List.cons.inj heq
        exact hfirst hab
    | cons _ pre => exact hrest pre post (List.cons.inj heq).2

theorem foldl_after_eq_false_iff (n : Text) (isLoaded : Bool) (events : List NameEvent) :
    events.foldl (NameEvent.after true n) isLoaded = false ↔
      (isLoaded = true → .bind n ∈ events) ∧ ∀ pre post, events = pre ++ .load n :: post → .bind n ∈ post := by
  induction events generalizing isLoaded with
  | nil => simp
  | cons e rest ih =>
      rw [List.foldl_cons, ih, forall_cons_eq_append_iff, ← and_assoc]
      refine and_congr_left fun _ => ?_
      cases e with
      | load name =>
          have hstep : NameEvent.after true n isLoaded (.load name) = true ↔ n = name ∨ isLoaded = true := by
            simp [NameEvent.after]
          simp only [hstep, List.mem_cons, reduceCtorEq, false_or, NameEvent.load.injEq, or_imp]
          rw [and_comm, eq_comm (a := n)]
      | bind name =>
          have hstep : NameEvent.after true n isLoaded (.bind name) = true ↔ isLoaded = true ∧ n ≠ name := by
            simp [NameEvent.after]
          simp only [hstep, List.mem_cons, reduceCtorEq, false_imp_iff, and_true, NameEvent.bind.injEq, and_imp]
          exact imp_congr_right fun _ => or_iff_not_imp_left.symm

namespace Module

/-- What a module does to names, in order. Of the code in functions and other statements, and of code that is not
reached, only the loads count. -/
def nameEvents (rules : Rules) (loads : NameMap Interface) (m : Module) : List NameEvent :=
  Check.blockEvents ⟨rules, loads, Forward.collect .empty m.body⟩ [] 0 m.body {}

variable (rules : Rules) (loads : NameMap Interface) (m : Module)

theorem contains_loaded_walked (n : Text) : (walked rules loads m).loaded.contains n =
    (m.nameEvents rules loads).foldl (NameEvent.after true n) false :=
  (Check.effect_block _ [] 0 m.body {}).loaded n

/-- Exactly the names bound at the end are exported that do not begin with an underscore and of which every load is
followed by an assignment or a definition directly in the module. -/
theorem interface_eq_some_iff (n : Text) (t : Ty) :
    (m.check rules loads).interface.get? n = some t ↔
      ((m.check rules loads).globals.own.symbols.get? n).map (·.type) = some t ∧ Text.startsWith n "_" = false ∧
      ∀ pre post, m.nameEvents rules loads = pre ++ .load n :: post → .bind n ∈ post := by
  have hget : (m.check rules loads).interface.get? n =
      if isExported (walked rules loads m).loaded n then
        ((m.check rules loads).globals.own.symbols.get? n).map (·.type) else none := by
    refine (NameMap.get?_map _ _ n).trans ?_
    rw [NameMap.get?_filter]
    split <;> rfl
  have hexported : isExported (walked rules loads m).loaded n = true ↔ Text.startsWith n "_" = false ∧
      ∀ pre post, m.nameEvents rules loads = pre ++ .load n :: post → .bind n ∈ post := by
    rw [isExported, Bool.and_eq_true, Bool.not_eq_true', Bool.not_eq_true', contains_loaded_walked,
      foldl_after_eq_false_iff]
    simp only [Bool.false_eq_true, false_imp_iff, true_and]
  rw [hget, ← hexported, and_comm]
  split
  · next h => exact (and_iff_right h).symm
  · next h => exact iff_of_false (Option.some_ne_none t).symm fun hboth => h hboth.1

/-- A module that binds `x` and defines a function of this body. -/
def withBody (body : List Stmt) : Module :=
  ⟨{}, [.assign {} "=" (.ident ⟨{}, "x"⟩) .hole (.int {} 1), .define {} ⟨{}, "f"⟩ [] .hole body]⟩

/-- A load in the body of a function takes an assigned name out of the exports, although the module's own `x` is
bound as before. -/
theorem load_in_body_hides_export :
    let loads : NameMap Interface := .ofList [("m", ⟨.ofList [("x", .str)]⟩)]
    let silent := (withBody []).check ⟨.standard, .lint⟩ loads
    let loading := (withBody [.load {} "m" [.symbol {} none "x"]]).check ⟨.standard, .lint⟩ loads
    (loading.globals.own.symbols.get? "x").map (·.type.text) = some "int" ∧
      (silent.interface.get? "x").map (·.text) = some "int" ∧ (loading.interface.get? "x").isNone = true := by
  decide +kernel

end Module

end Gradual
