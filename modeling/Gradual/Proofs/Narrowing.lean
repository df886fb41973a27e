import Gradual.Check.Narrowing
import Gradual.Proofs.Survival

/-! Narrowing never rules out the alternative that a value has. Conditions get a meaning of their own: each
name is given one alternative of its type, type tests are decided by what its values are called at run
time, and what is not a test may come out either way. Whatever a condition then comes out as, the
alternative of each name survives in the type that the name is narrowed to on that branch. -/

namespace Gradual

/-! ### Names of types at run time -/

/-- What values of an alternative are called at run time. -/
def Alt.runtimeNames : Alt → List Text
  | .prim .none => ["NoneType"]
  | .prim .bool => ["bool"]
  | .prim .int => ["int"]
  | .prim .float => ["float"]
  | .prim .str => ["str", "string"]
  | .list _ => ["list"]
  | .tuple _ | .tupleOf _ => ["tuple"]
  | .dict _ _ => ["dict"]
  | .function _ => ["function"]
  | .struct _ _ => ["struct"]
  | .custom name _ => [name]
  | .any | .iterable _ => []

/-- A text is what values of some alternative are called at run time. -/
def Text.IsRuntimeName (name : Text) : Prop :=
  name ∈ ["NoneType", "bool", "int", "float", "str", "string", "list", "tuple", "dict", "function", "struct"] ∨
    Ty.IsFreeName name

instance : DecidablePred Text.IsRuntimeName := fun _ => inferInstanceAs (Decidable (_ ∨ _))

/-- Whether the values of an alternative have a name of their own at run time. -/
def Alt.isConcrete : Alt → Bool
  | .any | .iterable _ => false
  | _ => true

/-- The alternatives that runtime names stand for when they are tested for. -/
inductive Alt.IsTarget : Text → Alt → Prop
  | none : IsTarget "NoneType" (.prim .none)
  | bool : IsTarget "bool" (.prim .bool)
  | int : IsTarget "int" (.prim .int)
  | float : IsTarget "float" (.prim .float)
  | str : IsTarget "str" (.prim .str)
  | string : IsTarget "string" (.prim .str)
  | list : IsTarget "list" (.list .any)
  | tuple : IsTarget "tuple" (.tupleOf .any)
  | dict : IsTarget "dict" (.dict .any .any)
  | function : IsTarget "function" (.function none)
  | struct : IsTarget "struct" (.struct [] true)
  | custom {name : Text} (h : Ty.IsFreeName name) : IsTarget name (.custom name none)

namespace Alt

variable {a c : Alt} {name : Text}

theorem IsTarget.ofName_eq (h : IsTarget name c) : Ty.ofName name [] false = .only c := by
  cases h with
  | custom h => exact h
  | none | bool | int | float | str | string | list | tuple | dict | function | struct => rfl

theorem IsTarget.ne_any (h : IsTarget name c) : c ≠ .any := by
  rintro rfl
  cases h

/-- What the runtime name of an alternative stands for. -/
def target : Alt → Alt
  | .prim p => .prim p
  | .list _ => .list .any
  | .tuple _ | .tupleOf _ => .tupleOf .any
  | .dict _ _ => .dict .any .any
  | .function _ => .function none
  | .struct _ _ => .struct [] true
  | .custom name _ => .custom name none
  | .any | .iterable _ => .any

theorem IsTarget.eq_target (h : IsTarget name c) (ha : a.IsLegible) (hname : name ∈ a.runtimeNames) :
    c = a.target := by
  have hc := h.ofName_eq
  cases a with
  | any | iterable => cases hname
  | prim p =>
      cases p with
      | str =>
          rcases List.mem_cons.mp hname with rfl | hname
          · cases hc
            rfl
          · cases List.mem_singleton.mp hname
            cases hc
            rfl
      | none | bool | int | float =>
          cases List.mem_singleton.mp hname
          cases hc
          rfl
  | list | tuple | tupleOf | dict | function | struct =>
      cases List.mem_singleton.mp hname
      cases hc
      rfl
  | custom m host =>
      cases List.mem_singleton.mp hname
      cases ha.2.2.symm.trans hc
      rfl

theorem eq_none_of_mem_runtimeNames (ha : a.IsLegible) (h : "NoneType" ∈ a.runtimeNames) : a = .prim .none := by
  have htarget := IsTarget.none.eq_target ha h
  cases a with
  | prim p => exact htarget.symm
  | _ => cases htarget

theorem below_target (a : Alt) (hconcrete : a.isConcrete = true) : Below a a.target := by
  have hany : ∀ t : Ty, t.subtype .any = true := fun t => Ty.subtype_iff.mpr (Or.inl rfl)
  cases a with
  | any | iterable => cases hconcrete
  | prim p => exact .prim p
  | list t => exact .list (hany t)
  | tuple ts => exact .tupleOf rfl (hany _)
  | tupleOf t => exact .tupleOf rfl (hany t)
  | dict k v => exact .dict (hany k) (hany v)
  | function sig => exact .function fun _ _ _ h => by cases h
  | struct fields isOpen => exact .struct (fun _ h => by cases h) fun _ => rfl
  | custom name host => exact .custom name host none

theorem meet_target_self (hconcrete : a.isConcrete = true) : a.meet a.target = some a := by
  have hbelow := subtype_of_below (below_target a hconcrete)
  cases a with
  | any | iterable => cases hconcrete
  | prim | list | tuple | tupleOf | dict | custom => simp [Alt.meet, target, Ty.meet_any]
  | function sig => cases sig <;> simp [Alt.meet, target]
  | struct =>
      rw [target] at hbelow
      simp [Alt.meet, target, hbelow]

theorem IsTarget.mem_runtimeNames (h : IsTarget name c) (ha : a.IsLegible) (hconcrete : a.isConcrete = true)
    (hbelow : Below a c) : name ∈ a.runtimeNames := by
  cases h with
  | none | bool | int | float | str =>
      cases hbelow with
      | anyLeft => cases hconcrete
      | prim => exact List.mem_cons_self
  | string =>
      cases hbelow with
      | anyLeft => cases hconcrete
      | prim => exact mem_second
  | list =>
      cases hbelow with
      | anyLeft => cases hconcrete
      | list => exact List.mem_cons_self
  | tuple =>
      cases hbelow with
      | anyLeft => cases hconcrete
      | tupleOf helems =>
          cases a with
          | tuple | tupleOf => exact List.mem_cons_self
          | _ => cases helems
  | dict =>
      cases hbelow with
      | anyLeft => cases hconcrete
      | dict => exact List.mem_cons_self
  | function =>
      cases hbelow with
      | anyLeft => cases hconcrete
      | function => exact List.mem_cons_self
      | callable hcalls =>
          cases ha.1
          cases hcalls
  | struct =>
      cases hbelow with
      | anyLeft => cases hconcrete
      | struct => exact List.mem_cons_self
  | custom =>
      cases hbelow with
      | anyLeft => cases hconcrete
      | custom => exact List.mem_cons_self

theorem prim_eq_of_meet {p q : Primitive} {z : Alt} (h : (Alt.prim p).meet (.prim q) = some z) : p = q := by
  by_contra hne
  simp [Alt.meet, hne] at h

theorem IsTarget.mem_runtimeNames_of_meet {z : Alt} (h : IsTarget name c) (hconcrete : a.isConcrete = true)
    (hz : a.meet c = some z) : name ∈ a.runtimeNames := by
  cases h with
  | none | bool | int | float | str =>
      cases a with
      | any | iterable => cases hconcrete
      | prim p =>
          cases prim_eq_of_meet hz
          exact List.mem_cons_self
      | _ => simp [Alt.meet] at hz
  | string =>
      cases a with
      | any | iterable => cases hconcrete
      | prim p =>
          cases prim_eq_of_meet hz
          exact mem_second
      | _ => simp [Alt.meet] at hz
  | list =>
      cases a with
      | any | iterable => cases hconcrete
      | list => exact List.mem_cons_self
      | _ => simp [Alt.meet] at hz
  | tuple =>
      cases a with
      | any | iterable => cases hconcrete
      | tuple | tupleOf => exact List.mem_cons_self
      | _ => simp [Alt.meet] at hz
  | dict =>
      cases a with
      | any | iterable => cases hconcrete
      | dict => exact List.mem_cons_self
      | _ => simp [Alt.meet] at hz
  | function =>
      cases a with
      | any | iterable => cases hconcrete
      | function => exact List.mem_cons_self
      | _ => simp [Alt.meet] at hz
  | struct =>
      cases a with
      | any | iterable => cases hconcrete
      | struct => exact List.mem_cons_self
      | _ => simp [Alt.meet] at hz
  | custom =>
      cases a with
      | any | iterable => cases hconcrete
      | custom m host =>
          have hm : m = name := by
            by_contra hne
            simp [Alt.meet, hne] at hz
          exact hm ▸ List.mem_cons_self
      | _ => simp [Alt.meet] at hz

end Alt

theorem Text.IsRuntimeName.exists_target {name : Text} (h : name.IsRuntimeName) : ∃ c, Alt.IsTarget name c := by
  rcases h with h | h
  · simp only [List.mem_cons, List.not_mem_nil, or_false] at h
    rcases h with rfl | rfl | rfl | rfl | rfl | rfl | rfl | rfl | rfl | rfl | rfl
    · exact ⟨_, .none⟩
    · exact ⟨_, .bool⟩
    · exact ⟨_, .int⟩
    · exact ⟨_, .float⟩
    · exact ⟨_, .str⟩
    · exact ⟨_, .string⟩
    · exact ⟨_, .list⟩
    · exact ⟨_, .tuple⟩
    · exact ⟨_, .dict⟩
    · exact ⟨_, .function⟩
    · exact ⟨_, .struct⟩
  · exact ⟨_, .custom h⟩

/-! ### Conditions -/

/-- The type test that a comparison of `subject` with `other` makes: the name it is about, and the runtime
name that it asks for. -/
def Expr.typeTest? (subject other : Expr) : Option (Text × Text) :=
  match subject, other with
  | .call _ (.ident callee) args, .str _ typeName =>
    if callee.name = "type" then (NameFact.soleName? args).map fun name => (name, typeName) else .none
  | .ident id, other => if other.isNone then some (id.name, "NoneType") else .none
  | _, _ => .none

/-- The type test that an equation makes, with its sides in either order. -/
def Expr.equationTest? (left right : Expr) : Option (Text × Text) :=
  left.typeTest? right <|> right.typeTest? left

/-- Every runtime name that a condition tests for is one. -/
def Expr.TestsRuntimeNames : Expr → Prop
  | .unary _ op operand => op = "not" → operand.TestsRuntimeNames
  | .binary _ op left right =>
    if op = "and" ∨ op = "or" then left.TestsRuntimeNames ∧ right.TestsRuntimeNames
    else op = "==" ∨ op = "!=" → ∀ test ∈ left.equationTest? right, test.2.IsRuntimeName
  | _ => True

/-- The values that a condition may have when each name of a scope holds a value of a chosen alternative. A
bare name is false if it is `None`. -/
def Expr.MayBe (s : Scope) (choice : Text → Alt) : Expr → Bool → Prop
  | .unary _ op operand, value => op = "not" → operand.MayBe s choice (!value)
  | .binary _ op left right, value =>
    if op = "and" then ∃ l r, left.MayBe s choice l ∧ right.MayBe s choice r ∧ value = (l && r)
    else if op = "or" then ∃ l r, left.MayBe s choice l ∧ right.MayBe s choice r ∧ value = (l || r)
    else op = "==" ∨ op = "!=" → ∀ test ∈ left.equationTest? right, s.has test.1 = true →
      (value = true ↔ (test.2 ∈ (choice test.1).runtimeNames ↔ op = "=="))
  | .ident id, value => s.has id.name = true → value = true → choice id.name ≠ .prim .none
  | _, _ => True

/-- The types of a scope are plain and made of alternatives whose values have names of their own at run
time, and `type` is not bound to anything. -/
structure Scope.Narrowable (s : Scope) : Prop where
  plain : ∀ name b, s.resolve? name = some b → b.type.Plain
  concrete : ∀ name b, s.resolve? name = some b → ∀ a ∈ b.type.alts, a.isConcrete = true
  type : s.has "type" = false

/-- Every name of a scope is given an alternative of its type. -/
def Scope.Chooses (s : Scope) (choice : Text → Alt) : Prop :=
  ∀ name b, s.resolve? name = some b → choice name ∈ b.type.alts

theorem Expr.isNone_of_typeTest? {id : Ident} {other : Expr} {test : Text × Text}
    (h : (Expr.ident id).typeTest? other = some test) : other.isNone = true ∧ test = (id.name, "NoneType") := by
  change (if other.isNone then some (id.name, "NoneType") else Option.none) = some test at h
  split at h
  · next hnone => exact ⟨hnone, (Option.some.inj h).symm⟩
  · cases h

theorem Expr.typeTest?_unique {left right : Expr} {test test' : Text × Text}
    (h : left.typeTest? right = some test) (h' : right.typeTest? left = some test') : test = test' := by
  cases left with
  | ident id =>
      obtain ⟨hnone, rfl⟩ := isNone_of_typeTest? h
      cases right with
      | ident id' =>
          obtain ⟨hnone', rfl⟩ := isNone_of_typeTest? h'
          rw [show id'.name = "None" from eq_of_beq hnone, show id.name = "None" from eq_of_beq hnone']
      | none => cases h'
      | _ => cases hnone
  | call span callee args =>
      cases right with
      | ident id' => cases (isNone_of_typeTest? h').1
      | str => cases h'
      | _ => cases callee <;> cases h
  | _ => cases h

namespace NameFact

/-- What a scope and a type test say about a name. -/
def ofTest (s : Scope) (test : Text × Text) : Option NameFact := narrowTo s test.1 (.ofName test.2 [] false)

theorem ofComparison_eq {s : Scope} (h : s.has "type" = false) (subject other : Expr) :
    ofComparison s subject other = (subject.typeTest? other).bind (ofTest s) := by
  cases subject with
  | ident id =>
      change (if other.isNone then narrowTo s id.name .none else none) =
        (if other.isNone then some (id.name, "NoneType") else none).bind (ofTest s)
      split <;> rfl
  | call span callee args =>
      cases callee with
      | ident callee =>
          cases other with
          | str span' typeName =>
              unfold ofComparison Expr.typeTest?
              dsimp only
              cases soleName? args with
              | none => by_cases hcallee : callee.name = "type" <;> simp [hcallee]
              | some name =>
                  by_cases hcallee : callee.name = "type"
                  · simp [hcallee, h, ofTest]
                  · simp [hcallee]
          | _ => rfl
      | _ => rfl
  | _ => rfl

theorem ofEquation_eq {s : Scope} (h : s.has "type" = false) (left right : Expr) :
    (ofComparison s left right <|> ofComparison s right left) = (left.equationTest? right).bind (ofTest s) := by
  rw [ofComparison_eq h, ofComparison_eq h, Expr.equationTest?]
  cases hleft : left.typeTest? right with
  | none => rfl
  | some test =>
      cases hright : right.typeTest? left with
      | none => simp
      | some test' =>
          rw [Expr.typeTest?_unique hleft hright]
          cases htest : ofTest s test' <;> simp [htest]

end NameFact

/-! ### Tested types -/

theorem flatMap_eq_filter {α : Type} {f : α → List α} {p : α → Bool} {xs : List α}
    (h : ∀ x ∈ xs, f x = if p x then [x] else []) : xs.flatMap f = xs.filter p := by
  induction xs with
  | nil => rfl
  | cons x xs ih =>
      rw [List.flatMap_cons, h x List.mem_cons_self, ih fun y hy => h y (List.mem_cons_of_mem x hy),
        List.filter_cons]
      split <;> rfl

namespace Ty

variable {t : Ty} {c : Alt} {name : Text}

theorem meet_target (hc : Alt.IsTarget name c) (ht : t.Plain) (hconcrete : ∀ a ∈ t.alts, a.isConcrete = true) :
    t.meet (.only c) = t.filter fun a => decide (name ∈ a.runtimeNames) := by
  have hany : .any ∉ t.alts := fun h => nomatch hconcrete _ h
  have hc_any : .any ∉ (Ty.only c).alts := fun h => hc.ne_any (List.mem_singleton.mp h).symm
  have hmeets : t.alts.flatMap (fun x => (Ty.only c).alts.filterMap x.meet) =
      t.alts.filter fun a => decide (name ∈ a.runtimeNames) := by
    refine flatMap_eq_filter fun a ha => ?_
    change [c].filterMap a.meet = _
    by_cases hname : name ∈ a.runtimeNames
    · have hmeet : a.meet c = some a := by
        rw [hc.eq_target (ht.legible.alt ha).1 hname]
        exact Alt.meet_target_self (hconcrete a ha)
      rw [List.filterMap_cons_some hmeet, if_pos (decide_eq_true hname)]
      rfl
    · have hmeet : a.meet c = .none := by
        rw [Option.eq_none_iff_forall_ne_some]
        exact fun z hz => hname (hc.mem_runtimeNames_of_meet (hconcrete a ha) hz)
      rw [List.filterMap_cons_none hmeet, if_neg (by simpa using hname)]
      rfl
  rw [meet_eq, isAny_eq_false hany, isAny_eq_false hc_any, hmeets]
  exact ofAlts_alts (invariant_normal.filter _ ht.normal).here

theorem without_target (hc : Alt.IsTarget name c) (ht : t.Plain)
    (hconcrete : ∀ a ∈ t.alts, a.isConcrete = true) :
    t.without (.only c) = t.filter fun a => !decide (name ∈ a.runtimeNames) := by
  have hc_any : .any ∉ (Ty.only c).alts := fun h => hc.ne_any (List.mem_singleton.mp h).symm
  refine congrArg Ty.mk (List.filter_congr fun a ha => ?_)
  have ha_any : a ≠ .any := by
    rintro rfl
    cases hconcrete _ ha
  have hsub : (Ty.only a).subtype (.only c) = true ↔ name ∈ a.runtimeNames := by
    rw [subtype_iff_forall (fun h => ha_any (List.mem_singleton.mp h).symm) hc_any]
    simp only [Ty.only, List.mem_singleton, forall_eq, exists_eq_left]
    constructor
    · exact hc.mem_runtimeNames (ht.legible.alt ha).1 (hconcrete a ha)
    · intro hname
      rw [hc.eq_target (ht.legible.alt ha).1 hname]
      exact Alt.below_target a (hconcrete a ha)
  have hisAny : a.isAny = false := by
    cases a with
    | any => exact absurd rfl ha_any
    | _ => rfl
  rw [hisAny, Bool.false_or]
  congr 1
  rw [Bool.eq_iff_iff, hsub, decide_eq_true_iff]

end Ty

/-! ### Facts -/

/-- A fact is right about its name where the condition has the given value: the chosen alternative
survives in the type on that branch. -/
structure NameFact.Sound (s : Scope) (choice : Text → Alt) (value : Bool) (f : NameFact) : Prop where
  bound : ∃ b, s.resolve? f.name = some b ∧ f.current = b.type
  yes : f.yes.Clear
  no : f.no.Clear
  survives : (Ty.only (choice f.name)).SurvivesIn (if value then f.yes else f.no)

theorem Ty.Plain.only {t : Ty} (h : t.Plain) {a : Alt} (ha : a ∈ t.alts) : (Ty.only a).Plain :=
  ⟨invariant_normal.alt h.normal ha, invariant_legible.alt h.legible ha⟩

namespace Scope

variable {s : Scope} {choice : Text → Alt} {name : Text} {b : Binding}

theorem Narrowable.clear (hs : s.Narrowable) (hb : s.resolve? name = some b) : b.type.Clear :=
  ⟨(hs.plain name b hb).legible, fun hany => nomatch hs.concrete name b hb _ hany⟩

theorem Narrowable.plain_choice (hs : s.Narrowable) (hchoice : s.Chooses choice) (hb : s.resolve? name = some b) :
    (Ty.only (choice name)).Plain :=
  (hs.plain name b hb).only (hchoice name b hb)

theorem Narrowable.survivesIn_current (hs : s.Narrowable) (hchoice : s.Chooses choice)
    (hb : s.resolve? name = some b) : (Ty.only (choice name)).SurvivesIn b.type :=
  (hs.clear hb).survivesIn_of_mem (hchoice name b hb) (hs.plain_choice hchoice hb).normal

end Scope

namespace NameFact

variable {s : Scope} {choice : Text → Alt} {f g : NameFact} {l r value : Bool}

theorem Sound.negate (h : f.Sound s choice value) : f.negate.Sound s choice (!value) := by
  refine ⟨h.bound, h.no, h.yes, ?_⟩
  cases value with
  | false => exact h.survives
  | true => exact h.survives

theorem sound_ofTest (hs : s.Narrowable) (hchoice : s.Chooses choice) {test : Text × Text}
    (htest : test.2.IsRuntimeName) (hvalue : value = true ↔ test.2 ∈ (choice test.1).runtimeNames)
    (hf : ofTest s test = some f) : f.Sound s choice value := by
  obtain ⟨c, hc⟩ := htest.exists_target
  obtain ⟨b, hb, rfl⟩ := Option.map_eq_some_iff.mp hf
  have hplain := hs.plain test.1 b hb
  have hconcrete := hs.concrete test.1 b hb
  have hclear := hs.clear hb
  have hnormal := (hs.plain_choice hchoice hb).normal
  have hyes : b.type.meet (.ofName test.2 [] false) = b.type.filter fun a => decide (test.2 ∈ a.runtimeNames) := by
    rw [hc.ofName_eq, Ty.meet_target hc hplain hconcrete]
  have hno : b.type.without (.ofName test.2 [] false) =
      b.type.filter fun a => !decide (test.2 ∈ a.runtimeNames) := by
    rw [hc.ofName_eq, Ty.without_target hc hplain hconcrete]
  refine ⟨⟨b, hb, rfl⟩, ?_, ?_, ?_⟩
  · rw [hyes]
    exact hclear.filter _
  · rw [hno]
    exact hclear.filter _
  · dsimp only
    rw [hyes, hno]
    cases value with
    | true =>
        refine (hclear.filter _).survivesIn_of_mem (List.mem_filter.mpr ⟨hchoice test.1 b hb, ?_⟩) hnormal
        exact decide_eq_true (hvalue.mp rfl)
    | false =>
        refine (hclear.filter _).survivesIn_of_mem (List.mem_filter.mpr ⟨hchoice test.1 b hb, ?_⟩) hnormal
        have hname : test.2 ∉ (choice test.1).runtimeNames := fun h => Bool.false_ne_true (hvalue.mpr h)
        simpa using hname

theorem sound_name (hs : s.Narrowable) (hchoice : s.Chooses choice) {name : Text} {b : Binding}
    (hb : s.resolve? name = some b) (hvalue : value = true → choice name ≠ .prim .none) :
    Sound s choice value ⟨name, b.type, b.type.without .none, b.type⟩ := by
  have hclear := hs.clear hb
  have hyes : b.type.without .none = b.type.filter fun a => !decide ("NoneType" ∈ a.runtimeNames) :=
    Ty.without_target .none (hs.plain name b hb) (hs.concrete name b hb)
  refine ⟨⟨b, hb, rfl⟩, ?_, hclear, ?_⟩
  · rw [hyes]
    exact hclear.filter _
  · cases value with
    | false => exact hs.survivesIn_current hchoice hb
    | true =>
        dsimp only
        rw [hyes]
        refine (hclear.filter _).survivesIn_of_mem (List.mem_filter.mpr ⟨hchoice name b hb, ?_⟩)
          (hs.plain_choice hchoice hb).normal
        have hname : "NoneType" ∉ (choice name).runtimeNames := by
          intro hname
          have hlegible := (hs.plain_choice hchoice hb).legible.here _ List.mem_cons_self
          exact hvalue rfl (Alt.eq_none_of_mem_runtimeNames hlegible hname)
        simpa using hname

theorem Sound.weaken_and (hs : s.Narrowable) (hchoice : s.Chooses choice) (h : f.Sound s choice l) (r : Bool) :
    (f.weaken true).Sound s choice (l && r) := by
  obtain ⟨b, hb, hcurrent⟩ := h.bound
  have hclear : ∀ t ∈ [f.no, f.current], t.Clear := by
    refine List.forall_mem_cons.mpr ⟨h.no, List.forall_mem_singleton.mpr ?_⟩
    rw [hcurrent]
    exact hs.clear hb
  refine ⟨⟨b, hb, hcurrent⟩, h.yes, Ty.Clear.union hclear, ?_⟩
  have hsurvives := hs.survivesIn_current hchoice hb
  rw [← hcurrent] at hsurvives
  cases r with
  | true =>
      rw [Bool.and_true]
      cases l with
      | true => exact h.survives
      | false => exact Ty.survivesIn_union h.survives List.mem_cons_self hclear
  | false =>
      rw [Bool.and_false]
      exact Ty.survivesIn_union hsurvives mem_second hclear

theorem weaken_or_eq (f : NameFact) : f.weaken false = (f.negate.weaken true).negate := rfl

theorem Sound.weaken_or (hs : s.Narrowable) (hchoice : s.Chooses choice) (h : f.Sound s choice l) (r : Bool) :
    (f.weaken false).Sound s choice (l || r) := by
  have hdual := (h.negate.weaken_and hs hchoice (!r)).negate
  rwa [Bool.not_and, Bool.not_not, Bool.not_not, ← weaken_or_eq] at hdual

theorem Sound.combine_and (hs : s.Narrowable) (hchoice : s.Chooses choice) (hf : f.Sound s choice l)
    (hg : g.Sound s choice r) (hname : g.name = f.name) : (combine true f g).Sound s choice (l && r) := by
  obtain ⟨b, hb, hcurrent⟩ := hf.bound
  have hclear : ∀ t ∈ [f.no, g.no], t.Clear :=
    List.forall_mem_cons.mpr ⟨hf.no, List.forall_mem_singleton.mpr hg.no⟩
  have hgsurvives := hg.survives
  rw [hname] at hgsurvives
  refine ⟨⟨b, hb, hcurrent⟩, hf.yes.meet hg.yes, Ty.Clear.union hclear, ?_⟩
  cases l with
  | false => exact Ty.survivesIn_union hf.survives List.mem_cons_self hclear
  | true =>
      cases r with
      | false => exact Ty.survivesIn_union hgsurvives mem_second hclear
      | true => exact hf.survives.meet hgsurvives (hs.plain_choice hchoice hb) hf.yes.legible hg.yes.legible

theorem combine_or_eq (f g : NameFact) : combine false f g = (combine true f.negate g.negate).negate := rfl

theorem Sound.combine_or (hs : s.Narrowable) (hchoice : s.Chooses choice) (hf : f.Sound s choice l)
    (hg : g.Sound s choice r) (hname : g.name = f.name) : (combine false f g).Sound s choice (l || r) := by
  have hdual := (hf.negate.combine_and hs hchoice hg.negate hname).negate
  rwa [Bool.not_and, Bool.not_not, Bool.not_not, ← combine_or_eq] at hdual

/-- The value of two conditions, of which both hold or one does. -/
def connect (conjunction l r : Bool) : Bool := if conjunction then l && r else l || r

theorem Sound.combineAll (hs : s.Narrowable) (hchoice : s.Chooses choice) {left right : List NameFact}
    (hleft : ∀ f ∈ left, f.Sound s choice l) (hright : ∀ g ∈ right, g.Sound s choice r) (conjunction : Bool) :
    ∀ f ∈ combineAll conjunction left right, f.Sound s choice (connect conjunction l r) := by
  intro f hf
  rcases List.mem_append.mp hf with hf | hf
  · obtain ⟨g, hg, rfl⟩ := List.mem_map.mp hf
    split
    · next g' hfind =>
      have hfound := List.find?_some hfind
      have hname : g'.name = g.name := eq_of_beq hfound
      have hg' := hright g' (List.mem_of_find?_eq_some hfind)
      cases conjunction with
      | true => exact (hleft g hg).combine_and hs hchoice hg' hname
      | false => exact (hleft g hg).combine_or hs hchoice hg' hname
    · cases conjunction with
      | true => exact (hleft g hg).weaken_and hs hchoice r
      | false => exact (hleft g hg).weaken_or hs hchoice r
  · obtain ⟨g, hg, rfl⟩ := List.mem_map.mp hf
    have hg' := hright g (List.mem_filter.mp hg).1
    cases conjunction with
    | true =>
        rw [connect, Bool.and_comm]
        exact hg'.weaken_and hs hchoice l
    | false =>
        rw [connect, Bool.or_comm]
        exact hg'.weaken_or hs hchoice l

theorem sound_ofEquation (hs : s.Narrowable) (hchoice : s.Chooses choice) {op : Text} {left right : Expr}
    (hop : op = "==" ∨ op = "!=") (htests : ∀ test ∈ left.equationTest? right, test.2.IsRuntimeName)
    (hvalue : ∀ test ∈ left.equationTest? right, s.has test.1 = true →
      (value = true ↔ (test.2 ∈ (choice test.1).runtimeNames ↔ op = "==")))
    (hf : (left.equationTest? right).bind (ofTest s) = some f) :
    (if op = "!=" then f.negate else f).Sound s choice value := by
  obtain ⟨test, htest, hf⟩ := Option.bind_eq_some_iff.mp hf
  have hbound : s.has test.1 = true := by
    obtain ⟨b, hb, -⟩ := Option.map_eq_some_iff.mp hf
    rw [Scope.has, hb]
    rfl
  have hvalue := hvalue test htest hbound
  rcases hop with rfl | rfl
  · rw [if_neg (by decide)]
    exact sound_ofTest hs hchoice (htests test htest) (by simpa using hvalue) hf
  · have hnegated : (!value) = true ↔ test.2 ∈ (choice test.1).runtimeNames := by
      cases value <;> simpa using hvalue
    have hsound := sound_ofTest hs hchoice (htests test htest) hnegated hf
    rw [if_pos rfl]
    simpa using hsound.negate

/-- Every fact that a condition gives is right about its name. -/
theorem sound_ofCondition (hs : s.Narrowable) (hchoice : s.Chooses choice) (e : Expr)
    (htests : e.TestsRuntimeNames) (hvalue : e.MayBe s choice value) :
    ∀ f ∈ ofCondition s e, f.Sound s choice value := by
  fun_induction ofCondition s e generalizing value with
  | case1 span operand ih =>
      intro f hf
      obtain ⟨g, hg, rfl⟩ := List.mem_map.mp hf
      have hsound := (ih (htests rfl) (hvalue rfl) g hg).negate
      rwa [Bool.not_not] at hsound
  | case3 span left right ihl ihr =>
      obtain ⟨l, r, hl, hr, rfl⟩ := hvalue
      exact Sound.combineAll hs hchoice (ihl htests.1 hl) (ihr htests.2 hr) true
  | case4 span left right hne ihl ihr =>
      obtain ⟨l, r, hl, hr, rfl⟩ := hvalue
      exact Sound.combineAll hs hchoice (ihl htests.1 hl) (ihr htests.2 hr) false
  | case5 span op left right hand hor hop g hg =>
      intro f hf
      cases List.mem_singleton.mp hf
      rw [Bool.or_eq_true, decide_eq_true_iff, decide_eq_true_iff] at hop
      rw [ofEquation_eq hs.type] at hg
      simp only [Expr.TestsRuntimeNames, hand, hor, or_self, if_false] at htests
      simp only [Expr.MayBe, hand, hor, if_false] at hvalue
      exact sound_ofEquation hs hchoice hop (htests hop) (hvalue hop) hg
  | case8 id b hb =>
      intro f hf
      cases List.mem_singleton.mp hf
      exact sound_name hs hchoice hb (hvalue (by rw [Scope.has, hb]; rfl))
  -- Everything else says nothing.
  | case2 | case6 | case7 | case9 | case10 => exact fun f hf => by cases hf

/-- Narrowing keeps the alternative that a value has: whatever value a condition may have, the chosen
alternative of each name that the condition says something about is below the type that the name has on the
branch of that value. -/
theorem alternative_subtype_narrowed (s : Scope) (choice : Text → Alt) (e : Expr) (value : Bool)
    (hs : s.Narrowable) (hchoice : s.Chooses choice) (htests : e.TestsRuntimeNames)
    (hvalue : e.MayBe s choice value) :
    ∀ f ∈ ofCondition s e, (Ty.only (choice f.name)).subtype (if value then f.yes else f.no) = true := by
  intro f hf
  have hsound := sound_ofCondition hs hchoice e htests hvalue f hf
  obtain ⟨b, hb, -⟩ := hsound.bound
  exact hsound.survives.subtype (hs.plain_choice hchoice hb).normal

end NameFact

/-! ### Names that are taken -/

/-- A scope that knows one name. -/
def Scope.knowing (name : Text) (type : Ty) : Scope := ({} : Scope).bind name type false

theorem Scope.resolve?_knowing {name name' : Text} {type : Ty} {b : Binding}
    (h : (Scope.knowing name type).resolve? name' = some b) : name' = name ∧ b.type = type := by
  have hlookup : (Scope.knowing name type).resolve? name' = List.lookup name' [(name, ⟨type, false⟩)] := by
    simp only [knowing, resolve?, frames, bind, Frame.bind, NameMap.insert, NameMap.empty, NameMap.insertEntry,
      NameMap.get?, List.findSome?_singleton]
  rw [hlookup, List.lookup_cons] at h
  split at h
  · next heq =>
    cases h
    exact ⟨eq_of_beq heq, rfl⟩
  · cases h

/-- The condition that compares the type of a name with a runtime name. -/
def Expr.isOfType (name typeName : Text) : Expr :=
  .binary {} "==" (.call {} (.ident ⟨{}, "type"⟩) [.arg {} "positional" "" (.ident ⟨{}, name⟩)]) (.str {} typeName)

namespace NameFact

/-- Lists of lists survive two tests, although their meet adds lists without elements. -/
theorem alternative_subtype_narrowed_lists :
    ((ofCondition (.knowing "x" ⟨[.prim .none, .list ⟨[.list .int, .list .str]⟩]⟩)
        (.binary {} "and" (.isOfType "x" "list")
          (.unary {} "not" (.binary {} "==" (.none {}) (.ident ⟨{}, "x"⟩))))).map fun f =>
      (Ty.list ⟨[.list .int, .list .str]⟩).subtype f.yes) = [true] := by
  show _ = List.replicate 1 true
  refine List.eq_replicate_iff.mpr ⟨rfl, List.forall_mem_map.mpr ?_⟩
  refine alternative_subtype_narrowed _ (fun _ => .list ⟨[.list .int, .list .str]⟩) _ true ⟨?_, ?_, ?_⟩ ?_ ?_ ?_
  · intro name b hb
    rw [(Scope.resolve?_knowing hb).2]
    exact Ty.plain_of_holdsInside 3 (by decide +kernel) (by decide +kernel)
  · intro name b hb
    rw [(Scope.resolve?_knowing hb).2]
    decide
  · decide
  · intro name b hb
    rw [(Scope.resolve?_knowing hb).2]
    exact List.mem_cons_of_mem _ List.mem_cons_self
  · refine ⟨fun _ test htest => ?_, fun _ _ test htest => ?_⟩
    · cases htest
      decide
    · cases htest
      decide
  · refine ⟨true, true, fun _ test htest _ => ?_, fun _ _ test htest _ => ?_, rfl⟩
    · cases htest
      decide
    · cases htest
      decide

end NameFact

/-- An alternative has no host and no signature, and its names are made of name characters. -/
def Alt.IsSpelled : Alt → Prop
  | .custom name host => host = none ∧ Text.isName name = true
  | .function sig => sig = none
  | .struct fields _ => ∀ f ∈ fields, Text.isName f.1 = true
  | _ => True

instance : DecidablePred Alt.IsSpelled := fun a =>
  match a with
  | .custom name host => decidable_of_iff (host.isNone = true ∧ Text.isName name = true)
      (by rw [Option.isNone_iff_eq_none]; rfl)
  | .function sig => decidable_of_iff (sig.isNone = true) Option.isNone_iff_eq_none
  | .struct fields _ => inferInstanceAs (Decidable (∀ f ∈ fields, Text.isName f.1 = true))
  | .any | .prim _ | .list _ | .tuple _ | .tupleOf _ | .dict _ _ | .iterable _ => inferInstanceAs (Decidable True)

/-- Lists of several kinds, among them lists of a custom type that is called like the integers. -/
def Alt.mixedLists : Alt :=
  .list ⟨[.iterable ⟨[.prim .float, .prim .int]⟩, .list ⟨[.prim .int, .prim .str]⟩, .list (.named "int")]⟩

/-- A custom type may not have a name that is taken: where it has, the lists of integers that a meet brings
about are mistaken for lists of that type, and these are lost. -/
theorem NameFact.taken_name_lost :
    ∃ (s : Scope) (choice : Text → Alt) (e : Expr),
      (∀ name b, s.resolve? name = some b → b.type.Normal ∧
        b.type.Everywhere (fun t => ∀ a ∈ t.alts, a.IsSpelled) ∧ ∀ a ∈ b.type.alts, a.isConcrete = true) ∧
      s.has "type" = false ∧ s.Chooses choice ∧ e.TestsRuntimeNames ∧ e.MayBe s choice true ∧
      ∃ f ∈ ofCondition s e, (Ty.only (choice f.name)).subtype f.yes = false := by
  refine ⟨.knowing "x" (.only .mixedLists), fun _ => .mixedLists,
    .binary {} "and" (.isOfType "x" "list") (.isOfType "x" "list"), ?_, by decide, ?_, ?_, ?_, ?_⟩
  · intro name b hb
    rw [(Scope.resolve?_knowing hb).2]
    refine ⟨Ty.everywhere_of_holdsInside 4 (by decide +kernel),
      Ty.everywhere_of_holdsInside 4 (by decide +kernel), ?_⟩
    exact List.forall_mem_singleton.mpr rfl
  · intro name b hb
    rw [(Scope.resolve?_knowing hb).2]
    exact List.mem_cons_self
  · refine ⟨fun _ test htest => ?_, fun _ test htest => ?_⟩
    · cases htest
      decide
    · cases htest
      decide
  · refine ⟨true, true, fun _ test htest _ => ?_, fun _ test htest _ => ?_, rfl⟩
    · cases htest
      decide
    · cases htest
      decide
  · decide +kernel

end Gradual
