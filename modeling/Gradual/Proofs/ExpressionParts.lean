import Gradual.Check.Expr
import Mathlib.Data.List.Basic

/-! The parts of an expression: the expressions that are evaluated directly for it, each with the place of its node,
in the order in which they are evaluated. Parts are smaller than the expression. -/

namespace Gradual

/-- What is evaluated of each of some items, with the places of the nodes. -/
def partsEach {α : Type} (parts : NodePath → α → List (NodePath × Expr)) (path : NodePath) (i : Nat) :
    List α → List (NodePath × Expr)
  | [] => []
  | a :: rest => parts (i :: path) a ++ partsEach parts path (i + 1) rest

def DictEntry.parts (path : NodePath) : DictEntry → List (NodePath × Expr)
  | .hole => []
  | .entry _ key value => [(0 :: path, key), (1 :: path, value)]

def FieldExpr.parts (path : NodePath) : FieldExpr → List (NodePath × Expr)
  | .hole => []
  | .field _ _ value => [(0 :: path, value)]

def ArgExpr.parts (path : NodePath) : ArgExpr → List (NodePath × Expr)
  | .hole => []
  | .arg _ _ _ value => [(0 :: path, value)]

def ParamDecl.parts (path : NodePath) : ParamDecl → List (NodePath × Expr)
  | .hole => []
  | .param _ _ _ _ default => [(1 :: path, default)]

mutual

/-- What is evaluated of a target: containers and indices. -/
def Expr.targetParts (path : NodePath) : Expr → List (NodePath × Expr)
  | .list _ elems | .tuple _ elems => targetPartsEach path 0 elems
  | .index _ object index => [(0 :: path, object), (1 :: path, index)]
  | .member _ object _ => [(0 :: path, object)]
  | _ => []

def targetPartsEach (path : NodePath) (i : Nat) : List Expr → List (NodePath × Expr)
  | [] => []
  | e :: rest => e.targetParts (i :: path) ++ targetPartsEach path (i + 1) rest

end

def Clause.parts (path : NodePath) : Clause → List (NodePath × Expr)
  | .hole => []
  | .clause _ target iterable condition =>
    if iterable.isHole then [(2 :: path, condition)] else (1 :: path, iterable) :: target.targetParts (0 :: path)

/-- The expressions that are evaluated directly as parts of an expression. The callee of a call is one of them,
unless it names a global function. -/
def Check.partsOf (c : Setup) (s : Scope) (path : NodePath) : Expr → List (NodePath × Expr)
  | .list _ elems | .tuple _ elems => partsEach (fun path e => [(path, e)]) path 0 elems
  | .dict _ items => partsEach DictEntry.parts path 0 items
  | .struct _ items => partsEach FieldExpr.parts path 0 items
  | .call _ callee items =>
    match calleeOf c s callee with
    | .value => (0 :: path, callee) :: partsEach ArgExpr.parts (1 :: path) 0 items
    | _ => partsEach ArgExpr.parts (1 :: path) 0 items
  | .member _ object _ => [(0 :: path, object)]
  | .index _ object index => [(0 :: path, object), (1 :: path, index)]
  | .slice _ object start stop step => [(0 :: path, object), (1 :: path, start), (2 :: path, stop), (3 :: path, step)]
  | .binary _ _ left right => [(0 :: path, left), (1 :: path, right)]
  | .unary _ _ operand => [(0 :: path, operand)]
  | .conditional _ condition yes no => [(0 :: path, condition), (1 :: path, yes), (2 :: path, no)]
  | .lambda _ params body => partsEach ParamDecl.parts (1 :: path) 0 params ++ [(0 :: path, body)]
  | .listComp _ elem items => partsEach Clause.parts (1 :: path) 0 items ++ [(0 :: path, elem)]
  | .dictComp _ key value items =>
    partsEach Clause.parts (2 :: path) 0 items ++ [(0 :: path, key), (1 :: path, value)]
  | .hole | .ident _ | .str _ _ | .int _ _ | .float _ _ | .bool _ _ | .none _ => []

section Sizes

variable {path : NodePath} {p : NodePath × Expr}

theorem exists_mem_of_mem_partsEach {α : Type} {parts : NodePath → α → List (NodePath × Expr)} {i : Nat}
    {items : List α} (h : p ∈ partsEach parts path i items) : ∃ a ∈ items, ∃ at_, p ∈ parts at_ a := by
  induction items generalizing i with
  | nil => cases h
  | cons a rest ih =>
      rcases List.mem_append.mp h with h | h
      · exact ⟨a, List.mem_cons_self, _, h⟩
      · obtain ⟨b, hb, hp⟩ := ih h
        exact ⟨b, List.mem_cons_of_mem a hb, hp⟩

theorem sizeOf_lt_of_mem_partsEach {α : Type} [SizeOf α] {parts : NodePath → α → List (NodePath × Expr)}
    (hparts : ∀ at_ a, p ∈ parts at_ a → sizeOf p.2 ≤ sizeOf a) {i : Nat} {items : List α}
    (h : p ∈ partsEach parts path i items) : sizeOf p.2 < sizeOf items := by
  obtain ⟨a, ha, at_, hp⟩ := exists_mem_of_mem_partsEach h
  exact Nat.lt_of_le_of_lt (hparts at_ a hp) (List.sizeOf_lt_of_mem ha)

mutual

theorem sizeOf_lt_of_mem_targetParts {path : NodePath} :
    (target : Expr) → p ∈ target.targetParts path → sizeOf p.2 < sizeOf target
  | .list span elems, h | .tuple span elems, h => by
      have := sizeOf_lt_of_mem_targetPartsEach elems h
      simp only [Expr.list.sizeOf_spec, Expr.tuple.sizeOf_spec]
      omega
  | .index span object index, h => by
      simp only [Expr.targetParts, List.mem_cons, List.not_mem_nil, or_false] at h
      rcases h with rfl | rfl <;> simp only [Expr.index.sizeOf_spec] <;> omega
  | .member span object name, h => by
      cases List.mem_singleton.mp h
      simp only [Expr.member.sizeOf_spec]
      omega
  | .hole, h | .ident _, h | .str _ _, h | .int _ _, h | .float _ _, h | .bool _ _, h | .none _, h => by cases h
  | .dict _ _, h | .struct _ _, h | .call _ _ _, h | .slice _ _ _ _ _, h | .binary _ _ _ _, h => by cases h
  | .unary _ _ _, h | .conditional _ _ _ _, h | .lambda _ _ _, h | .listComp _ _ _, h | .dictComp _ _ _ _, h => by
      cases h

theorem sizeOf_lt_of_mem_targetPartsEach {path : NodePath} {i : Nat} :
    (targets : List Expr) → p ∈ targetPartsEach path i targets → sizeOf p.2 < sizeOf targets
  | [], h => by cases h
  | e :: rest, h => by
      rw [List.cons.sizeOf_spec]
      rcases List.mem_append.mp h with h | h
      · have := sizeOf_lt_of_mem_targetParts e h
        omega
      · have := sizeOf_lt_of_mem_targetPartsEach rest h
        omega

end

theorem DictEntry.sizeOf_le_of_mem_parts (at_ : NodePath) (a : DictEntry) (h : p ∈ a.parts at_) :
    sizeOf p.2 ≤ sizeOf a := by
  cases a with
  | hole => cases h
  | entry span key value =>
      simp only [DictEntry.parts, List.mem_cons, List.not_mem_nil, or_false] at h
      rcases h with rfl | rfl <;> simp only [DictEntry.entry.sizeOf_spec] <;> omega

theorem FieldExpr.sizeOf_le_of_mem_parts (at_ : NodePath) (a : FieldExpr) (h : p ∈ a.parts at_) :
    sizeOf p.2 ≤ sizeOf a := by
  cases a with
  | hole => cases h
  | field span name value =>
      cases List.mem_singleton.mp h
      simp only [FieldExpr.field.sizeOf_spec]
      omega

theorem ArgExpr.sizeOf_le_of_mem_parts (at_ : NodePath) (a : ArgExpr) (h : p ∈ a.parts at_) :
    sizeOf p.2 ≤ sizeOf a := by
  cases a with
  | hole => cases h
  | arg span kind name value =>
      cases List.mem_singleton.mp h
      simp only [ArgExpr.arg.sizeOf_spec]
      omega

theorem ParamDecl.sizeOf_le_of_mem_parts (at_ : NodePath) (a : ParamDecl) (h : p ∈ a.parts at_) :
    sizeOf p.2 ≤ sizeOf a := by
  cases a with
  | hole => cases h
  | param span name kind type default =>
      cases List.mem_singleton.mp h
      simp only [ParamDecl.param.sizeOf_spec]
      omega

theorem Clause.sizeOf_le_of_mem_parts (at_ : NodePath) (a : Clause) (h : p ∈ a.parts at_) :
    sizeOf p.2 ≤ sizeOf a := by
  cases a with
  | hole => cases h
  | clause span target iterable condition =>
      rw [Clause.parts] at h
      rw [Clause.clause.sizeOf_spec]
      split at h
      · cases List.mem_singleton.mp h
        dsimp only
        omega
      · rcases List.mem_cons.mp h with rfl | h
        · dsimp only
          omega
        · have := sizeOf_lt_of_mem_targetParts target h
          omega

theorem Check.sizeOf_lt_of_mem_partsOf (c : Setup) (s : Scope) {e : Expr} (h : p ∈ partsOf c s path e) :
    sizeOf p.2 < sizeOf e := by
  have hself (at_ : NodePath) (e : Expr) (h : p ∈ [(at_, e)]) : sizeOf p.2 ≤ sizeOf e := by
    cases List.mem_singleton.mp h
    exact Nat.le_refl _
  cases e with
  | hole | ident | str | int | float | bool | none => cases h
  | list span elems | tuple span elems =>
      have := sizeOf_lt_of_mem_partsEach hself h
      simp only [Expr.list.sizeOf_spec, Expr.tuple.sizeOf_spec]
      omega
  | dict span items =>
      have := sizeOf_lt_of_mem_partsEach DictEntry.sizeOf_le_of_mem_parts h
      simp only [Expr.dict.sizeOf_spec]
      omega
  | struct span items =>
      have := sizeOf_lt_of_mem_partsEach FieldExpr.sizeOf_le_of_mem_parts h
      simp only [Expr.struct.sizeOf_spec]
      omega
  | call span callee items =>
      have hparts : p = (0 :: path, callee) ∨ p ∈ partsEach ArgExpr.parts (1 :: path) 0 items := by
        rw [partsOf] at h
        split at h
        · exact List.mem_cons.mp h
        · exact Or.inr h
      rw [Expr.call.sizeOf_spec]
      rcases hparts with rfl | h
      · dsimp only
        omega
      · have := sizeOf_lt_of_mem_partsEach ArgExpr.sizeOf_le_of_mem_parts h
        omega
  | member span object name | unary span op operand =>
      cases List.mem_singleton.mp h
      simp only [Expr.member.sizeOf_spec, Expr.unary.sizeOf_spec]
      omega
  | index span left right | binary span op left right =>
      simp only [partsOf, List.mem_cons, List.not_mem_nil, or_false] at h
      rcases h with rfl | rfl <;> simp only [Expr.index.sizeOf_spec, Expr.binary.sizeOf_spec] <;> omega
  | slice span object start stop step =>
      simp only [partsOf, List.mem_cons, List.not_mem_nil, or_false] at h
      rcases h with rfl | rfl | rfl | rfl <;> simp only [Expr.slice.sizeOf_spec] <;> omega
  | conditional span condition yes no =>
      simp only [partsOf, List.mem_cons, List.not_mem_nil, or_false] at h
      rcases h with rfl | rfl | rfl <;> simp only [Expr.conditional.sizeOf_spec] <;> omega
  | lambda span params body =>
      rw [Expr.lambda.sizeOf_spec]
      rcases List.mem_append.mp h with h | h
      · have := sizeOf_lt_of_mem_partsEach ParamDecl.sizeOf_le_of_mem_parts h
        omega
      · have := hself _ _ h
        omega
  | listComp span elem items =>
      rw [Expr.listComp.sizeOf_spec]
      rcases List.mem_append.mp h with h | h
      · have := sizeOf_lt_of_mem_partsEach Clause.sizeOf_le_of_mem_parts h
        omega
      · have := hself _ _ h
        omega
  | dictComp span key value items =>
      rw [Expr.dictComp.sizeOf_spec]
      rcases List.mem_append.mp h with h | h
      · have := sizeOf_lt_of_mem_partsEach Clause.sizeOf_le_of_mem_parts h
        omega
      · simp only [List.mem_cons, List.not_mem_nil, or_false] at h
        rcases h with rfl | rfl <;> dsimp only <;> omega

end Sizes

end Gradual
