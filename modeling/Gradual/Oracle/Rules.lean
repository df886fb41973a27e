import Gradual.Oracle.Basic
import Gradual.Ty.Wire

/-! The typing of operations on whole unions. Each alternative, or pair of alternatives, is resolved on
its own; the mode decides when failing ones are reported. The type of the operation is the union over
those that do not fail. -/

namespace Gradual

/-- When an operation that fails on part of a union is reported. -/
inductive Mode where
  /-- When it fails on some member. -/
  | lint
  /-- When it fails on every member. -/
  | compiler
  deriving DecidableEq, Repr

namespace Mode

def name : Mode → Text
  | .lint => "lint"
  | .compiler => "compiler"

/-- The mode of a name; the empty name is the mode `lint`. -/
def ofName? : Text → Option Mode
  | "" | "lint" => some .lint
  | "compiler" => some .compiler
  | _ => none

def unknownMessage (name : Text) : Text :=
  "oracle: unknown mode " ++ Text.quoted name ++ " (want lint or compiler)"

end Mode

/-- The typing of an operation: its type and what is reported. It is broken when an oracle's rule was
applied to operands that it cannot take apart. -/
structure Judgement where
  type : Ty
  errors : List TypingError := []
  approximations : List Approximation := []
  broken : Bool := false

/-- The typing of an operation on one alternative: no type when it fails. -/
structure Verdict where
  type : Option Ty
  approximations : List Approximation := []
  broken : Bool := false

namespace Verdict

def ok (t : Ty) : Verdict := ⟨some t, [], false⟩

def failed : Verdict := ⟨none, [], false⟩

def when (condition : Bool) (t : Ty) : Verdict :=
  if condition then ok t else failed

def approximate (category message : Text) (span : Span) : Verdict :=
  ⟨some .any, [⟨category, message, span⟩], false⟩

/-- What an oracle's fact comes to; where there is none, the operation is approximated. -/
def ofFact (fact : Fact) (category message : Text) (span : Span) : Verdict :=
  match fact with
  | .known t => ok t
  | .unsupported => failed
  | .unknown => approximate category message span
  | .broken => ⟨some .any, [], true⟩

end Verdict

structure Rules where
  oracle : Oracle
  mode : Mode

namespace Rules

/-- Whether failures are reported, when some of `total` members failed. -/
def reports (mode : Mode) (failed total : Nat) : Bool :=
  0 < failed && (mode == .lint || failed == total)

/-- The typing of an operation from the verdicts on its members. -/
def settle (r : Rules) (verdicts : List Verdict) (error : TypingError) (span : Span) : Judgement :=
  let types := verdicts.filterMap (·.type)
  let failed := verdicts.countP (·.type.isNone)
  { type := if types.isEmpty then .any else .union types
    errors := if reports r.mode failed verdicts.length then [error.located span] else []
    approximations := verdicts.flatMap (·.approximations)
    broken := verdicts.any (·.broken) }

def attrOf (r : Rules) (a : Alt) (name : Text) (span : Span) : Verdict :=
  let ask := Verdict.ofFact (r.oracle.attr a name) "attribute"
    ("attribute `" ++ name ++ "` of `" ++ a.text ++ "` is not known") span
  match a with
  | .any => .ok .any
  | .struct fields isOpen =>
    match fields.lookup name with
    | some t => .ok t
    | none => .when isOpen .any
  | .custom _ (some ⟨some attributes, _, _, _⟩) => ⟨attributes name, [], false⟩
  | _ => ask

def attr (r : Rules) (recv : Ty) (name : Text) (span : Span) : Judgement :=
  if recv.isNever then { type := .never }
  else r.settle (recv.alts.map fun a => r.attrOf a name span) (.notSupportedAttribute recv name) span

/-- Whether every alternative is known to have an attribute, or not known to lack it. -/
def hasAttr (r : Rules) (recv : Ty) (name : Text) : Bool :=
  recv.alts.all fun
    | .any => true
    | .struct fields isOpen => (fields.lookup name).isSome || isOpen
    | a =>
      match r.oracle.attr a name with
      | .unsupported => false
      | _ => true

def binOpOf (r : Rules) (op : Text) (left right : Alt) (span : Span) : Verdict :=
  if left.isAny || right.isAny then .ok .any
  else match left with
    | .custom _ (some ⟨_, _, some binOps, _⟩) => ⟨binOps op right.toJson, [], false⟩
    | _ =>
      .ofFact (r.oracle.binOp op left right) "binop"
        ("operator `" ++ op ++ "` on `" ++ left.text ++ "` and `" ++ right.text ++ "` is not known") span

/-- The type of a binary operator. Equality never fails. -/
def binOp (r : Rules) (op : Text) (left right : Ty) (span : Span) : Judgement :=
  if left.isNever || right.isNever then { type := .never }
  else if op == "==" || op == "!=" then { type := .bool }
  else r.settle (left.alts.flatMap fun a => right.alts.map fun b => r.binOpOf op a b span)
    (.incompatibleBinOp op left right) span

def unOpOf (r : Rules) (op : Text) (operand : Alt) (span : Span) : Verdict :=
  if operand.isAny then .ok .any
  else .ofFact (Oracle.askUnOp op operand r.oracle) "unop"
    ("operator `" ++ op ++ "` on `" ++ operand.text ++ "` is not known") span

def unOp (r : Rules) (op : Text) (operand : Ty) (span : Span) : Judgement :=
  if op == "not" then { type := .bool }
  else if operand.isNever then { type := .never }
  else r.settle (operand.alts.map fun a => r.unOpOf op a span) (.incompatibleUnOp op operand) span

/-- The element of a tuple at a constant index; negative indices count from the end. -/
def elementAt? (elems : List Ty) (constant : Option Int) : Option Ty :=
  constant.bind fun i =>
    let i := if i < 0 then i + elems.length else i
    if i < 0 then none else elems[i.toNat]?

/-- Indexing a custom type by each alternative of an index; the first failure ends it. -/
def indexCustom (r : Rules) (a : Alt) (span : Span) : List Alt → Verdict
  | [] => .ok .never
  | i :: rest =>
    let first := r.binOpOf "[]" a i span
    match first.type with
    | none => first
    | some t =>
      let others := r.indexCustom a span rest
      { type := others.type.map fun u => .union [t, u]
        approximations := first.approximations ++ others.approximations
        broken := first.broken || others.broken }

/-- Indexing one alternative. A constant index picks out one element of a tuple of known length. -/
def indexOf (r : Rules) (a : Alt) (index : Ty) (constant : Option Int) (span : Span) : Verdict :=
  let isInt := index.subtype .int
  match a with
  | .any => .ok .any
  | .list elem => .when isInt elem
  | .tuple elems => .when isInt ((elementAt? elems constant).getD (.union elems))
  | .tupleOf elem => .when isInt elem
  | .dict key value => .when (index.subtype key) value
  | .prim p => .when (p == .str && isInt) .str
  | .function _ | .struct _ _ | .iterable _ => .failed
  | .custom _ _ => r.indexCustom a span index.alts

def index (r : Rules) (value index : Ty) (constant : Option Int) (span : Span) : Judgement :=
  if value.isNever || index.isNever then { type := .never }
  else r.settle (value.alts.map fun a => r.indexOf a index constant span)
    (.incompatibleBinOp "[]" value index) span

def sliceOf (a : Alt) (span : Span) : Verdict :=
  match a with
  | .any | .list _ => .ok (.only a)
  | .tuple elems => .ok (.tupleOf (.union elems))
  | .tupleOf elem => .ok (.tupleOf elem)
  | .prim p => .when (p == .str) .str
  | .custom _ _ => .approximate "slice" ("slicing `" ++ a.text ++ "` is not modeled") span
  | _ => .failed

def slice (r : Rules) (value : Ty) (span : Span) : Judgement :=
  if value.isNever then { type := .never }
  else r.settle (value.alts.map fun a => sliceOf a span) (.incompatibleBinOp "[]" value .any) span

def iterOf (a : Alt) (span : Span) : Verdict :=
  match a.iterElem?, a with
  | some t, _ => .ok t
  | none, .custom _ _ => .approximate "iter" ("iteration over `" ++ a.text ++ "` is not modeled") span
  | none, _ => .failed

def iter (r : Rules) (t : Ty) (span : Span) : Judgement :=
  if t.isNever then { type := .never }
  else r.settle (t.alts.map fun a => iterOf a span) (.notIterable t) span

inductive Callable where
  | no
  | unchecked
  | checked (sig : Signature)

/-- How an alternative is called: a custom type without a host may be callable. -/
def callableOf : Alt → Callable
  | .any => .unchecked
  | .function (some sig) => .checked sig
  | .function none => .unchecked
  | .custom _ none => .unchecked
  | .custom _ (some ⟨_, some (some sig), _, _⟩) => .checked sig
  | .custom _ (some ⟨_, some none, _, _⟩) => .unchecked
  | _ => .no

def callProblems (args : List Arg) (a : Alt) : List TypingError :=
  match callableOf a with
  | .checked sig => Call.problems sig.params args
  | _ => []

def callOf (a : Alt) (span : Span) : Verdict :=
  match callableOf a with
  | .no => .failed
  | .unchecked => .approximate "call" ("call on `" ++ a.text ++ "` is not checked") span
  | .checked sig => .ok sig.result

/-- Errors without those whose kind and parameter an earlier one has. -/
def distinctErrors (seen : List (ErrorKind × Text)) : List TypingError → List TypingError
  | [] => []
  | e :: rest =>
    if seen.contains (e.kind, e.param) then distinctErrors seen rest
    else e :: distinctErrors ((e.kind, e.param) :: seen) rest

/-- The type of a call. Every callable alternative is matched against the arguments. -/
def call (r : Rules) (callee : Ty) (args : List Arg) (span : Span) : Judgement :=
  if callee.isNever then { type := .never }
  else
    let settled := r.settle (callee.alts.map fun a => callOf a span) (.notCallable callee) span
    let problems := distinctErrors [] (callee.alts.flatMap (callProblems args))
    { settled with errors := problems.map (·.located span) ++ settled.errors }

/-- The type of a call of a global function that the oracle knows, sharpened where it can be. -/
def callBuiltin (r : Rules) (name : Text) (sig : Signature) (args : List Arg) (span : Span) : Judgement :=
  let called := r.call (.function (some sig)) args span
  match r.oracle.refine.bind fun refine => refine name args with
  | some t => { called with type := t }
  | none => called

end Rules

end Gradual
