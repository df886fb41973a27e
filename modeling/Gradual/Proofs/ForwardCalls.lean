import Gradual.Proofs.AugmentedAssignment
import Gradual.Proofs.FunctionBodies

/-! Calls of a function before and after its definition. Before a function is defined, its body and those of other
functions may assume a signature that is read off its parameters; the definition binds a signature of its own. The two
are put together in different ways: a parameter that collects arguments is marked as optional in the second one only.
No call tells them apart, since a collector is never missed. -/

namespace Gradual

/-! ### Collectors -/

/-- The parameter with the mark of being optional that a collector may lack. -/
def Param.settled (p : Param) : Param := { p with optional := p.optional || p.mode.isVariadic }

/-- The signature with its collectors marked as optional. -/
def Signature.settled (sig : Signature) : Signature := { sig with params := sig.params.map Param.settled }

namespace Call

variable (slots : List Slot) (params : List Param)

def Slot.settled (s : Slot) : Slot := { s with param := s.param.settled }

def Binding.settled (b : Binding) : Binding := { b with slots := b.slots.map Slot.settled }

/-- Where a named argument goes among settled parameters. -/
def Landing.settled : Landing → Landing
  | .bound slots => .bound (slots.map Slot.settled)
  | .taken => .taken
  | .nowhere => .nowhere

theorem landNamed_settled (name : Text) (t : Ty) :
    landNamed name t (slots.map Slot.settled) = (landNamed name t slots).settled := by
  induction slots with
  | nil => rfl
  | cons s rest ih =>
      rw [List.map_cons, landNamed, landNamed, ih]
      by_cases hlands : s.param.name = name ∧ s.param.mode.takesNamed
      · rw [if_pos hlands, if_pos (show s.settled.param.name = name ∧ s.settled.param.mode.takesNamed from hlands)]
        obtain ⟨p, arg⟩ := s
        cases arg <;> rfl
      · rw [if_neg hlands, if_neg (show ¬(s.settled.param.name = name ∧ s.settled.param.mode.takesNamed) from hlands)]
        cases landNamed name t rest <;> rfl

theorem bindNamed_settled (b : Binding) (arg : Text × Ty) : bindNamed b.settled arg = (bindNamed b arg).settled := by
  have hlands : landNamed arg.1 arg.2 b.settled.slots = (landNamed arg.1 arg.2 b.slots).settled :=
    landNamed_settled b.slots arg.1 arg.2
  rw [bindNamed, bindNamed, hlands]
  cases landNamed arg.1 arg.2 b.slots <;> rfl

theorem fillPositional_settled (positional : List Ty) :
    fillPositional (slots.map Slot.settled) positional =
      ((fillPositional slots positional).1.map Slot.settled, (fillPositional slots positional).2) := by
  induction slots generalizing positional with
  | nil => cases positional <;> rfl
  | cons s rest ih =>
      cases positional with
      | nil => rfl
      | cons t ts =>
          rw [List.map_cons, fillPositional, fillPositional]
          by_cases hmode : s.param.mode.takesPositional = true
          · rw [if_pos hmode, if_pos (show s.settled.param.mode.takesPositional = true from hmode)]
            obtain ⟨p, arg⟩ := s
            cases arg with
            | none => simp only [Slot.settled, ih, List.map_cons]
            | some u => simp only [Slot.settled, ih, List.map_cons]
          · rw [if_neg hmode, if_neg (show ¬s.settled.param.mode.takesPositional = true from hmode)]
            rfl

theorem bind_settled (args : List Arg) : bind (params.map Param.settled) args = (bind params args).settled := by
  have hstart : (⟨(params.map Param.settled).map fun p => ⟨p, none⟩, [], [], []⟩ : Binding) =
      Binding.settled ⟨params.map fun p => ⟨p, none⟩, [], [], []⟩ := by
    simp only [Binding.settled, List.map_map, Function.comp_def, Slot.settled]
  rw [bind, bind, hstart, List.foldl_hom Binding.settled bindNamed_settled]
  simp only [Binding.settled, fillPositional_settled]

theorem isMissing_settled (openPositional openNamed : Bool) (s : Slot) :
    isMissing openPositional openNamed s.settled = isMissing openPositional openNamed s := by
  obtain ⟨p, arg⟩ := s
  show (arg.isNone && !(p.optional || p.mode.isVariadic) && !p.mode.isVariadic && _ && _) = _
  rw [isMissing]
  cases arg <;> cases p.optional <;> cases p.mode.isVariadic <;> rfl

theorem hasMode_settled (mode : ParamMode) : hasMode (params.map Param.settled) mode = hasMode params mode := by
  rw [hasMode, List.any_map]
  rfl

theorem problems_settled (args : List Arg) : problems (params.map Param.settled) args = problems params args := by
  have hcapacity : (params.map Param.settled).countP (·.mode.takesPositional) =
      params.countP (·.mode.takesPositional) := by
    rw [List.countP_map]
    rfl
  have hmissing (b : Binding) (openPositional openNamed : Bool) :
      (b.settled.slots.filter (isMissing openPositional openNamed)).map (missing ·.param) =
        (b.slots.filter (isMissing openPositional openNamed)).map (missing ·.param) := by
    have hsame : isMissing openPositional openNamed ∘ Slot.settled = isMissing openPositional openNamed :=
      funext fun s => isMissing_settled openPositional openNamed s
    rw [Binding.settled, List.filter_map, hsame, List.map_map]
    rfl
  have hmismatches (b : Binding) : b.settled.slots.flatMap (checkSlot b.settled) = b.slots.flatMap (checkSlot b) :=
    List.flatMap_map ..
  simp only [problems, bind_settled, hasMode_settled, hcapacity, hmissing, hmismatches]
  rfl

end Call

/-! ### Signatures -/

namespace Signature

theorem firstFault_settled (last : ParamMode) (seen : List Text) (params : List Param) :
    firstFault last seen (params.map Param.settled) = firstFault last seen params := by
  induction params generalizing last seen with
  | nil => rfl
  | cons p rest ih =>
      rw [List.map_cons, firstFault, firstFault, ih]
      rfl

theorem make_settled (params : List Param) (result : Ty) :
    (make (params.map Param.settled) result).toOption = (make params result).toOption.map settled := by
  rw [make, make, firstFault_settled]
  cases firstFault .posOnly [] params with
  | some e => rfl
  | none =>
      simp only [Except.toOption, Option.map_some, settled, List.map_map, Option.some.injEq, mk.injEq, and_true]
      rfl

theorem result_of_make {params : List Param} {result : Ty} {sig : Signature}
    (h : (make params result).toOption = some sig) : sig.result = result := by
  unfold make at h
  split at h
  · cases h
  · cases h
    rfl

end Signature

/-! ### Calls -/

namespace Rules

theorem call_function (r : Rules) (sig : Signature) (args : List Arg) (span : Span) :
    r.call (.function (some sig)) args span =
      { type := .union [sig.result]
        errors := (distinctErrors [] (Call.problems sig.params args)).map (·.located span) } := by
  have hproblems : [Alt.function (some sig)].flatMap (callProblems args) = Call.problems sig.params args :=
    List.flatMap_singleton _ _
  show ({ type := _, errors := (distinctErrors [] ([Alt.function (some sig)].flatMap _)).map _ ++ [] } : Judgement) = _
  rw [hproblems, List.append_nil]
  rfl

/-- Calls do not tell a signature from the one with its collectors marked as optional. -/
theorem call_settled (r : Rules) (sig : Option Signature) (args : List Arg) (span : Span) :
    r.call (.function (sig.map Signature.settled)) args span = r.call (.function sig) args span := by
  cases sig with
  | none => rfl
  | some sig =>
      have hproblems : Call.problems sig.settled.params args = Call.problems sig.params args :=
        Call.problems_settled sig.params args
      rw [Option.map_some, call_function, call_function, hproblems]
      rfl

end Rules

/-! ### Definitions -/

namespace Check

theorem writtenParams_eq (params : List ParamDecl) :
    writtenParams params = (params.filterMap Forward.paramOf).map Param.settled := by
  rw [writtenParams, List.map_filterMap]
  congr 1
  funext p
  cases p <;> rfl

theorem get?_collectStmt_define (known : NameMap Forward) (span : Span) (name : Ident) (params : List ParamDecl)
    {result : TypeExpr} (body : List Stmt) (hresult : result.isHole = false) :
    (Forward.collectStmt known (.define span name params result body)).get? name.name =
      some ⟨.function (Signature.make (params.filterMap Forward.paramOf) result.denote).toOption, false⟩ := by
  rw [Forward.collectStmt, NameMap.get?_insert, if_pos rfl, Forward.ofDefinition, hresult]
  cases Signature.make (params.filterMap Forward.paramOf) result.denote <;> rfl

/-- A function with a declared result is bound to the signature that is written, whatever its body does. -/
theorem get?_define (c : Setup) (path : NodePath) (s : State) (span : Span) (name : Ident) (params : List ParamDecl)
    {result : TypeExpr} (body : List Stmt) (hresult : result.isHole = false)
    (hname : s.scope.annotation? name.name = none) :
    ((stmt c path (.define span name params result body)).run s).2.scope.own.symbols.get? name.name =
      some ⟨.function (Signature.make (writtenParams params) result.denote).toOption, false⟩ := by
  obtain ⟨signed, outside, inside, walked, hwalk⟩ := exists_defineWalk c path s name params result body span
  have hdeclared : declaredResult result = some result.denote := by
    rw [declaredResult, hresult]
    rfl
  have hunannotated : outside.annotation? name.name = none := by
    rw [← hwalk.binds]
    exact ((hwalk.moves_signed.spared fun _ hf => hf.spares).annotation? name.name).trans hname
  -- The frame of the function has the declared result at the end of the body as well.
  have hframe : (walked.2.functions.head?.getD {}).declared = some result.denote := by
    have haround := (sameAround_block c (2 :: path) 0 body { inside with
      functions := { declared := declaredResult result } :: inside.functions, depth := inside.depth + 1 }).declared
    rw [hwalk.walks, hdeclared] at haround
    obtain ⟨f, rest, hfunctions, hf, -⟩ := List.map_eq_cons_iff.mp haround
    rw [hfunctions]
    exact hf
  have hresultOf : resultOf (walked.2.functions.head?.getD {}) walked.1 = result.denote := by
    rw [resultOf, hframe]
  have hsig : (signed.1.map fun sig => sig.withResult result.denote) = signed.1 := by
    rw [hwalk.signature_eq]
    cases hmake : (Signature.make (writtenParams params) result.denote).toOption with
    | none => rfl
    | some sig =>
        obtain ⟨params, sigResult⟩ := sig
        cases Signature.result_of_make hmake
        rfl
  rw [hwalk.run, scope_bindName, Scope.get?_hold, hresultOf, hsig, hwalk.signature_eq, hdeclared]
  dsimp only
  rw [hunannotated, Option.isNone_some, Bool.and_false]
  rfl

end Check

/-- Calls of a function with a declared result come to the same before and after its definition: the type that bodies
may assume of it and the type that the definition binds, its name having no annotation, give the same result, the same
errors in the same order and the same approximations. -/
theorem forward_call_eq_published (known : NameMap Forward) (c : Setup) (path : NodePath) (s : State) (span : Span)
    (name : Ident) (params : List ParamDecl) (result : TypeExpr) (body : List Stmt) (hresult : result.isHole = false)
    (hname : s.scope.annotation? name.name = none) :
    ∃ forward published,
      (Forward.collectStmt known (.define span name params result body)).get? name.name = some forward ∧
      ((Check.stmt c path (.define span name params result body)).run s).2.scope.own.symbols.get? name.name =
        some published ∧
      forward.isApproximate = published.isApproximate ∧
      ∀ (r : Rules) (args : List Arg) (place : Span),
        r.call forward.type args place = r.call published.type args place := by
  refine ⟨_, _, Check.get?_collectStmt_define known span name params body hresult,
    Check.get?_define c path s span name params body hresult hname, rfl, fun r args place => ?_⟩
  rw [Check.writtenParams_eq, Signature.make_settled]
  exact (r.call_settled _ args place).symm

/-- A function with the parameters `*xs: int, key: str`, of which the first collects arguments and the second must be
given. -/
def collecting : Stmt :=
  .define {} ⟨{}, "f"⟩
    [.param {} ⟨{}, "xs"⟩ "args" (.simple {} ⟨{}, "int"⟩) .hole,
      .param {} ⟨{}, "key"⟩ "named_only" (.simple {} ⟨{}, "str"⟩) .hole]
    (.simple {} ⟨{}, "bool"⟩) [.ret {} (.bool {} true)]

/-- The texts of the two types differ; a call with a text that is collected and without the other argument is reported
for both in both cases. -/
theorem forward_call_eq_published_collecting :
    ∃ forward published,
      (Forward.collectStmt .empty collecting).get? "f" = some forward ∧
      ((Check.stmt { rules := ⟨.standard, .lint⟩ } [] collecting).run {}).2.scope.own.symbols.get? "f" =
        some published ∧
      forward.type.text = "def(*xs: int, key: str) -> bool" ∧
      published.type.text = "def(*xs: int = ..., key: str) -> bool" ∧
      (⟨.standard, .lint⟩ : Rules).call forward.type [.positional .str] {} =
        (⟨.standard, .lint⟩ : Rules).call published.type [.positional .str] {} ∧
      ((⟨.standard, .lint⟩ : Rules).call forward.type [.positional .str] {}).errors.map (·.message) =
        ["missing required argument `key`", "argument `xs`: expected type `int`, found `str`"] := by
  obtain ⟨forward, published, hforward, hpublished, -, hcall⟩ := forward_call_eq_published .empty
    { rules := ⟨.standard, .lint⟩ } [] {} {} ⟨{}, "f"⟩ _ (.simple {} ⟨{}, "bool"⟩) [.ret {} (.bool {} true)] rfl rfl
  refine ⟨forward, published, hforward, hpublished, ?_, ?_, hcall _ _ _, ?_⟩
  · have htext : ((Forward.collectStmt .empty collecting).get? "f").map (·.type.text) =
        some "def(*xs: int, key: str) -> bool" := by decide +kernel
    exact Option.some.inj ((congrArg (Option.map _) hforward).symm.trans htext)
  · have htext : (((Check.stmt { rules := ⟨.standard, .lint⟩ } [] collecting).run {}).2.scope.own.symbols.get? "f").map
        (·.type.text) = some "def(*xs: int = ..., key: str) -> bool" := by decide +kernel
    exact Option.some.inj ((congrArg (Option.map _) hpublished).symm.trans htext)
  · have hmessages : ((Forward.collectStmt .empty collecting).get? "f").map (fun f =>
        ((⟨.standard, .lint⟩ : Rules).call f.type [.positional .str] {}).errors.map (·.message)) =
          some ["missing required argument `key`", "argument `xs`: expected type `int`, found `str`"] := by
      decide +kernel
    exact Option.some.inj ((congrArg (Option.map _) hforward).symm.trans hmessages)

end Gradual
