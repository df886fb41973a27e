import Gradual.Oracle.Standard
import Gradual.Oracle.Rules
import Gradual.Proofs.UnionAlgebra

/-! The policy of the modes. An operation on a union is resolved member by member, and the mode says when it is
reported that members fail: in the mode `lint` when one does, in the mode `compiler` when all do. The statements here
compare an operation on a whole union with the same operation on each of its members alone. The question whether a
type has an attribute is put to its members as well; it is compared with what is reported about the attribute. -/

namespace Gradual

/-! ### Unions of one type -/

namespace Ty

theorem union_replicate (t : Ty) (n : Nat) : union (List.replicate (n + 1) t) = union [t] := by
  induction n with
  | zero => rfl
  | succ n ih => rw [List.replicate_succ, List.replicate_succ, union_cons_self, ← List.replicate_succ, ih]

theorem equal_union_replicate {t : Ty} (h : t.IsNormalUnion) {n : Nat} (hn : n ≠ 0) :
    t.equal (union (List.replicate n t)) = true := by
  obtain ⟨n, rfl⟩ := Nat.exists_eq_succ_of_ne_zero hn
  rw [union_replicate, union_singleton_eq, ofAlts_alts h]
  exact equal_self t

end Ty

/-! ### The policy -/

namespace Judgement

/-- Whether something is reported. -/
def fails (j : Judgement) : Bool := !j.errors.isEmpty

/-- The union of the types of the judgements that do not fail, or `Any` where all of them do. -/
def unionOfPassing (js : List Judgement) : Ty :=
  if js.all fails then .any else .union ((js.filter fun j => !j.fails).map (·.type))

/-- A judgement on a union follows the policy of the mode over the judgements on the members. It is broken where one
of them is: then there is no answer. -/
structure Follows (mode : Mode) (whole : Judgement) (members : List Judgement) : Prop where
  lint : mode = .lint → (whole.fails = true ↔ ∃ j ∈ members, j.fails = true)
  compiler : mode = .compiler → (whole.fails = true ↔ ∀ j ∈ members, j.fails = true)
  once : whole.errors.length ≤ 1
  type : whole.type.equal (unionOfPassing members) = true
  broken : whole.broken = members.any (·.broken)

theorem follows_same {mode : Mode} {t : Ty} (h : t.IsNormalUnion) {α : Type} {as : List α} (has : as ≠ []) :
    Follows mode { type := t } (as.map fun _ => { type := t }) := by
  have hmap : (as.map fun _ => ({ type := t } : Judgement)) = List.replicate as.length { type := t } :=
    List.map_const' ..
  have hlength : as.length ≠ 0 := fun hzero => has (List.length_eq_zero_iff.mp hzero)
  have hmember : ({ type := t } : Judgement) ∈ List.replicate as.length ({ type := t } : Judgement) :=
    List.mem_replicate.mpr ⟨hlength, rfl⟩
  rw [hmap]
  refine ⟨fun _ => ?_, fun _ => ?_, Nat.zero_le 1, ?_, ?_⟩
  · simp [fails]
  · exact ⟨fun hfails => absurd hfails Bool.false_ne_true, fun hall => hall _ hmember⟩
  · have hall : (List.replicate as.length ({ type := t } : Judgement)).all fails = false :=
      List.all_eq_false.mpr ⟨_, hmember, Bool.false_ne_true⟩
    rw [unionOfPassing, hall]
    simpa [fails] using Ty.equal_union_replicate h hlength
  · simp

end Judgement

namespace Rules

variable {α : Type} (r : Rules) (f : α → Verdict) (error : TypingError) (own : α → TypingError) (span : Span)

theorem fails_settle (verdicts : List Verdict) :
    (r.settle verdicts error span).fails = reports r.mode (verdicts.countP (·.type.isNone)) verdicts.length := by
  rw [Judgement.fails, settle]
  cases reports r.mode (verdicts.countP (·.type.isNone)) verdicts.length <;> rfl

theorem fails_settle_singleton (v : Verdict) : (r.settle [v] error span).fails = v.type.isNone := by
  rw [fails_settle, List.countP_singleton]
  cases v.type <;> cases r.mode <;> rfl

theorem type_settle_singleton {v : Verdict} {t : Ty} (h : v.type = some t) :
    (r.settle [v] error span).type = .union [t] := by
  simp [settle, h]

theorem reports_lint {failed total : Nat} : reports .lint failed total = true ↔ 0 < failed := by
  simp [reports]

theorem reports_compiler {failed total : Nat} :
    reports .compiler failed total = true ↔ 0 < failed ∧ failed = total := by
  simp [reports]

theorem map_type_passing (as : List α) :
    (((as.map fun a => r.settle [f a] (own a) span).filter fun j => !j.fails).map (·.type)) =
      ((as.map f).filterMap (·.type)).map fun t => .union [t] := by
  induction as with
  | nil => rfl
  | cons a as ih =>
      rw [List.map_cons, List.map_cons, List.filter_cons, List.filterMap_cons, fails_settle_singleton]
      cases htype : (f a).type with
      | none => exact ih
      | some t =>
          show (r.settle [f a] (own a) span).type :: _ = _
          rw [ih, type_settle_singleton r _ span htype]
          rfl

theorem all_fails_iff (as : List α) :
    (as.map fun a => r.settle [f a] (own a) span).all Judgement.fails = ((as.map f).filterMap (·.type)).isEmpty := by
  rw [Bool.eq_iff_iff, List.isEmpty_iff, List.filterMap_eq_nil_iff]
  simp [List.all_eq_true, fails_settle_singleton]

/-- Settling the verdicts on the members follows the policy over the judgements on each member alone. -/
theorem follows_settle {as : List α} (has : as ≠ []) :
    (r.settle (as.map f) error span).Follows r.mode (as.map fun a => r.settle [f a] (own a) span) := by
  refine ⟨fun hmode => ?_, fun hmode => ?_, ?_, ?_, ?_⟩
  · rw [fails_settle, hmode, reports_lint, List.countP_pos_iff]
    simp [fails_settle_singleton]
  · have hlength : 0 < as.length := List.length_pos_iff.mpr has
    rw [fails_settle, hmode, reports_compiler, List.countP_eq_length]
    constructor
    · rintro ⟨-, hall⟩
      simpa [fails_settle_singleton] using hall
    · intro hall
      have hall : ∀ v ∈ as.map f, v.type.isNone = true := by simpa [fails_settle_singleton] using hall
      refine ⟨?_, hall⟩
      rw [List.countP_eq_length.mpr hall, List.length_map]
      exact hlength
  · rw [settle]
    dsimp only
    split <;> simp
  · rw [Judgement.unionOfPassing, all_fails_iff, map_type_passing, settle]
    dsimp only
    split
    · exact Ty.equal_self _
    · rw [Ty.union_map_union]
      exact Ty.equal_self _
  · simp [settle, Function.comp_def]

end Rules

/-! ### Operations -/

/-- The operations with one operand that is taken apart into its members. -/
inductive Operation where
  | attr (name : Text)
  | unOp (op : Text)
  | index (index : Ty) (constant : Option Int)
  | slice
  | iter

namespace Rules

/-- The typing of an operation on a type. -/
def perform (r : Rules) (t : Ty) (span : Span) : Operation → Judgement
  | .attr name => r.attr t name span
  | .unOp op => r.unOp op t span
  | .index index constant => r.index t index constant span
  | .slice => r.slice t span
  | .iter => r.iter t span

theorem alts_ne_nil {t : Ty} (h : t.isNever = false) : t.alts ≠ [] :=
  List.isEmpty_eq_false_iff.mp h

theorem follows_perform (r : Rules) {t : Ty} (ht : t.isNever = false) (span : Span) (op : Operation) :
    (r.perform t span op).Follows r.mode (t.alts.map fun a => r.perform (.only a) span op) := by
  have hnever (a : Alt) : (Ty.only a).isNever = false := rfl
  cases op with
  | attr name =>
      simp only [perform, attr, ht, hnever, Bool.false_eq_true, if_false]
      exact follows_settle r (fun a => r.attrOf a name span) _ (fun a => .notSupportedAttribute (.only a) name) span
        (alts_ne_nil ht)
  | unOp op =>
      simp only [perform, unOp, ht, hnever, Bool.false_eq_true, if_false]
      by_cases hnot : (op == "not") = true
      · simp only [if_pos hnot]
        exact Judgement.follows_same (by decide) (alts_ne_nil ht)
      · simp only [if_neg hnot]
        exact follows_settle r (fun a => r.unOpOf op a span) _ (fun a => .incompatibleUnOp op (.only a)) span
          (alts_ne_nil ht)
  | index index constant =>
      by_cases hindex : index.isNever = true
      · simp only [perform, Rules.index, hindex, Bool.or_true, if_true]
        exact Judgement.follows_same (by decide) (alts_ne_nil ht)
      · simp only [perform, Rules.index, ht, hnever, hindex, Bool.or_self, Bool.false_eq_true, if_false]
        exact follows_settle r (fun a => r.indexOf a index constant span) _
          (fun a => .incompatibleBinOp "[]" (.only a) index) span (alts_ne_nil ht)
  | slice =>
      simp only [perform, slice, ht, hnever, Bool.false_eq_true, if_false]
      exact follows_settle r (fun a => sliceOf a span) _ (fun a => .incompatibleBinOp "[]" (.only a) .any) span
        (alts_ne_nil ht)
  | iter =>
      simp only [perform, iter, ht, hnever, Bool.false_eq_true, if_false]
      exact follows_settle r (fun a => iterOf a span) _ (fun a => .notIterable (.only a)) span (alts_ne_nil ht)

theorem follows_binOp (r : Rules) {op : Text} (hequal : op ≠ "==") (hunequal : op ≠ "!=") {left right : Ty}
    (hleft : left.isNever = false) (hright : right.isNever = false) (span : Span) :
    (r.binOp op left right span).Follows r.mode
      (left.alts.flatMap fun a => right.alts.map fun b => r.binOp op (.only a) (.only b) span) := by
  -- The pairs of members are the items that the verdicts are about.
  have hpairs : left.alts.flatMap (fun a => right.alts.map fun b => (a, b)) ≠ [] := by
    obtain ⟨a, as, ha⟩ := List.exists_cons_of_ne_nil (alts_ne_nil hleft)
    obtain ⟨b, bs, hb⟩ := List.exists_cons_of_ne_nil (alts_ne_nil hright)
    rw [ha, hb]
    exact List.cons_ne_nil _ _
  have hop : (op == "==" || op == "!=") = false := by simp [hequal, hunequal]
  have hsettled := follows_settle r (fun p : Alt × Alt => r.binOpOf op p.1 p.2 span)
    (.incompatibleBinOp op left right) (fun p => .incompatibleBinOp op (.only p.1) (.only p.2)) span hpairs
  simp only [List.map_flatMap, List.map_map, Function.comp_def] at hsettled
  have hnever (a : Alt) : (Ty.only a).isNever = false := rfl
  simp only [binOp, hleft, hright, hnever, hop, Bool.or_self, Bool.false_eq_true, if_false]
  exact hsettled

/-- In either mode every operation on a union follows the policy over the same operation on its members, and a
binary operator that is no equality over all pairs of members. -/
theorem operations_follow_mode (r : Rules) (span : Span) :
    (∀ (op : Operation) (t : Ty), t.isNever = false →
      (r.perform t span op).Follows r.mode (t.alts.map fun a => r.perform (.only a) span op)) ∧
    ∀ (op : Text) (left right : Ty), op ≠ "==" → op ≠ "!=" → left.isNever = false → right.isNever = false →
      (r.binOp op left right span).Follows r.mode
        (left.alts.flatMap fun a => right.alts.map fun b => r.binOp op (.only a) (.only b) span) :=
  ⟨fun op _ ht => r.follows_perform ht span op, fun _ _ _ hequal hunequal hleft hright =>
    r.follows_binOp hequal hunequal hleft hright span⟩

/-- A number or a list of texts. -/
def mixedType : Ty := .union [.list .str, .int]

/-- Iterating over a number or a list is reported in the mode `lint` and yields texts; adding a number to one of
them is not reported in the mode `compiler` and gives a number. -/
theorem operations_follow_mode_mixed :
    ((⟨.standard, .lint⟩ : Rules).perform mixedType {} .iter).Follows .lint
      (mixedType.alts.map fun a => (⟨.standard, .lint⟩ : Rules).perform (.only a) {} .iter) ∧
    ((⟨.standard, .compiler⟩ : Rules).binOp "+" mixedType .int {}).Follows .compiler
      (mixedType.alts.flatMap fun a => Ty.int.alts.map fun b =>
        (⟨.standard, .compiler⟩ : Rules).binOp "+" (.only a) (.only b) {}) ∧
    ((⟨.standard, .lint⟩ : Rules).perform mixedType {} .iter).fails = true ∧
    ((⟨.standard, .lint⟩ : Rules).perform mixedType {} .iter).type.text = "str" ∧
    ((⟨.standard, .compiler⟩ : Rules).binOp "+" mixedType .int {}).fails = false ∧
    ((⟨.standard, .compiler⟩ : Rules).binOp "+" mixedType .int {}).type.text = "int" := by
  refine ⟨(operations_follow_mode ⟨.standard, .lint⟩ {}).1 .iter mixedType (by decide +kernel),
    (operations_follow_mode ⟨.standard, .compiler⟩ {}).2 "+" mixedType .int (by decide) (by decide) (by decide +kernel)
      rfl, ?_, ?_, ?_, ?_⟩
  all_goals decide +kernel

end Rules

/-! ### The question for an attribute -/

/-- What a host says of an attribute, where it speaks of attributes at all. -/
def Alt.hostAttr? (name : Text) : Alt → Option (Option Ty)
  | .custom _ (some ⟨some attributes, _, _, _⟩) => some (attributes name)
  | _ => none

/-- An attribute on which host and oracle are at odds: the host has it and the oracle rules it out, or the host lacks
it and the oracle does not rule it out. -/
def Alt.Contested (o : Oracle) (name : Text) (a : Alt) : Prop :=
  ∃ found, a.hostAttr? name = some found ∧ (found.isSome = true ↔ o.attr a name = .unsupported)

namespace Rules

variable (o : Oracle) (mode : Mode) (name : Text) (span : Span)

theorem hasAttr_iff_only {t : Ty} :
    (⟨o, mode⟩ : Rules).hasAttr t name = true ↔ ∀ a ∈ t.alts, (⟨o, mode⟩ : Rules).hasAttr (.only a) name = true := by
  rw [hasAttr, List.all_eq_true]
  simp only [hasAttr, Ty.only, List.all_cons, List.all_nil, Bool.and_true]

theorem errors_attr_eq_nil_iff_only {t : Ty} :
    ((⟨o, .lint⟩ : Rules).attr t name span).errors = [] ↔
      ∀ a ∈ t.alts, ((⟨o, .lint⟩ : Rules).attr (.only a) name span).errors = [] := by
  by_cases ht : t.isNever = true
  · have hnone : t.alts = [] := List.isEmpty_iff.mp ht
    rw [attr, if_pos ht, hnone]
    exact ⟨fun _ _ h => absurd h List.not_mem_nil, fun _ => rfl⟩
  · have hfollows := (follows_perform ⟨o, .lint⟩ (Bool.eq_false_iff.mpr ht) span (.attr name)).lint rfl
    rw [← not_iff_not]
    simpa [perform, Judgement.fails] using hfollows

theorem errors_attr_only_eq_nil_iff {a : Alt} :
    ((⟨o, .lint⟩ : Rules).attr (.only a) name span).errors = [] ↔
      ((⟨o, .lint⟩ : Rules).attrOf a name span).type.isSome = true := by
  have hfails := fails_settle_singleton ⟨o, .lint⟩ (.notSupportedAttribute (.only a) name) span
    ((⟨o, .lint⟩ : Rules).attrOf a name span)
  rw [Judgement.fails, Bool.not_eq_eq_eq_not, ← Option.not_isSome, Bool.not_not] at hfails
  rw [← hfails, List.isEmpty_iff]
  rfl

theorem isSome_ofFact (fact : Fact) (category message : Text) :
    (Verdict.ofFact fact category message span).type.isSome = true ↔ fact ≠ .unsupported := by
  cases fact <;> simp [Verdict.ofFact, Verdict.ok, Verdict.failed, Verdict.approximate]

theorem hasAttr_only_iff {a : Alt} (hany : a ≠ .any) (hstruct : ∀ fields isOpen, a ≠ .struct fields isOpen) :
    (⟨o, mode⟩ : Rules).hasAttr (.only a) name = true ↔ o.attr a name ≠ .unsupported := by
  cases a with
  | any => exact absurd rfl hany
  | struct fields isOpen => exact absurd rfl (hstruct fields isOpen)
  | _ =>
      simp only [hasAttr, Ty.only, List.all_cons, List.all_nil, Bool.and_true]
      split <;> simp_all

theorem hasAttr_only_iff_of_none {a : Alt} (h : a.hostAttr? name = none) :
    (⟨o, mode⟩ : Rules).hasAttr (.only a) name = true ↔
      ((⟨o, .lint⟩ : Rules).attr (.only a) name span).errors = [] := by
  rw [errors_attr_only_eq_nil_iff]
  cases a with
  | any => simp [hasAttr, attrOf, Ty.only, Verdict.ok]
  | struct fields isOpen =>
      cases hfield : fields.lookup name <;> cases isOpen <;>
        simp [hasAttr, attrOf, Ty.only, hfield, Verdict.ok, Verdict.when, Verdict.failed]
  | custom typeName host =>
      rw [hasAttr_only_iff o mode name (by simp) (by simp)]
      rcases host with _ | ⟨_ | attributes, call, binOps, iter⟩
      · exact (isSome_ofFact span _ _ _).symm
      · exact (isSome_ofFact span _ _ _).symm
      · cases h
  | _ =>
      rw [hasAttr_only_iff o mode name (by simp) (by simp)]
      exact (isSome_ofFact span _ _ _).symm

theorem errors_attr_only_of_host {a : Alt} {found : Option Ty} (h : a.hostAttr? name = some found) :
    ((⟨o, .lint⟩ : Rules).attr (.only a) name span).errors = [] ↔ found.isSome = true := by
  rw [errors_attr_only_eq_nil_iff]
  unfold Alt.hostAttr? at h
  split at h
  · cases h
    rfl
  · cases h

theorem hasAttr_only_of_host {a : Alt} {found : Option Ty} (h : a.hostAttr? name = some found) :
    (⟨o, mode⟩ : Rules).hasAttr (.only a) name = true ↔ o.attr a name ≠ .unsupported := by
  apply hasAttr_only_iff
  · rintro rfl
    cases h
  · rintro fields isOpen rfl
    cases h

/-- The answers for one alternative differ if and only if host and oracle are at odds. -/
theorem contested_iff {a : Alt} :
    a.Contested o name ↔ ¬((⟨o, mode⟩ : Rules).hasAttr (.only a) name = true ↔
      ((⟨o, .lint⟩ : Rules).attr (.only a) name span).errors = []) := by
  cases hhost : a.hostAttr? name with
  | none =>
      refine ⟨fun ⟨_, hfound, _⟩ => ?_, fun h => absurd (hasAttr_only_iff_of_none o mode name span hhost) h⟩
      rw [hhost] at hfound
      cases hfound
  | some found =>
      rw [errors_attr_only_of_host o name span hhost, hasAttr_only_of_host o mode name hhost, Alt.Contested]
      simp only [hhost, Option.some.injEq, exists_eq_left']
      tauto

/-- A type has an attribute, in either mode, exactly when nothing is reported about the attribute in the mode `lint`,
unless a member is contested: then this holds only where both answers are no, for another member's sake. -/
theorem hasAttr_iff_unless_contested (t : Ty) :
    ((⟨o, mode⟩ : Rules).hasAttr t name = true ↔ ((⟨o, .lint⟩ : Rules).attr t name span).errors = []) ↔
      ∀ a ∈ t.alts, a.Contested o name →
        (⟨o, mode⟩ : Rules).hasAttr t name = false ∧ ((⟨o, .lint⟩ : Rules).attr t name span).errors ≠ [] := by
  constructor
  · intro hagree a ha hcontested
    have hodds := (contested_iff o mode name span).mp hcontested
    have hnot : ¬(⟨o, mode⟩ : Rules).hasAttr t name = true := by
      intro hhas
      exact hodds ⟨fun _ => (errors_attr_eq_nil_iff_only o name span).mp (hagree.mp hhas) a ha,
        fun _ => (hasAttr_iff_only o mode name).mp hhas a ha⟩
    exact ⟨Bool.eq_false_iff.mpr hnot, fun herrors => hnot (hagree.mpr herrors)⟩
  · intro h
    by_cases hsome : ∃ a ∈ t.alts, a.Contested o name
    · obtain ⟨a, ha, hcontested⟩ := hsome
      obtain ⟨hhas, herrors⟩ := h a ha hcontested
      exact ⟨fun h => absurd h (Bool.eq_false_iff.mp hhas), fun h => absurd h herrors⟩
    · rw [hasAttr_iff_only, errors_attr_eq_nil_iff_only]
      refine forall₂_congr fun a ha => ?_
      exact not_not.mp fun hodds => hsome ⟨a, ha, (contested_iff o mode name span).mpr hodds⟩

/-- A custom type whose host has the attribute `x` and no other. -/
def pointType : Ty := .only (.custom "Point" (some (.having "x" .int)))

/-- The question is not put to hosts: the type is said to have an attribute that its host lacks, and whose use is
reported. -/
theorem hasAttr_overlooks_host :
    (⟨.standard, .lint⟩ : Rules).hasAttr pointType "y" = true ∧
      ((⟨.standard, .lint⟩ : Rules).attr pointType "y" {}).errors.map (·.message) =
        ["type `Point` has no attribute `y`"] := by
  constructor <;> decide +kernel

end Rules

end Gradual
