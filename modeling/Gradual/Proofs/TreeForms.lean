import Gradual.Proofs.WrittenTrees

/-! The forms of syntax trees, one by one. Each form is written under its own keys and read by its own rules; a
node of each form reads back if what it is made of does. -/

namespace Gradual.Tree

open Json (Members memberOf? textMember)

/-! ### Forms of expressions -/

theorem readExpr_of_exprOf {node : Members} {e : Expr}
    (h : exprOf (readers node) node (Nat.le_refl _) = some (.ok e)) : readExpr node = .ok e := by
  have hform : ∀ form ∈ ["Module", "SimpleTypeExpression", "GenericTypeExpression", "UnionTypeExpression"],
      textMember node "type" ≠ form := by
    intro form hmem heq
    unfold exprOf at h
    rw [heq] at h
    simp only [List.mem_cons, List.not_mem_nil, or_false] at hmem
    rcases hmem with rfl | rfl | rfl | rfl <;> cases h
  have htype : isTypeForm (textMember node "type") = false := by
    simp [isTypeForm, hform]
  rw [readExpr, readNode_eq, nodeOf]
  simp only [htype, h, hform "Module" List.mem_cons_self]
  rfl

theorem exprBack_ident {d : Nat} {id : Ident} (hspan : id.span.Fits d) (hname : id.name.isUtf8 = true) :
    ExprBack (d + 1) (.ident id) := by
  refine .node (fun _ => rfl) (show Shape "Identifier" ["name"] by decide) rfl hspan fun _ =>
    ⟨hname, fun node hnode => readExpr_of_exprOf ?_⟩
  unfold exprOf
  rw [hnode.form, hnode.span, hnode.text "name" (t := id.name) (by simp)]
  rfl

theorem ReadsBack.ident {d : Nat} {id : Ident} (h : ExprBack d (.ident id)) : IdentBack d id := by
  intro hfloat
  obtain ⟨node, hwrite, hfits, hread⟩ := h hfloat
  refine ⟨node, hwrite, hfits, ?_⟩
  rw [readIdent, readNode_of_readExpr hread]
  rfl

section Exprs

variable {d : Nat} {span : Span} (hspan : span.Fits (d + 1))
include hspan

theorem exprBack_str {value : Text} (hvalue : value.isUtf8 = true) : ExprBack (d + 2) (.str span value) := by
  refine .node (fun _ => rfl) (show Shape "StringLiteral" ["value"] by decide) rfl hspan fun _ =>
    ⟨hvalue, fun node hnode => readExpr_of_exprOf ?_⟩
  unfold exprOf
  rw [hnode.form, hnode.span, hnode.text "value" (t := value) (by simp)]
  rfl

theorem exprBack_int {value : Int} (hvalue : Decimal.IsInt64 value) : ExprBack (d + 2) (.int span value) := by
  refine .node (fun _ => rfl) (show Shape "IntegerLiteral" ["value"] by decide) rfl hspan fun _ =>
    ⟨trivial, fun node hnode => readExpr_of_exprOf ?_⟩
  have hread : readInteger node = .ok value := by
    have hmember : memberOf? node "value" = some (.num (toString value)) := hnode.part List.mem_cons_self
    rw [readInteger, hmember]
    simp only [Decimal.readInt_toString_of_isInt64 hvalue]
  unfold exprOf
  rw [hnode.form, hnode.span, hread]
  rfl

theorem exprBack_bool {value : Bool} : ExprBack (d + 2) (.bool span value) := by
  refine .node (fun _ => rfl) (show Shape "BooleanLiteral" ["value"] by decide) rfl hspan fun _ =>
    ⟨trivial, fun node hnode => readExpr_of_exprOf ?_⟩
  have hread : readBool node = value := by
    rw [readBool, hnode.part List.mem_cons_self]
    rfl
  unfold exprOf
  rw [hnode.form, hnode.span, hread]
  rfl

theorem exprBack_none : ExprBack (d + 2) (.none span) := by
  refine .node (fun _ => rfl) (show Shape "NoneLiteral" [] by decide) rfl hspan fun _ =>
    ⟨trivial, fun node hnode => readExpr_of_exprOf ?_⟩
  unfold exprOf
  rw [hnode.form, hnode.span]
  rfl

theorem exprBack_list {elems : List Expr} (helems : ∀ e ∈ elems, ExprBack d e) :
    ExprBack (d + 2) (.list span elems) := by
  refine .node (fun _ => rfl) (show Shape "ListLiteral" ["elements"] by decide) rfl hspan fun hfloat => ?_
  simp only [List.Forall, TreePart.hasFloat, TreeStyle.exprs_eq_map] at hfloat ⊢
  refine ⟨ReadsBack.children_fits helems hfloat, fun node hnode => readExpr_of_exprOf ?_⟩
  unfold exprOf
  rw [hnode.form, hnode.span, hnode.exprs "elements" List.mem_cons_self hfloat helems]
  rfl

theorem exprBack_tuple {elems : List Expr} (helems : ∀ e ∈ elems, ExprBack d e) :
    ExprBack (d + 2) (.tuple span elems) := by
  refine .node (fun _ => rfl) (show Shape "TupleLiteral" ["elements"] by decide) rfl hspan fun hfloat => ?_
  simp only [List.Forall, TreePart.hasFloat, TreeStyle.exprs_eq_map] at hfloat ⊢
  refine ⟨ReadsBack.children_fits helems hfloat, fun node hnode => readExpr_of_exprOf ?_⟩
  unfold exprOf
  rw [hnode.form, hnode.span, hnode.exprs "elements" List.mem_cons_self hfloat helems]
  rfl

theorem exprBack_dict {entries : List DictEntry} (hentries : ∀ e ∈ entries, EntryBack d e) :
    ExprBack (d + 2) (.dict span entries) := by
  refine .node (fun _ => rfl) (show Shape "DictLiteral" ["entries"] by decide) rfl hspan fun hfloat => ?_
  simp only [List.Forall, TreePart.hasFloat, TreeStyle.entries_eq_map] at hfloat ⊢
  refine ⟨ReadsBack.children_fits hentries hfloat, fun node hnode => readExpr_of_exprOf ?_⟩
  have hread : listMember node (Nat.le_refl _) "entries" "dict entry"
      (fun inner hi => readEntry (readers node) inner (Nat.le_of_lt hi)) = .ok entries :=
    hnode.list "entries" "dict entry" List.mem_cons_self hfloat hentries
  unfold exprOf
  rw [hnode.form, hnode.span, hread]
  rfl

theorem exprBack_struct {fields : List FieldExpr} (hfields : ∀ f ∈ fields, FieldBack d f) :
    ExprBack (d + 2) (.struct span fields) := by
  refine .node (fun _ => rfl) (show Shape "StructLiteral" ["fields"] by decide) rfl hspan fun hfloat => ?_
  simp only [List.Forall, TreePart.hasFloat, TreeStyle.fields_eq_map] at hfloat ⊢
  refine ⟨ReadsBack.children_fits hfields hfloat, fun node hnode => readExpr_of_exprOf ?_⟩
  have hread : listMember node (Nat.le_refl _) "fields" "struct field"
      (fun inner hi => readField (readers node) inner (Nat.le_of_lt hi)) = .ok fields :=
    hnode.list "fields" "struct field" List.mem_cons_self hfloat hfields
  unfold exprOf
  rw [hnode.form, hnode.span, hread]
  rfl

theorem exprBack_call {callee : Expr} {args : List ArgExpr} (hcallee : ExprBack (d + 1) callee)
    (hargs : ∀ a ∈ args, ArgBack d a) : ExprBack (d + 2) (.call span callee args) := by
  refine .node (fun _ => rfl) (show Shape "FunctionCall" ["callee", "arguments"] by decide) rfl hspan fun hfloat => ?_
  simp only [List.Forall, TreePart.hasFloat, TreeStyle.args_eq_map] at hfloat ⊢
  obtain ⟨hc, ha⟩ := hfloat
  refine ⟨⟨hcallee.child_fits hc, ReadsBack.children_fits hargs ha⟩, fun node hnode => readExpr_of_exprOf ?_⟩
  have hread : listMember node (Nat.le_refl _) "arguments" "call argument"
      (fun inner hi => readArg (readers node) inner (Nat.le_of_lt hi)) = .ok args :=
    hnode.list "arguments" "call argument" (by simp) ha hargs
  unfold exprOf
  rw [hnode.form, hnode.span, hnode.expr "callee" (by simp) hc hcallee, hread]
  rfl

theorem exprBack_member {object : Expr} {id : Ident} (hobject : ExprBack (d + 1) object) (hid : IdentBack (d + 1) id) :
    ExprBack (d + 2) (.member span object id) := by
  refine .node (fun _ => rfl) (show Shape "MemberAccessExpression" ["object", "member"] by decide) rfl hspan ?_
  rintro ⟨ho, hi⟩
  refine ⟨⟨hobject.child_fits ho, hid.child_fits hi⟩, fun node hnode => readExpr_of_exprOf ?_⟩
  unfold exprOf
  rw [hnode.form, hnode.span, hnode.expr "object" (by simp) ho hobject,
    hnode.ident "member" (by simp [TreeStyle.name]) hid hi]
  rfl

theorem exprBack_index {object index : Expr} (hobject : ExprBack (d + 1) object) (hindex : ExprBack (d + 1) index) :
    ExprBack (d + 2) (.index span object index) := by
  refine .node (fun _ => rfl) (show Shape "IndexExpression" ["object", "index"] by decide) rfl hspan ?_
  rintro ⟨ho, hi⟩
  refine ⟨⟨hobject.child_fits ho, hindex.child_fits hi⟩, fun node hnode => readExpr_of_exprOf ?_⟩
  unfold exprOf
  rw [hnode.form, hnode.span, hnode.expr "object" (by simp) ho hobject, hnode.expr "index" (by simp) hi hindex]
  rfl

omit hspan in
theorem optional_fits {e : Expr} (he : e = .hole ∨ ExprBack d e) (hfloat : isMarked (TreeStyle.floats.expr e) = false) :
    (TreePart.child (TreeStyle.standard.expr e)).Fits d := by
  rcases he with rfl | he
  · intro x hx
    cases hx
  · exact he.child_fits hfloat

theorem exprBack_slice {object start stop step : Expr} (hobject : ExprBack (d + 1) object)
    (hstart : start = .hole ∨ ExprBack (d + 1) start) (hstop : stop = .hole ∨ ExprBack (d + 1) stop)
    (hstep : step = .hole ∨ ExprBack (d + 1) step) : ExprBack (d + 2) (.slice span object start stop step) := by
  refine .node (fun _ => rfl) (show Shape "SliceExpression" ["object", "start", "stop", "step"] by decide) rfl hspan
    ?_
  rintro ⟨h₀, h₁, h₂, h₃⟩
  refine ⟨⟨hobject.child_fits h₀, optional_fits hstart h₁, optional_fits hstop h₂, optional_fits hstep h₃⟩,
    fun node hnode => readExpr_of_exprOf ?_⟩
  unfold exprOf
  rw [hnode.form, hnode.span, hnode.expr "object" (by simp) h₀ hobject, hnode.sliceBound "start" (by simp) h₁ hstart,
    hnode.sliceBound "stop" (by simp) h₂ hstop, hnode.sliceBound "step" (by simp) h₃ hstep]
  rfl

theorem exprBack_binary {op : Text} {left right : Expr} (hop : op.isUtf8 = true) (hleft : ExprBack (d + 1) left)
    (hright : ExprBack (d + 1) right) : ExprBack (d + 2) (.binary span op left right) := by
  refine .node (fun _ => rfl) (show Shape "BinaryExpression" ["operator", "left", "right"] by decide) rfl hspan ?_
  rintro ⟨-, hl, hr⟩
  refine ⟨⟨hop, hleft.child_fits hl, hright.child_fits hr⟩, fun node hnode => readExpr_of_exprOf ?_⟩
  unfold exprOf
  rw [hnode.form, hnode.span, hnode.text "operator" (t := op) (by simp), hnode.expr "left" (by simp) hl hleft,
    hnode.expr "right" (by simp) hr hright]
  rfl

theorem exprBack_unary {op : Text} {operand : Expr} (hop : op.isUtf8 = true) (hoperand : ExprBack (d + 1) operand) :
    ExprBack (d + 2) (.unary span op operand) := by
  refine .node (fun _ => rfl) (show Shape "UnaryExpression" ["operator", "operand"] by decide) rfl hspan ?_
  rintro ⟨-, ho⟩
  refine ⟨⟨hop, hoperand.child_fits ho⟩, fun node hnode => readExpr_of_exprOf ?_⟩
  unfold exprOf
  rw [hnode.form, hnode.span, hnode.text "operator" (t := op) (by simp), hnode.expr "operand" (by simp) ho hoperand]
  rfl

theorem exprBack_conditional {condition yes no : Expr} (hcondition : ExprBack (d + 1) condition)
    (hyes : ExprBack (d + 1) yes) (hno : ExprBack (d + 1) no) :
    ExprBack (d + 2) (.conditional span condition yes no) := by
  refine .node (fun _ => rfl) (show Shape "ConditionalExpression" ["condition", "then", "else"] by decide) rfl hspan
    ?_
  rintro ⟨hc, hy, hn⟩
  refine ⟨⟨hcondition.child_fits hc, hyes.child_fits hy, hno.child_fits hn⟩, fun node hnode => readExpr_of_exprOf ?_⟩
  unfold exprOf
  rw [hnode.form, hnode.span, hnode.expr "condition" (by simp) hc hcondition, hnode.expr "then" (by simp) hy hyes,
    hnode.expr "else" (by simp) hn hno]
  rfl

theorem exprBack_lambda {params : List ParamDecl} {body : Expr} (hparams : ∀ p ∈ params, ParamBack d p)
    (hbody : ExprBack (d + 1) body) : ExprBack (d + 2) (.lambda span params body) := by
  refine .node (fun _ => rfl) (show Shape "LambdaExpression" ["params", "body"] by decide) rfl hspan fun hfloat => ?_
  simp only [List.Forall, TreePart.hasFloat, TreeStyle.params_eq_map] at hfloat ⊢
  obtain ⟨hp, hb⟩ := hfloat
  refine ⟨⟨ReadsBack.children_fits hparams hp, hbody.child_fits hb⟩, fun node hnode => readExpr_of_exprOf ?_⟩
  unfold exprOf
  rw [hnode.form, hnode.span, hnode.params "params" (by simp) hp hparams, hnode.expr "body" (by simp) hb hbody]
  rfl

theorem exprBack_listComp {elem : Expr} {clauses : List Clause} (helem : ExprBack (d + 1) elem)
    (hclauses : ∀ c ∈ clauses, ClauseBack d c) : ExprBack (d + 2) (.listComp span elem clauses) := by
  refine .node (fun _ => rfl) (show Shape "ListComprehension" ["element", "clauses"] by decide) rfl hspan
    fun hfloat => ?_
  simp only [List.Forall, TreePart.hasFloat, TreeStyle.clauses_eq_map] at hfloat ⊢
  obtain ⟨he, hc⟩ := hfloat
  refine ⟨⟨helem.child_fits he, ReadsBack.children_fits hclauses hc⟩, fun node hnode => readExpr_of_exprOf ?_⟩
  unfold exprOf
  rw [hnode.form, hnode.span, hnode.expr "element" (by simp) he helem, hnode.clauses "clauses" (by simp) hc hclauses]
  rfl

theorem exprBack_dictComp {key value : Expr} {clauses : List Clause} (hkey : ExprBack (d + 1) key)
    (hvalue : ExprBack (d + 1) value) (hclauses : ∀ c ∈ clauses, ClauseBack d c) :
    ExprBack (d + 2) (.dictComp span key value clauses) := by
  refine .node (fun _ => rfl) (show Shape "DictComprehension" ["key", "value", "clauses"] by decide) rfl hspan
    fun hfloat => ?_
  simp only [List.Forall, TreePart.hasFloat, TreeStyle.clauses_eq_map] at hfloat ⊢
  obtain ⟨hk, hv, hc⟩ := hfloat
  refine ⟨⟨hkey.child_fits hk, hvalue.child_fits hv, ReadsBack.children_fits hclauses hc⟩,
    fun node hnode => readExpr_of_exprOf ?_⟩
  unfold exprOf
  rw [hnode.form, hnode.span, hnode.expr "key" (by simp) hk hkey, hnode.expr "value" (by simp) hv hvalue,
    hnode.clauses "clauses" (by simp) hc hclauses]
  rfl

end Exprs

/-! ### Written types -/

section Types

variable {d : Nat} {span : Span} (hspan : span.Fits (d + 1))
include hspan

theorem typeBack_simple {id : Ident} (hid : IdentBack (d + 1) id) : TypeBack (d + 2) (.simple span id) := by
  refine .node (fun _ => rfl) (show Shape "SimpleTypeExpression" ["name"] by decide) rfl hspan ?_
  intro hi
  refine ⟨hid.child_fits hi, fun node hnode => ?_⟩
  rw [readType_eq]
  unfold typeOf
  rw [hnode.form, hnode.span, hnode.ident "name" List.mem_cons_self hid hi]
  rfl

theorem typeBack_generic {base : TypeExpr} {args : List TypeExpr} (hbase : TypeBack (d + 1) base)
    (hargs : ∀ t ∈ args, TypeBack d t) : TypeBack (d + 2) (.generic span base args) := by
  refine .node (fun _ => rfl) (show Shape "GenericTypeExpression" ["base", "arguments"] by decide) rfl hspan
    fun hfloat => ?_
  simp only [List.Forall, TreePart.hasFloat, TreeStyle.types_eq_map] at hfloat ⊢
  obtain ⟨hb, ha⟩ := hfloat
  refine ⟨⟨hbase.child_fits hb, ReadsBack.children_fits hargs ha⟩, fun node hnode => ?_⟩
  obtain ⟨inner, hwrite, -, hread⟩ := hbase hb
  have hmember := hnode.part List.mem_cons_self
  rw [hwrite] at hmember
  obtain ⟨hlt, hobject⟩ := objectMember?_of_obj hmember
  rw [readType_eq]
  unfold typeOf
  rw [hnode.form, hnode.span, hobject, hnode.types "arguments" (by simp) ha hargs]
  show (readType inner >>= _) = _
  rw [hread]
  rfl

theorem typeBack_union {members : List TypeExpr} (hmembers : ∀ t ∈ members, TypeBack d t) :
    TypeBack (d + 2) (.union span members) := by
  refine .node (fun _ => rfl) (show Shape "UnionTypeExpression" ["members"] by decide) rfl hspan fun hm => ?_
  simp only [List.Forall, TreePart.hasFloat, TreeStyle.types_eq_map] at hm ⊢
  refine ⟨ReadsBack.children_fits hmembers hm, fun node hnode => ?_⟩
  rw [readType_eq]
  unfold typeOf
  rw [hnode.form, hnode.span, hnode.types "members" List.mem_cons_self hm hmembers]
  rfl

omit hspan in
theorem optionalType_fits {t : TypeExpr} (ht : t = .hole ∨ TypeBack d t)
    (hfloat : isMarked (TreeStyle.floats.type t) = false) : (TreePart.child (TreeStyle.standard.type t)).Fits d := by
  rcases ht with rfl | ht
  · intro x hx
    cases hx
  · exact ht.child_fits hfloat

end Types

/-! ### Parts of expressions

The entries and the fields that are read have no place of their own. -/

section Parts

variable {d : Nat} {span : Span}

theorem entryBack {key value : Expr} (hkey : ExprBack (d + 1) key) (hvalue : ExprBack (d + 1) value) :
    EntryBack (d + 2) (.entry {} key value) := by
  refine .node (fun _ => rfl) (show Shape "DictEntry" ["key", "value"] by decide) rfl (Span.fits_none _) ?_
  rintro ⟨hk, hv⟩
  refine ⟨⟨hkey.child_fits hk, hvalue.child_fits hv⟩, fun node hnode => ?_⟩
  unfold readEntry
  rw [hnode.expr "key" (by simp) hk hkey, hnode.expr "value" (by simp) hv hvalue]
  rfl

theorem fieldBack {id : Ident} {value : Expr} (hid : IdentBack (d + 1) id) (hvalue : ExprBack (d + 1) value) :
    FieldBack (d + 2) (.field {} id value) := by
  refine .node (fun _ => rfl) (show Shape "StructField" ["name", "value"] by decide) rfl (Span.fits_none _) ?_
  rintro ⟨hi, hv⟩
  refine ⟨⟨hid.child_fits hi, hvalue.child_fits hv⟩, fun node hnode => ?_⟩
  unfold readField
  rw [hnode.ident "name" List.mem_cons_self hid hi, hnode.expr "value" (by simp) hv hvalue]
  rfl

theorem argBack (hspan : span.Fits (d + 1)) {kind name : Text} {value : Expr} (hkind : kind.isUtf8 = true)
    (hset : kind ≠ "") (hname : name.isUtf8 = true) (hvalue : ExprBack (d + 1) value) :
    ArgBack (d + 2) (.arg span kind name value) := by
  refine .node (fun _ => rfl) (show Shape "Argument" ["kind", "name", "value"] by decide) rfl hspan ?_
  rintro ⟨-, -, hv⟩
  refine ⟨⟨hkind, hname, hvalue.child_fits hv⟩, fun node hnode => ?_⟩
  unfold readArg
  rw [hnode.span, hnode.text "kind" (t := kind) (by simp), hnode.optionalText "name" (t := name) (by simp),
    hnode.expr "value" (by simp) hv hvalue, orElse, if_neg hset]
  rfl

theorem paramBack (hspan : span.Fits (d + 1)) {id : Ident} {kind : Text} {type : TypeExpr} {default : Expr}
    (hid : IdentBack (d + 1) id) (hkind : kind.isUtf8 = true) (hset : kind ≠ "")
    (htype : type = .hole ∨ TypeBack (d + 1) type) (hdefault : default = .hole ∨ ExprBack (d + 1) default) :
    ParamBack (d + 2) (.param span id kind type default) := by
  refine .node (fun _ => rfl) (show Shape "FunctionParameter" ["name", "kind", "paramType", "default"] by decide) rfl
    hspan ?_
  rintro ⟨hi, -, ht, hd⟩
  refine ⟨⟨hid.child_fits hi, hkind, optionalType_fits htype ht, optional_fits hdefault hd⟩,
    fun node hnode => ?_⟩
  unfold readParam
  rw [hnode.span, hnode.ident "name" List.mem_cons_self hid hi, hnode.text "kind" (t := kind) (by simp),
    hnode.optionalType "paramType" (by simp) ht htype, hnode.optionalExpr "default" (by simp) hd hdefault, orElse,
    if_neg hset]
  rfl

theorem clauseBack_for (hspan : span.Fits (d + 1)) {target iterable : Expr} (htarget : ExprBack (d + 1) target)
    (hassign : target.isTarget = true) (hiterable : ExprBack (d + 1) iterable) :
    ClauseBack (d + 2) (.clause span target iterable .hole) := by
  refine .node (fun _ => rfl) (show Shape "ComprehensionClause" ["target", "iterable", "condition"] by decide) rfl
    hspan ?_
  rintro ⟨ht, hi, -⟩
  refine ⟨⟨htarget.child_fits ht, hiterable.child_fits hi, optional_fits (Or.inl rfl) rfl⟩,
    fun node hnode => ?_⟩
  have hthere : (memberOf? node "iterable").isSome = true := by
    obtain ⟨inner, hwrite, -⟩ := hiterable hi
    have hmember := hnode.part mem_second
    rw [hmember, TreeStyle.standardPart, hwrite]
    rfl
  unfold readClause
  rw [if_pos hthere, hnode.span, hnode.target "target" (by simp) ht htarget hassign,
    hnode.expr "iterable" (by simp) hi hiterable]
  rfl

theorem clauseBack_if (hspan : span.Fits (d + 1)) {condition : Expr} (hcondition : ExprBack (d + 1) condition) :
    ClauseBack (d + 2) (.clause span .hole .hole condition) := by
  refine .node (fun _ => rfl) (show Shape "ComprehensionClause" ["target", "iterable", "condition"] by decide) rfl
    hspan ?_
  rintro ⟨-, -, hc⟩
  refine ⟨⟨optional_fits (Or.inl rfl) rfl, optional_fits (Or.inl rfl) rfl, hcondition.child_fits hc⟩,
    fun node hnode => ?_⟩
  have habsent : memberOf? node "iterable" = none := hnode.part mem_second
  unfold readClause
  rw [if_neg (by simp [habsent]), hnode.span, hnode.expr "condition" (by simp) hc hcondition]
  rfl

theorem symbolBack (hspan : span.Fits (d + 1)) {here : Ident} {name : Text} (hhere : IdentBack (d + 1) here)
    (hname : name.isUtf8 = true) (hset : name = "" → here.name = "") :
    SymbolBack (d + 2) (.symbol span (some here) name) := by
  refine .node (fun _ => rfl) (show Shape "LoadSymbol" ["local", "name"] by decide) rfl hspan ?_
  rintro ⟨hh, -⟩
  refine ⟨⟨hhere.child_fits hh, hname⟩, fun node hnode => ?_⟩
  have hcalled : orElse name here.name = name := by
    rw [orElse]
    split
    · next hempty => rw [hset hempty, hempty]
    · rfl
  unfold readSymbol
  rw [hnode.span, hnode.ident "local" List.mem_cons_self hhere hh, hnode.text "name" (t := name) (by simp)]
  show Except.ok _ = _
  rw [hcalled]

end Parts

/-! ### Statements -/

theorem readStmt_of_stmtOf {node : Members} {x : Stmt}
    (h : stmtOf (readers node) node (Nat.le_refl _) = some (.ok x)) : readStmt node = .ok x := by
  have hexpr : exprOf (readers node) node (Nat.le_refl _) = none ∧ textMember node "type" ≠ "Module" ∧
      isTypeForm (textMember node "type") = false := by
    unfold stmtOf at h
    unfold exprOf
    generalize textMember node "type" = form at h ⊢
    dsimp only at h
    split at h
    iterate 10 exact ⟨rfl, by decide, by decide⟩
    · cases h
  obtain ⟨hexpr, hmodule, htype⟩ := hexpr
  rw [readStmt, readNode_eq, nodeOf]
  simp only [hmodule, htype, hexpr, h]
  rfl

theorem stmtBack_expr {d : Nat} {e : Expr} (he : ExprBack d e) : StmtBack d (.expr e) := by
  intro hfloat
  obtain ⟨node, hwrite, hfits, hread⟩ := he hfloat
  refine ⟨node, hwrite, hfits, ?_⟩
  rw [readStmt, readNode_of_readExpr hread]
  rfl

section Stmts

variable {d : Nat} {span : Span} (hspan : span.Fits (d + 1))
include hspan

theorem stmtBack_assign {op : Text} {target value : Expr} {declared : TypeExpr} (hop : op.isUtf8 = true)
    (hset : op ≠ "") (htarget : ExprBack (d + 1) target) (hassign : target.isTarget = true)
    (hdeclared : declared = .hole ∨ TypeBack (d + 1) declared) (hvalue : ExprBack (d + 1) value) :
    StmtBack (d + 2) (.assign span op target declared value) := by
  refine .node (fun _ => rfl) (show Shape "AssignmentStatement" ["operator", "left", "annotation", "right"] by decide)
    rfl hspan ?_
  rintro ⟨-, ht, hd, hv⟩
  refine ⟨⟨hop, htarget.child_fits ht, optionalType_fits hdeclared hd, hvalue.child_fits hv⟩,
    fun node hnode => readStmt_of_stmtOf ?_⟩
  unfold stmtOf
  rw [hnode.form, hnode.span, hnode.target "left" (by simp) ht htarget hassign,
    hnode.optionalType "annotation" (by simp) hd hdeclared, hnode.expr "right" (by simp) hv hvalue,
    hnode.text "operator" (t := op) (by simp), orElse, if_neg hset]
  rfl

theorem stmtBack_define {id : Ident} {params : List ParamDecl} {result : TypeExpr} {body : List Stmt}
    (hid : IdentBack (d + 1) id) (hparams : ∀ p ∈ params, ParamBack d p)
    (hresult : result = .hole ∨ TypeBack (d + 1) result) (hbody : ∀ x ∈ body, StmtBack d x) :
    StmtBack (d + 2) (.define span id params result body) := by
  refine .node (fun _ => rfl) (show Shape "FunctionDefinition" ["id", "params", "returnType", "body"] by decide) rfl
    hspan fun hfloat => ?_
  simp only [List.Forall, TreeStyle.name, TreePart.hasFloat, TreeStyle.params_eq_map, TreeStyle.stmts_eq_map]
    at hfloat ⊢
  obtain ⟨hi, hp, hr, hb⟩ := hfloat
  refine ⟨⟨hid.child_fits hi, ReadsBack.children_fits hparams hp, optionalType_fits hresult hr,
    ReadsBack.children_fits hbody hb⟩, fun node hnode => readStmt_of_stmtOf ?_⟩
  unfold stmtOf
  rw [hnode.form, hnode.span, hnode.ident "id" List.mem_cons_self hid hi, hnode.params "params" (by simp) hp hparams,
    hnode.optionalType "returnType" (by simp) hr hresult, hnode.stmts "body" (by simp) hb hbody]
  rfl

theorem stmtBack_ret {value : Expr} (hvalue : value = .hole ∨ ExprBack (d + 1) value) :
    StmtBack (d + 2) (.ret span value) := by
  refine .node (fun _ => rfl) (show Shape "ReturnStatement" ["argument"] by decide) rfl hspan ?_
  intro hv
  refine ⟨optional_fits hvalue hv, fun node hnode => readStmt_of_stmtOf ?_⟩
  unfold stmtOf
  rw [hnode.form, hnode.span, hnode.optionalExpr "argument" List.mem_cons_self hv hvalue]
  rfl

theorem stmtBack_branch {condition : Expr} {yes no : List Stmt} (hcondition : ExprBack (d + 1) condition)
    (hyes : ∀ x ∈ yes, StmtBack d x) (hno : ∀ x ∈ no, StmtBack d x) :
    StmtBack (d + 2) (.branch span condition yes no) := by
  refine .node (fun _ => rfl) (show Shape "IfStatement" ["condition", "then", "else"] by decide) rfl hspan
    fun hfloat => ?_
  simp only [List.Forall, TreePart.hasFloat, TreeStyle.stmts_eq_map] at hfloat ⊢
  obtain ⟨hc, hy, hn⟩ := hfloat
  refine ⟨⟨hcondition.child_fits hc, ReadsBack.children_fits hyes hy, ReadsBack.children_fits hno hn⟩,
    fun node hnode => readStmt_of_stmtOf ?_⟩
  have helse : stmtsMember (readers node) node (Nat.le_refl _) "else" = .ok no :=
    hnode.optionalList "else" "statement" (by simp) hn hno
  unfold stmtOf
  rw [hnode.form, hnode.span, hnode.expr "condition" (by simp) hc hcondition, hnode.stmts "then" (by simp) hy hyes,
    helse]
  rfl

theorem stmtBack_forIn {target iterable : Expr} {body : List Stmt} (htarget : ExprBack (d + 1) target)
    (hassign : target.isTarget = true) (hiterable : ExprBack (d + 1) iterable) (hbody : ∀ x ∈ body, StmtBack d x) :
    StmtBack (d + 2) (.forIn span target iterable body) := by
  refine .node (fun _ => rfl) (show Shape "ForLoop" ["target", "iterable", "body"] by decide) rfl hspan
    fun hfloat => ?_
  simp only [List.Forall, TreePart.hasFloat, TreeStyle.stmts_eq_map] at hfloat ⊢
  obtain ⟨ht, hi, hb⟩ := hfloat
  refine ⟨⟨htarget.child_fits ht, hiterable.child_fits hi, ReadsBack.children_fits hbody hb⟩,
    fun node hnode => readStmt_of_stmtOf ?_⟩
  unfold stmtOf
  rw [hnode.form, hnode.span, hnode.target "target" (by simp) ht htarget hassign,
    hnode.expr "iterable" (by simp) hi hiterable, hnode.stmts "body" (by simp) hb hbody]
  rfl

theorem stmtBack_whileDo {condition : Expr} {body : List Stmt} (hcondition : ExprBack (d + 1) condition)
    (hbody : ∀ x ∈ body, StmtBack d x) : StmtBack (d + 2) (.whileDo span condition body) := by
  refine .node (fun _ => rfl) (show Shape "WhileLoop" ["condition", "body"] by decide) rfl hspan fun hfloat => ?_
  simp only [List.Forall, TreePart.hasFloat, TreeStyle.stmts_eq_map] at hfloat ⊢
  obtain ⟨hc, hb⟩ := hfloat
  refine ⟨⟨hcondition.child_fits hc, ReadsBack.children_fits hbody hb⟩, fun node hnode => readStmt_of_stmtOf ?_⟩
  unfold stmtOf
  rw [hnode.form, hnode.span, hnode.expr "condition" (by simp) hc hcondition, hnode.stmts "body" (by simp) hb hbody]
  rfl

theorem stmtBack_exit : StmtBack (d + 2) (.exit span) := by
  refine .node (fun _ => rfl) (show Shape "BreakStatement" [] by decide) rfl hspan fun _ =>
    ⟨trivial, fun node hnode => readStmt_of_stmtOf ?_⟩
  unfold stmtOf
  rw [hnode.form, hnode.span]
  rfl

theorem stmtBack_next : StmtBack (d + 2) (.next span) := by
  refine .node (fun _ => rfl) (show Shape "ContinueStatement" [] by decide) rfl hspan fun _ =>
    ⟨trivial, fun node hnode => readStmt_of_stmtOf ?_⟩
  unfold stmtOf
  rw [hnode.form, hnode.span]
  rfl

theorem stmtBack_pass : StmtBack (d + 2) (.pass span) := by
  refine .node (fun _ => rfl) (show Shape "PassStatement" [] by decide) rfl hspan fun _ =>
    ⟨trivial, fun node hnode => readStmt_of_stmtOf ?_⟩
  unfold stmtOf
  rw [hnode.form, hnode.span]
  rfl

theorem stmtBack_load {source : Text} {symbols : List LoadSymbol} (hsource : source.isUtf8 = true)
    (hsymbols : ∀ x ∈ symbols, SymbolBack d x) : StmtBack (d + 2) (.load span source symbols) := by
  refine .node (fun _ => rfl) (show Shape "LoadStatement" ["module", "symbols"] by decide) rfl hspan ?_
  rintro ⟨-, hs⟩
  refine ⟨⟨hsource, ReadsBack.children_fits hsymbols hs⟩, fun node hnode => readStmt_of_stmtOf ?_⟩
  have hread : listMember node (Nat.le_refl _) "symbols" "load symbol"
      (fun inner hi => readSymbol (readers node) inner (Nat.le_of_lt hi)) = .ok symbols :=
    hnode.list "symbols" "load symbol" (by simp) hs hsymbols
  unfold stmtOf
  rw [hnode.form, hnode.span, hread, hnode.text "module" (t := source) (by simp)]
  rfl

theorem moduleBack {body : List Stmt} (hbody : ∀ x ∈ body, StmtBack d x) : ModuleBack (d + 2) ⟨span, body⟩ := by
  refine .node (fun _ => rfl) (show Shape "Module" ["body"] by decide) rfl hspan fun hb => ?_
  simp only [List.Forall, TreePart.hasFloat, TreeStyle.stmts_eq_map] at hb ⊢
  refine ⟨ReadsBack.children_fits hbody hb, fun node hnode => ?_⟩
  rw [readModule, readNode_eq]
  unfold nodeOf
  rw [hnode.form, hnode.span, hnode.stmts "body" List.mem_cons_self hb hbody]
  rfl

end Stmts

end Gradual.Tree

namespace Gradual

theorem Module.parse_of_parse {text : Text} {j : Json} (h : Json.parse .relaxed text = some j) :
    Module.parse text = if j.isTooDeep then .error .tooDeep else Module.ofJson j := by
  rw [Module.parse, Json.decode_of_parse h]
  split
  · rfl
  · cases Module.ofJson j <;> rfl

/-- A module that loads modules by the names they are written with. -/
def loader (raws : List Text) : Module := ⟨{}, raws.map fun raw => .load {} raw []⟩

def loaderText (raws : List Text) : Text := (loader raws).toJson.render .plain

theorem parse_loaderText {raws : List Text} (hraws : ∀ raw ∈ raws, raw.isUtf8 = true)
    (hfloat : (loader raws).hasFloat = false) : Module.parse (loaderText raws) = .ok (loader raws) := by
  have hback : Tree.ModuleBack 4 (loader raws) := by
    refine Tree.moduleBack (Span.fits_none _) fun x hx => ?_
    obtain ⟨raw, hraw, rfl⟩ := List.mem_map.mp hx
    exact Tree.stmtBack_load (Span.fits_none _) (hraws raw hraw) (List.forall_mem_nil _)
  obtain ⟨node, hwrite, ⟨hwritable, hdepth⟩, hread⟩ := hback hfloat
  have hjson : (loader raws).toJson = .obj node := Option.some.inj hwrite
  have hshallow : (Json.obj node).isTooDeep = false :=
    decide_eq_false (Nat.not_lt.mpr (Nat.le_trans hdepth (by decide)))
  rw [loaderText, hjson, Module.parse_of_parse (Json.parse_render .relaxed .plain hwritable), hshallow]
  exact hread

end Gradual
