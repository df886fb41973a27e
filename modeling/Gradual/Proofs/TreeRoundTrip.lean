import Gradual.Proofs.TreeForms
import Gradual.Proofs.WireText

/-! Reading and writing syntax trees. -/

namespace Gradual

namespace Tree

open Json (Members memberOf? textMember objectMember? arrayMember)

/-! ### What members hold -/

section Members

variable {node : Members} {key : Text}

theorem le_depthOfMembers {m : Text × Json} (h : m ∈ node) : m.2.depth ≤ Json.depthOfMembers node := by
  induction node with
  | nil => cases h
  | cons first rest ih =>
      rcases List.mem_cons.mp h with rfl | h
      · exact Nat.le_max_left _ _
      · exact Nat.le_trans (ih h) (Nat.le_max_right _ _)

theorem le_depthOfItems {items : List Json} {j : Json} (h : j ∈ items) : j.depth ≤ Json.depthOfItems items := by
  induction items with
  | nil => cases h
  | cons first rest ih =>
      rcases List.mem_cons.mp h with rfl | h
      · exact Nat.le_max_left _ _
      · exact Nat.le_trans (ih h) (Nat.le_max_right _ _)

theorem depth_memberOf? {j : Json} (h : memberOf? node key = some j) : j.depth ≤ Json.depthOfMembers node :=
  le_depthOfMembers (mem_of_memberOf? h)

theorem memberOf?_of_objectMember? {inner : { inner : Members // sizeOf inner < sizeOf node }}
    (h : objectMember? node key = some inner) : memberOf? node key = some (.obj inner.val) := by
  unfold objectMember? at h
  split at h
  · next h' =>
    cases h
    exact h'
  · cases h

theorem mem_arrayMember {item : { item : Json // sizeOf item < sizeOf node }} (h : item ∈ arrayMember node key) :
    ∃ items, memberOf? node key = some (.arr items) ∧ item.val ∈ items := by
  unfold arrayMember at h
  split at h
  · next items h' =>
    obtain ⟨⟨j, hj⟩, -, rfl⟩ := List.mem_map.mp h
    exact ⟨items, h', hj⟩
  · cases h

variable {S : Text → Prop} (hnode : (Json.obj node).AllTexts S)
include hnode

theorem allTexts_memberOf? {j : Json} (h : memberOf? node key = some j) : j.AllTexts S :=
  hnode.members _ (mem_of_memberOf? h)

theorem textMember_of_allTexts (hblank : S "") : S (textMember node key) := by
  rw [textMember]
  cases h : memberOf? node key with
  | none => exact hblank
  | some j =>
      have hj := allTexts_memberOf? hnode h
      cases hj with
      | str ht => exact ht
      | _ => exact hblank

end Members

theorem isInt64_intMember (node : Members) (key : Text) : Decimal.IsInt64 (intMember node key) :=
  Decimal.isInt64_intOrZero _

theorem fits_readSpan (node : Members) : (readSpan node).Fits (Json.depthOfMembers node + 1) := by
  have hzero : Decimal.IsInt64 0 := ⟨by decide, by decide⟩
  have hposition : ∀ (inner : Members) (key : Text), Decimal.IsInt64 (readPosition inner key).line ∧
      Decimal.IsInt64 (readPosition inner key).column ∧
      (readPosition inner key = {} ∨ 1 ≤ Json.depthOfMembers inner) := by
    intro inner key
    unfold readPosition
    split
    · next h =>
      have hdepth := Nat.le_trans (Nat.succ_pos _) (depth_memberOf? h)
      exact ⟨isInt64_intMember _ _, isInt64_intMember _ _, Or.inr hdepth⟩
    · exact ⟨hzero, hzero, Or.inl rfl⟩
  unfold readSpan
  split
  · next inner h =>
    obtain ⟨hline, hcolumn, hstart⟩ := hposition inner "start"
    obtain ⟨hline', hcolumn', hstop⟩ := hposition inner "end"
    refine ⟨hline, hcolumn, hline', hcolumn', ?_⟩
    have hdepth : Json.depthOfMembers inner + 1 ≤ Json.depthOfMembers node := depth_memberOf? h
    rcases hstart with hstart | hstart
    · rcases hstop with hstop | hstop
      · rw [hstart, hstop]
        exact Or.inl rfl
      · exact Or.inr (by omega)
    · exact Or.inr (by omega)
  · exact Span.fits_none _

theorem ensures_readInteger (node : Members) : Ensures (readInteger node) Decimal.IsInt64 := by
  unfold readInteger
  split
  · split
    · next h => exact .ok (Decimal.isInt64_of_readInt (Or.inl h))
    · exact .error _
    · exact .error _
  · exact .ok ⟨by decide, by decide⟩

/-! ### Readings and what they give -/

/-- A node reads back, as whatever it is taken for. -/
def NodeBack (d : Nat) : Node → Prop
  | .module m => ModuleBack d m
  | .stmt x => StmtBack d x
  | .expr e => ExprBack d e
  | .type _ => True

/-- What readers give reads back, nested at most one level deeper than what it was read from. -/
structure Readers.Sound {top : Members} (r : Readers top) : Prop where
  node : ∀ {inner : Members} (h : sizeOf inner < sizeOf top), (Json.obj inner).AllTexts (·.isUtf8 = true) →
    Ensures (r.node inner h) (NodeBack (Json.depthOfMembers inner + 2))
  type : ∀ {inner : Members} (h : sizeOf inner < sizeOf top), (Json.obj inner).AllTexts (·.isUtf8 = true) →
    Ensures (r.type inner h) (TypeBack (Json.depthOfMembers inner + 2))

theorem NodeBack.mono {d d' : Nat} {n : Node} (h : NodeBack d n) (hd : d ≤ d') : NodeBack d' n := by
  cases n with
  | module m =>
      have h : ModuleBack d m := h
      exact h.mono hd
  | stmt x => exact ReadsBack.mono h hd
  | expr e => exact ReadsBack.mono h hd
  | type t => trivial

theorem isUtf8_orElse {text other : Text} (htext : text.isUtf8 = true) (hother : other.isUtf8 = true) :
    (orElse text other).isUtf8 = true := by
  unfold orElse
  split <;> assumption

theorem orElse_ne_empty {text other : Text} (h : other ≠ "") : orElse text other ≠ "" := by
  unfold orElse
  split <;> assumption

theorem ReadsBack.isUtf8_name {d : Nat} {id : Ident} (h : IdentBack d id) : id.name.isUtf8 = true := by
  obtain ⟨node, hwrite, ⟨hwritable, -⟩, -⟩ := h rfl
  have hname : ("name", Json.str id.name) ∈ written "Identifier" id.span [("name", .text id.name)] :=
    mem_written_iff.mpr (Or.inr (Or.inl ⟨_, List.mem_cons_self, rfl⟩))
  rw [← Option.some.inj hwrite] at hwritable
  cases hwritable with
  | obj _ hmembers =>
      cases hmembers _ hname with
      | str ht => exact ht

section Readings

variable {top : Members} {r : Readers top} (hr : r.Sound) {node : Members} {hle : sizeOf node ≤ sizeOf top}
  (hnode : (Json.obj node).AllTexts (·.isUtf8 = true)) (key : Text)
include hnode

theorem isUtf8_textMember : (textMember node key).isUtf8 = true :=
  textMember_of_allTexts hnode (by decide)

theorem ensures_listMember {α : Type} {P : α → Prop} (what : Text)
    {read : (item : Members) → sizeOf item < sizeOf top → Except TreeError α}
    (hread : ∀ (item : Members) (h : sizeOf item < sizeOf top), (Json.obj item).AllTexts (·.isUtf8 = true) →
      Json.depthOfMembers item + 2 ≤ Json.depthOfMembers node → Ensures (read item h) P) :
    Ensures (listMember node hle key what read) fun as => ∀ a ∈ as, P a := by
  have hitems : ∀ items : List { j : Json // sizeOf j < sizeOf top },
      (∀ item ∈ items, item.val.AllTexts (·.isUtf8 = true) ∧ item.val.depth + 1 ≤ Json.depthOfMembers node) →
      Ensures (readItems what read items) fun as => ∀ a ∈ as, P a := by
    intro items
    induction items with
    | nil => exact fun _ => .ok (List.forall_mem_nil _)
    | cons item items ih =>
        intro h
        obtain ⟨⟨htexts, hdepth⟩, hrest⟩ := List.forall_mem_cons.mp h
        obtain ⟨j, hj⟩ := item
        cases j with
        | obj inner =>
            rw [readItems_cons]
            exact (hread inner _ htexts hdepth).bind fun a ha => (ih hrest).bind fun as has =>
              .pure (List.forall_mem_cons.mpr ⟨ha, has⟩)
        | _ => exact .error _
  apply hitems
  intro item hitem
  obtain ⟨⟨j, hj⟩, hmem, rfl⟩ := List.mem_map.mp hitem
  obtain ⟨items, hmember, hin⟩ := mem_arrayMember hmem
  have hdepth := depth_memberOf? hmember
  exact ⟨(allTexts_memberOf? hnode hmember).items _ hin, Nat.le_trans (Nat.succ_le_succ (le_depthOfItems hin)) hdepth⟩

include hr

theorem ensures_nodeMember {α : Type} {P : α → Prop} {into : Node → Except TreeError α}
    (hinto : ∀ n, NodeBack (Json.depthOfMembers node + 1) n → Ensures (into n) P) :
    Ensures (nodeMember r node hle key into) P := by
  unfold nodeMember
  split
  · next inner hi h =>
    have hmember := memberOf?_of_objectMember? h
    have hdepth : Json.depthOfMembers inner + 1 ≤ Json.depthOfMembers node := depth_memberOf? hmember
    exact (hr.node _ (allTexts_memberOf? hnode hmember)).bind fun n hn => hinto n (hn.mono (Nat.succ_le_succ hdepth))
  · exact .error _

theorem ensures_exprMember : Ensures (exprMember r node hle key) (ExprBack (Json.depthOfMembers node + 1)) := by
  apply ensures_nodeMember hr hnode
  intro n hn
  cases n with
  | expr e => exact .ok hn
  | _ => exact .error _

theorem ensures_targetMember : Ensures (targetMember r node hle key) fun e =>
    ExprBack (Json.depthOfMembers node + 1) e ∧ e.isTarget = true := by
  apply ensures_nodeMember hr hnode
  intro n hn
  cases n with
  | expr e =>
      unfold Node.toTarget
      dsimp only
      split
      · next htarget => exact .ok ⟨hn, htarget⟩
      · exact .error _
  | _ => exact .error _

theorem ensures_optionalExpr : Ensures (optionalExpr r node hle key) fun e =>
    e = .hole ∨ ExprBack (Json.depthOfMembers node + 1) e := by
  have hexpr : Ensures (exprMember r node hle key) (ExprBack (Json.depthOfMembers node + 1)) :=
    ensures_exprMember hr hnode key
  unfold exprMember nodeMember at hexpr
  unfold optionalExpr
  split at hexpr
  · exact fun e he => Or.inr (hexpr e he)
  · exact .ok (Or.inl rfl)

theorem ensures_optionalType : Ensures (optionalType r node hle key) fun t =>
    t = .hole ∨ TypeBack (Json.depthOfMembers node + 1) t := by
  unfold optionalType
  split
  · next inner hi h =>
    have hmember := memberOf?_of_objectMember? h
    have hdepth : Json.depthOfMembers inner + 1 ≤ Json.depthOfMembers node := depth_memberOf? hmember
    intro t ht
    exact Or.inr ((hr.type _ (allTexts_memberOf? hnode hmember) t ht).mono (Nat.succ_le_succ hdepth))
  · exact .ok (Or.inl rfl)

theorem ensures_sliceBound : Ensures (sliceBound r node hle key) fun e =>
    e = .hole ∨ ExprBack (Json.depthOfMembers node + 1) e := by
  unfold sliceBound
  split
  · exact .ok (Or.inl rfl)
  · exact .ok (Or.inl rfl)
  · exact fun e he => Or.inr (ensures_exprMember hr hnode key e he)

theorem ensures_identMember : Ensures (identMember r node hle key) (IdentBack (Json.depthOfMembers node + 1)) := by
  unfold identMember
  split
  · next name hmember =>
    split
    · exact .error _
    · have hname := allTexts_memberOf? hnode hmember
      cases hname with
      | str hname => exact .ok ((exprBack_ident (Span.fits_none _) hname).ident)
  · apply ensures_nodeMember hr hnode
    intro n hn
    unfold Node.toIdent
    split
    · exact .ok (ReadsBack.ident hn)
    · exact .error _

theorem ensures_exprsMember : Ensures (exprsMember r node hle key) fun es =>
    ∀ e ∈ es, ExprBack (Json.depthOfMembers node) e := by
  apply ensures_listMember hnode
  intro item hi htexts hdepth
  refine (hr.node hi htexts).bind fun n hn => ?_
  cases n with
  | expr e => exact .ok (ReadsBack.mono hn hdepth)
  | _ => exact .error _

theorem ensures_stmtsMember : Ensures (stmtsMember r node hle key) fun ss =>
    ∀ x ∈ ss, StmtBack (Json.depthOfMembers node) x := by
  apply ensures_listMember hnode
  intro item hi htexts hdepth
  refine (hr.node hi htexts).bind fun n hn => ?_
  cases n with
  | stmt x => exact .ok (ReadsBack.mono hn hdepth)
  | expr e => exact .ok (stmtBack_expr (ReadsBack.mono hn hdepth))
  | _ => exact .error _

theorem ensures_typesMember : Ensures (typesMember r node hle key) fun ts =>
    ∀ t ∈ ts, TypeBack (Json.depthOfMembers node) t := by
  apply ensures_listMember hnode
  intro item hi htexts hdepth t ht
  exact (hr.type hi htexts t ht).mono hdepth

theorem ensures_readEntry : Ensures (readEntry r node hle) (EntryBack (Json.depthOfMembers node + 2)) :=
  (ensures_exprMember hr hnode "key").bind fun _ hkey => (ensures_exprMember hr hnode "value").bind fun _ hvalue =>
    .pure (entryBack hkey hvalue)

theorem ensures_readField : Ensures (readField r node hle) (FieldBack (Json.depthOfMembers node + 2)) :=
  (ensures_identMember hr hnode "name").bind fun _ hid => (ensures_exprMember hr hnode "value").bind fun _ hvalue =>
    .pure (fieldBack hid hvalue)

theorem ensures_readArg : Ensures (readArg r node hle) (ArgBack (Json.depthOfMembers node + 2)) := by
  refine (ensures_exprMember hr hnode "value").bind fun _ hvalue => .pure ?_
  exact argBack (fits_readSpan node) (isUtf8_orElse (isUtf8_textMember hnode "kind") (by decide))
    (orElse_ne_empty (by decide)) (isUtf8_textMember hnode "name") hvalue

theorem ensures_readParam : Ensures (readParam r node hle) (ParamBack (Json.depthOfMembers node + 2)) := by
  refine (ensures_identMember hr hnode "name").bind fun _ hid => ?_
  refine (ensures_optionalType hr hnode "paramType").bind fun _ htype => ?_
  refine (ensures_optionalExpr hr hnode "default").bind fun _ hdefault => .pure ?_
  exact paramBack (fits_readSpan node) hid (isUtf8_orElse (isUtf8_textMember hnode "kind") (by decide))
    (orElse_ne_empty (by decide)) htype hdefault

theorem ensures_paramsMember : Ensures (paramsMember r node hle key) fun ps =>
    ∀ p ∈ ps, ParamBack (Json.depthOfMembers node) p := by
  apply ensures_listMember hnode
  intro item hi htexts hdepth p hp
  exact (ensures_readParam hr htexts p hp).mono hdepth

theorem ensures_readClause : Ensures (readClause r node hle) (ClauseBack (Json.depthOfMembers node + 2)) := by
  unfold readClause
  split
  · refine (ensures_targetMember hr hnode "target").bind fun target htarget => ?_
    refine (ensures_exprMember hr hnode "iterable").bind fun iterable hiterable => .pure ?_
    exact clauseBack_for (fits_readSpan node) htarget.1 htarget.2 hiterable
  · refine (ensures_exprMember hr hnode "condition").bind fun condition hcondition => .pure ?_
    exact clauseBack_if (fits_readSpan node) hcondition

theorem ensures_clausesMember : Ensures (clausesMember r node hle key) fun cs =>
    ∀ c ∈ cs, ClauseBack (Json.depthOfMembers node) c := by
  apply ensures_listMember hnode
  intro item hi htexts hdepth c hc
  exact (ensures_readClause hr htexts c hc).mono hdepth

theorem ensures_readSymbol : Ensures (readSymbol r node hle) (SymbolBack (Json.depthOfMembers node + 2)) := by
  refine (ensures_identMember hr hnode "local").bind fun here hhere => .pure ?_
  have hname := isUtf8_orElse (isUtf8_textMember hnode "name") hhere.isUtf8_name
  refine symbolBack (fits_readSpan node) hhere hname fun hempty => ?_
  by_contra hset
  exact orElse_ne_empty hset hempty

theorem ensures_typeOf : Ensures (typeOf r node hle) (TypeBack (Json.depthOfMembers node + 2)) := by
  have hspan := fits_readSpan node
  unfold typeOf
  split
  · exact (ensures_identMember hr hnode "name").bind fun _ hid => .pure (typeBack_simple hspan hid)
  · split
    · exact .error _
    · next inner hi h =>
      have hmember := memberOf?_of_objectMember? h
      have hdepth : Json.depthOfMembers inner + 1 ≤ Json.depthOfMembers node := depth_memberOf? hmember
      refine (hr.type _ (allTexts_memberOf? hnode hmember)).bind fun base hbase => ?_
      refine (ensures_typesMember hr hnode "arguments").bind fun args hargs => .pure ?_
      exact typeBack_generic hspan (hbase.mono (Nat.succ_le_succ hdepth)) hargs
  · exact (ensures_typesMember hr hnode "members").bind fun _ hmembers => .pure (typeBack_union hspan hmembers)
  · exact .error _

theorem ensures_exprOf {run : Except TreeError Expr} (h : exprOf r node hle = some run) :
    Ensures run (ExprBack (Json.depthOfMembers node + 2)) := by
  have hspan := fits_readSpan node
  unfold exprOf at h
  dsimp only at h
  split at h <;> cases h
  · exact .ok (exprBack_ident hspan (isUtf8_textMember hnode "name"))
  · exact .ok (exprBack_str hspan (isUtf8_textMember hnode "value"))
  · exact (ensures_readInteger node).map fun _ hvalue => exprBack_int hspan hvalue
  · exact .ok fun hfloat => Bool.noConfusion hfloat
  · exact .ok (exprBack_bool hspan)
  · exact .ok (exprBack_none hspan)
  · exact (ensures_exprsMember hr hnode "elements").map fun _ helems => exprBack_list hspan helems
  · exact (ensures_exprsMember hr hnode "elements").map fun _ helems => exprBack_tuple hspan helems
  · refine Ensures.map (ensures_listMember hnode "entries" "dict entry" fun item hi htexts hdepth e he =>
      (ensures_readEntry hr htexts e he).mono hdepth) fun _ hentries => ?_
    exact exprBack_dict hspan hentries
  · refine Ensures.map (ensures_listMember hnode "fields" "struct field" fun item hi htexts hdepth f hf =>
      (ensures_readField hr htexts f hf).mono hdepth) fun _ hfields => ?_
    exact exprBack_struct hspan hfields
  · refine (ensures_exprMember hr hnode "callee").bind fun _ hcallee => ?_
    refine Ensures.bind (ensures_listMember hnode "arguments" "call argument" fun item hi htexts hdepth a ha =>
      (ensures_readArg hr htexts a ha).mono hdepth) fun args hargs => .pure ?_
    exact exprBack_call hspan hcallee hargs
  · exact (ensures_exprMember hr hnode "object").bind fun _ hobject =>
      (ensures_identMember hr hnode "member").bind fun _ hid => .pure (exprBack_member hspan hobject hid)
  · exact (ensures_exprMember hr hnode "object").bind fun _ hobject =>
      (ensures_exprMember hr hnode "index").bind fun _ hindex => .pure (exprBack_index hspan hobject hindex)
  · refine (ensures_exprMember hr hnode "object").bind fun _ hobject => ?_
    refine (ensures_sliceBound hr hnode "start").bind fun _ hstart => ?_
    refine (ensures_sliceBound hr hnode "stop").bind fun _ hstop => ?_
    refine (ensures_sliceBound hr hnode "step").bind fun _ hstep => .pure ?_
    exact exprBack_slice hspan hobject hstart hstop hstep
  · exact (ensures_exprMember hr hnode "left").bind fun _ hleft =>
      (ensures_exprMember hr hnode "right").bind fun _ hright =>
        .pure (exprBack_binary hspan (isUtf8_textMember hnode "operator") hleft hright)
  · exact (ensures_exprMember hr hnode "operand").bind fun _ hoperand =>
      .pure (exprBack_unary hspan (isUtf8_textMember hnode "operator") hoperand)
  · exact (ensures_exprMember hr hnode "condition").bind fun _ hcondition =>
      (ensures_exprMember hr hnode "then").bind fun _ hyes =>
        (ensures_exprMember hr hnode "else").bind fun _ hno => .pure (exprBack_conditional hspan hcondition hyes hno)
  · exact (ensures_paramsMember hr hnode "params").bind fun _ hparams =>
      (ensures_exprMember hr hnode "body").bind fun _ hbody => .pure (exprBack_lambda hspan hparams hbody)
  · exact (ensures_exprMember hr hnode "element").bind fun _ helem =>
      (ensures_clausesMember hr hnode "clauses").bind fun _ hclauses => .pure (exprBack_listComp hspan helem hclauses)
  · exact (ensures_exprMember hr hnode "key").bind fun _ hkey =>
      (ensures_exprMember hr hnode "value").bind fun _ hvalue =>
        (ensures_clausesMember hr hnode "clauses").bind fun _ hclauses =>
          .pure (exprBack_dictComp hspan hkey hvalue hclauses)

theorem ensures_stmtOf {run : Except TreeError Stmt} (h : stmtOf r node hle = some run) :
    Ensures run (StmtBack (Json.depthOfMembers node + 2)) := by
  have hspan := fits_readSpan node
  unfold stmtOf at h
  dsimp only at h
  split at h <;> cases h
  · refine (ensures_targetMember hr hnode "left").bind fun _ htarget => ?_
    refine (ensures_optionalType hr hnode "annotation").bind fun _ hdeclared => ?_
    refine (ensures_exprMember hr hnode "right").bind fun _ hvalue => .pure ?_
    exact stmtBack_assign hspan (isUtf8_orElse (isUtf8_textMember hnode "operator") (by decide))
      (orElse_ne_empty (by decide)) htarget.1 htarget.2 hdeclared hvalue
  · refine (ensures_identMember hr hnode "id").bind fun _ hid => ?_
    refine (ensures_paramsMember hr hnode "params").bind fun _ hparams => ?_
    refine (ensures_optionalType hr hnode "returnType").bind fun _ hresult => ?_
    refine (ensures_stmtsMember hr hnode "body").bind fun _ hbody => .pure ?_
    exact stmtBack_define hspan hid hparams hresult hbody
  · exact (ensures_optionalExpr hr hnode "argument").map fun _ hvalue => stmtBack_ret hspan hvalue
  · exact (ensures_exprMember hr hnode "condition").bind fun _ hcondition =>
      (ensures_stmtsMember hr hnode "then").bind fun _ hyes =>
        (ensures_stmtsMember hr hnode "else").bind fun _ hno => .pure (stmtBack_branch hspan hcondition hyes hno)
  · refine (ensures_targetMember hr hnode "target").bind fun _ htarget => ?_
    refine (ensures_exprMember hr hnode "iterable").bind fun _ hiterable => ?_
    refine (ensures_stmtsMember hr hnode "body").bind fun _ hbody => .pure ?_
    exact stmtBack_forIn hspan htarget.1 htarget.2 hiterable hbody
  · exact (ensures_exprMember hr hnode "condition").bind fun _ hcondition =>
      (ensures_stmtsMember hr hnode "body").bind fun _ hbody => .pure (stmtBack_whileDo hspan hcondition hbody)
  · exact .ok (stmtBack_exit hspan)
  · exact .ok (stmtBack_next hspan)
  · exact .ok (stmtBack_pass hspan)
  · refine Ensures.bind (ensures_listMember hnode "symbols" "load symbol" fun item hi htexts hdepth x hx =>
      (ensures_readSymbol hr htexts x hx).mono hdepth) fun _ hsymbols => .pure ?_
    exact stmtBack_load hspan (isUtf8_textMember hnode "module") hsymbols

theorem ensures_nodeOf : Ensures (nodeOf r node hle) (NodeBack (Json.depthOfMembers node + 2)) := by
  unfold nodeOf
  dsimp only
  split
  · exact (ensures_stmtsMember hr hnode "body").map fun body hbody => moduleBack (fits_readSpan node) hbody
  · split
    · exact (ensures_typeOf hr hnode).map fun _ _ => trivial
    · split
      · next h => exact (ensures_exprOf hr hnode h).map fun _ he => he
      · split
        · next h => exact (ensures_stmtOf hr hnode h).map fun _ hx => hx
        · exact .error _

end Readings

/-- Whatever is read from an object reads back. The induction is on the size of the object. -/
theorem sound_readers (top : Members) : (readers top).Sound := by
  obtain ⟨n, hn⟩ : ∃ n, sizeOf top = n := ⟨_, rfl⟩
  induction n using Nat.strongRecOn generalizing top with
  | ind n ih =>
      subst hn
      refine ⟨fun {inner} h htexts => ?_, fun {inner} h htexts => ?_⟩
      · show Ensures (readNode inner) _
        rw [readNode_eq]
        exact ensures_nodeOf (ih _ h inner rfl) htexts
      · show Ensures (readType inner) _
        rw [readType_eq]
        exact ensures_typeOf (ih _ h inner rfl) htexts

end Tree

namespace Module

open Gradual.Tree

theorem moduleBack_of_ofJson {j : Json} {m : Module} (htexts : j.AllTexts (·.isUtf8 = true))
    (h : Module.ofJson j = .ok m) : ModuleBack (j.depth + 1) m := by
  cases j with
  | obj node =>
      have hnode : Ensures (readNode node) (NodeBack (Json.depthOfMembers node + 2)) := by
        rw [readNode_eq]
        exact ensures_nodeOf (sound_readers node) htexts
      have hmodule : Ensures ((readNode node).bind Node.toModule) (ModuleBack (Json.depthOfMembers node + 2)) := by
        refine hnode.bind fun n hn => ?_
        cases n with
        | module m => exact .ok hn
        | _ => exact .error _
      exact hmodule m h
  | _ => cases h

theorem exists_of_parse {text : Text} {m : Module} (h : Module.parse text = .ok m) :
    ∃ j, Json.parse .relaxed text = some j ∧ Module.ofJson j = .ok m := by
  rw [Module.parse] at h
  cases hdecode : Json.decode .relaxed Module.ofJson text with
  | error e =>
      rw [hdecode] at h
      cases h
  | ok m' =>
      rw [hdecode] at h
      cases h
      exact Json.exists_of_decode hdecode

theorem toJson_of_ofJson {text : Text} {j : Json} {m : Module} (hj : Json.parse .relaxed text = some j)
    (h : Module.ofJson j = .ok m) (hfloat : m.hasFloat = false) :
    m.toJson.Fits (j.depth + 1) ∧ ∀ t, Json.parse .relaxed t = some m.toJson →
      Module.parse t = if m.toJson.isTooDeep then .error .tooDeep else .ok m := by
  obtain ⟨node, hwrite, hfits, hread⟩ := moduleBack_of_ofJson (Json.allTexts_parse hj) h hfloat
  have hjson : m.toJson = .obj node := Option.some.inj hwrite
  have hof : Module.ofJson m.toJson = .ok m := by
    rw [hjson]
    exact hread
  rw [← hjson] at hfits
  refine ⟨hfits, fun t ht => ?_⟩
  rw [Module.parse_of_parse ht, hof]

/-- A module that was read from a text is read back from its own text, compact or indented, unless that is nested
too deep. It is nested at most one level deeper than the text the module was first read from. -/
theorem parse_render_toJson {text : Text} {m : Module} (h : Module.parse text = .ok m) (hfloat : m.hasFloat = false) :
    (∀ escaping, Module.parse (m.toJson.render escaping) =
      if m.toJson.isTooDeep then .error .tooDeep else .ok m) ∧
    (∀ escaping, Module.parse (m.toJson.renderIndented escaping 0 ++ "\n") =
      if m.toJson.isTooDeep then .error .tooDeep else .ok m) ∧
    ∃ j, Json.parse .relaxed text = some j ∧ m.toJson.depth ≤ j.depth + 1 := by
  obtain ⟨j, hj, hof⟩ := exists_of_parse h
  obtain ⟨⟨hwritable, hdepth⟩, hparse⟩ := toJson_of_ofJson hj hof hfloat
  exact ⟨fun escaping => hparse _ (Json.parse_render .relaxed escaping hwritable),
    fun escaping => hparse _ (Json.parse_renderIndented .relaxed escaping hwritable), j, hj, hdepth⟩

/-! ### Trees that are written deeper than they were read

A list without elements may be written without saying so. -/

def nestedLists : Nat → Expr
  | 0 => .list {} []
  | n + 1 => .list {} [nestedLists n]

/-- A module that returns lists inside lists. -/
def nesting (n : Nat) : Module := ⟨{}, [.ret {} (nestedLists n)]⟩

/-- Lists inside lists, the innermost without its elements. -/
def terseLists : Nat → Json.Members
  | 0 => [("type", .str "ListLiteral")]
  | n + 1 => [("type", .str "ListLiteral"), ("elements", .arr [.obj (terseLists n)])]

/-- The members of a module that returns lists inside lists. -/
def terseBody (n : Nat) : Json.Members :=
  [("type", .str "Module"), ("body", .arr [.obj [("type", .str "ReturnStatement"), ("argument", .obj (terseLists n))]])]

def terse (n : Nat) : Json := .obj (terseBody n)

theorem readExpr_terseLists (n : Nat) : readExpr (terseLists n) = .ok (nestedLists n) := by
  induction n with
  | zero =>
      have hread : exprsMember (readers (terseLists 0)) (terseLists 0) (Nat.le_refl _) "elements" = .ok [] := by
        rw [exprsMember, listMember, arrayMember_of_none rfl]
        rfl
      apply readExpr_of_exprOf
      unfold exprOf
      rw [hread]
      rfl
  | succ n ih =>
      have hread : exprsMember (readers (terseLists (n + 1))) (terseLists (n + 1)) (Nat.le_refl _) "elements" =
          .ok [nestedLists n] := by
        have hitems : List.Forall₂ (fun j e => ∃ inner, j = Json.obj inner ∧ readExpr inner = .ok e)
            [.obj (terseLists n)] [nestedLists n] := .cons ⟨_, rfl, ih⟩ .nil
        exact listMember_of_forall₂ rfl hitems
      apply readExpr_of_exprOf
      unfold exprOf
      rw [hread]
      rfl

theorem ofJson_terse (n : Nat) : Module.ofJson (terse n) = .ok (nesting n) := by
  have hstmt : readStmt [("type", .str "ReturnStatement"), ("argument", .obj (terseLists n))] =
      .ok (.ret {} (nestedLists n)) := by
    apply readStmt_of_stmtOf
    obtain ⟨hlt, hobject⟩ := objectMember?_of_obj
      (show Json.memberOf? [("type", .str "ReturnStatement"), ("argument", .obj (terseLists n))] "argument" =
        some (.obj (terseLists n)) from rfl)
    unfold stmtOf
    rw [optionalExpr, hobject]
    exact congrArg (fun run => some (run.map (Stmt.ret {}))) (readExpr_terseLists n)
  have hbody : List.Forall₂ (fun j x => ∃ inner, j = Json.obj inner ∧ readStmt inner = .ok x)
      [.obj [("type", .str "ReturnStatement"), ("argument", .obj (terseLists n))]] [.ret {} (nestedLists n)] :=
    .cons ⟨_, rfl, hstmt⟩ .nil
  have hread : stmtsMember (readers (terseBody n)) (terseBody n) (Nat.le_refl _) "body" =
      .ok [.ret {} (nestedLists n)] :=
    listMember_of_forall₂ rfl hbody
  rw [terse, Module.ofJson, readNode_eq, nodeOf]
  exact congrArg (fun run => (run.map fun body => Node.module ⟨{}, body⟩).bind Node.toModule) hread

theorem writable_terse (n : Nat) : (terse n).Writable := by
  have hkeys : ∀ key ∈ ["type", "elements", "body", "argument", "ListLiteral", "ReturnStatement", "Module"],
      Text.isUtf8 key = true := by decide
  have hlists : ∀ n, (Json.obj (terseLists n)).Writable := by
    intro n
    induction n with
    | zero =>
        refine .obj ?_ ?_
        · exact List.forall_mem_singleton.mpr (hkeys "type" (by simp))
        · exact List.forall_mem_singleton.mpr (.str (hkeys "ListLiteral" (by simp)))
    | succ n ih =>
        refine .obj ?_ ?_
        · simp only [terseLists, List.forall_mem_cons]
          exact ⟨hkeys "type" (by simp), hkeys "elements" (by simp), List.forall_mem_nil _⟩
        · simp only [terseLists, List.forall_mem_cons]
          exact ⟨.str (hkeys "ListLiteral" (by simp)), .arr (List.forall_mem_singleton.mpr ih), List.forall_mem_nil _⟩
  have hret : (Json.obj [("type", .str "ReturnStatement"), ("argument", .obj (terseLists n))]).Writable := by
    refine .obj ?_ ?_
    · simp only [List.forall_mem_cons]
      exact ⟨hkeys "type" (by simp), hkeys "argument" (by simp), List.forall_mem_nil _⟩
    · simp only [List.forall_mem_cons]
      exact ⟨.str (hkeys "ReturnStatement" (by simp)), hlists n, List.forall_mem_nil _⟩
  refine .obj ?_ ?_
  · simp only [terseBody, List.forall_mem_cons]
    exact ⟨hkeys "type" (by simp), hkeys "body" (by simp), List.forall_mem_nil _⟩
  · simp only [terseBody, List.forall_mem_cons]
    exact ⟨.str (hkeys "Module" (by simp)), .arr (List.forall_mem_singleton.mpr hret), List.forall_mem_nil _⟩

theorem depth_terse (n : Nat) : (terse n).depth = 2 * n + 4 := by
  have hlists : ∀ n, (Json.obj (terseLists n)).depth = 2 * n + 1 := by
    intro n
    induction n with
    | zero => rfl
    | succ n ih =>
        rw [terseLists]
        simp only [Json.depth, Json.depthOfMembers, Json.depthOfItems] at ih ⊢
        omega
  have h := hlists n
  simp only [terse, terseBody, Json.depth, Json.depthOfMembers, Json.depthOfItems] at h ⊢
  omega

theorem depth_toJson_nesting (n : Nat) : (nesting n).toJson.depth = 2 * n + 5 := by
  have hlists : ∀ n, ∃ j, TreeStyle.standard.expr (nestedLists n) = some j ∧ j.depth = 2 * n + 2 := by
    intro n
    induction n with
    | zero => exact ⟨_, rfl, rfl⟩
    | succ n ih =>
        obtain ⟨j, hj, hdepth⟩ := ih
        refine ⟨.obj [("type", .str "ListLiteral"), ("elements", .arr [j])], ?_, ?_⟩
        · show some (Json.obj [("type", .str "ListLiteral"),
            ("elements", .arr [(TreeStyle.standard.expr (nestedLists n)).getD .null])]) = _
          rw [hj]
          rfl
        · simp only [Json.depth, Json.depthOfMembers, Json.depthOfItems]
          omega
  obtain ⟨j, hj, hdepth⟩ := hlists n
  have hjson : (nesting n).toJson = .obj [("type", .str "Module"),
      ("body", .arr [.obj [("type", .str "ReturnStatement"), ("argument", j)]])] := by
    have hret : TreeStyle.standard.stmt (.ret {} (nestedLists n)) =
        some (.obj [("type", .str "ReturnStatement"), ("argument", j)]) := by
      rw [TreeStyle.stmt, hj]
      rfl
    rw [Module.toJson, TreeStyle.tree, nesting, TreeStyle.stmts, hret]
    rfl
  simp only [hjson, Json.depth, Json.depthOfMembers, Json.depthOfItems]
  omega

theorem hasFloat_nesting (n : Nat) : (nesting n).hasFloat = false := by
  have hlists : ∀ n, isMarked (TreeStyle.floats.expr (nestedLists n)) = false := by
    intro n
    induction n with
    | zero => rfl
    | succ n ih =>
        simpa [nestedLists, TreeStyle.expr, TreeStyle.exprs, TreeStyle.floats, isMarked, TreePart.hasFloat] using ih
  simpa [hasFloat, nesting, TreeStyle.tree, TreeStyle.stmts, TreeStyle.stmt, TreeStyle.floats, isMarked,
    TreePart.hasFloat] using hlists n

theorem parse_terse {n : Nat} (h : 2 * n + 4 ≤ Json.greatestDepth) :
    Module.parse ((terse n).render .plain) = .ok (nesting n) := by
  have hdepth : (terse n).isTooDeep = false := by
    rw [Json.isTooDeep, depth_terse]
    simpa using h
  rw [Module.parse_of_parse (Json.parse_render .relaxed .plain (writable_terse n)), hdepth]
  exact ofJson_terse n

theorem parse_render_toJson_nesting : Module.parse ((terse 2).render .plain) = .ok (nesting 2) ∧
    ∀ escaping, Module.parse ((nesting 2).toJson.render escaping) = .ok (nesting 2) := by
  have hread := parse_terse (n := 2) (by decide)
  refine ⟨hread, fun escaping => ?_⟩
  have hback := (parse_render_toJson hread (hasFloat_nesting 2)).1 escaping
  rwa [if_neg (by rw [Json.isTooDeep, depth_toJson_nesting]; decide)] at hback

/-- A module that is read from a text at the limit of depth, and cannot be read from its own text. -/
theorem exists_written_too_deep : ∃ (text : Text) (m : Module), Module.parse text = .ok m ∧ m.hasFloat = false ∧
    ∀ escaping, Module.parse (m.toJson.render escaping) = .error .tooDeep := by
  have hparse := Json.parse_render .relaxed .plain (writable_terse 4998)
  obtain ⟨⟨hwritable, -⟩, hback⟩ := toJson_of_ofJson hparse (ofJson_terse 4998) (hasFloat_nesting 4998)
  refine ⟨_, nesting 4998, parse_terse (by decide), hasFloat_nesting 4998, fun escaping => ?_⟩
  rw [hback _ (Json.parse_render .relaxed escaping hwritable), Json.isTooDeep, depth_toJson_nesting]
  rfl

end Module

end Gradual
