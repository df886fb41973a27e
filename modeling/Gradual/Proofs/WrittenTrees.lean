import Gradual.Proofs.JsonLayouts
import Gradual.Syntax.Decode
import Gradual.Syntax.Encode
import Mathlib.Data.List.Nodup

/-! Syntax trees as they are written. A node in the standard style holds its form, its place and its parts under
their keys, and the reader of each form finds them there: whatever is made of things that read back reads back.
How deep a written node is nested is kept track of on the way. -/

namespace Gradual

/-! ### Trees without floating-point numbers -/

/-- Whether the mark that a tree leaves tells of a floating-point number. -/
def isMarked : Option Json → Bool
  | some (.bool b) => b
  | _ => false

/-- Whether a part is or holds a floating-point number, if marks stand for the children. -/
def TreePart.hasFloat : TreePart → Bool
  | .float _ => true
  | .child j => isMarked j
  | .children js | .optionalChildren js => js.any isMarked
  | _ => false

/-- The style that writes nothing of a tree but a mark: whether there is a floating-point number in it. -/
def TreeStyle.floats : TreeStyle where
  node _ _ parts := .bool (parts.any fun p => p.2.hasFloat)

def Module.hasFloat (m : Module) : Bool :=
  isMarked (some (TreeStyle.floats.tree m))

namespace TreeStyle

variable (s : TreeStyle)

theorem types_eq_map (ts : List TypeExpr) : s.types ts = ts.map s.type := by
  induction ts with
  | nil => rfl
  | cons t ts ih => rw [types, ih, List.map_cons]

theorem exprs_eq_map (es : List Expr) : s.exprs es = es.map s.expr := by
  induction es with
  | nil => rfl
  | cons e es ih => rw [exprs, ih, List.map_cons]

theorem entries_eq_map (es : List DictEntry) : s.entries es = es.map s.entry := by
  induction es with
  | nil => rfl
  | cons e es ih => rw [entries, ih, List.map_cons]

theorem fields_eq_map (fs : List FieldExpr) : s.fields fs = fs.map s.field := by
  induction fs with
  | nil => rfl
  | cons f fs ih => rw [fields, ih, List.map_cons]

theorem args_eq_map (as : List ArgExpr) : s.args as = as.map s.arg := by
  induction as with
  | nil => rfl
  | cons a as ih => rw [args, ih, List.map_cons]

theorem params_eq_map (ps : List ParamDecl) : s.params ps = ps.map s.param := by
  induction ps with
  | nil => rfl
  | cons p ps ih => rw [params, ih, List.map_cons]

theorem clauses_eq_map (cs : List Clause) : s.clauses cs = cs.map s.clause := by
  induction cs with
  | nil => rfl
  | cons c cs ih => rw [clauses, ih, List.map_cons]

theorem stmts_eq_map (ss : List Stmt) : s.stmts ss = ss.map s.stmt := by
  induction ss with
  | nil => rfl
  | cons first ss ih => rw [stmts, ih, List.map_cons]

end TreeStyle

/-! ### Places -/

/-- An integer of 64 bits. -/
def Decimal.IsInt64 (n : Int) : Prop := minInt ≤ n ∧ n ≤ maxInt

theorem Decimal.readInt_toString_of_isInt64 {n : Int} (h : IsInt64 n) : readInt (toString n) = .value n := by
  rw [Json.readInt_toString, clamp, if_neg (by have := h.1; omega), if_neg (by have := h.2; omega)]

theorem Decimal.isInt64_of_clamp {n m : Int} (h : clamp n = .value m ∨ clamp n = .range m) : IsInt64 m := by
  unfold clamp at h
  unfold IsInt64
  have hrange : minInt ≤ maxInt := by decide
  split at h
  · simp only [reduceCtorEq, Reading.range.injEq, false_or] at h
    omega
  · split at h
    · simp only [reduceCtorEq, Reading.range.injEq, false_or] at h
      omega
    · simp only [Reading.value.injEq, reduceCtorEq, or_false] at h
      omega

theorem Decimal.isInt64_of_readInt {t : Text} {n : Int} (h : readInt t = .value n ∨ readInt t = .range n) :
    IsInt64 n := by
  unfold readInt at h
  split at h
  · simp at h
  · split at h
    · exact isInt64_of_clamp h
    · simp at h

theorem Decimal.isInt64_intOrZero (t : Text) : IsInt64 (intOrZero t) := by
  unfold intOrZero
  split
  · next h => exact isInt64_of_readInt (Or.inl h)
  · next h => exact isInt64_of_readInt (Or.inr h)
  · exact ⟨by decide, by decide⟩

/-- A value that can be written, and is nested no deeper than `d`. -/
def Json.Fits (d : Nat) (j : Json) : Prop := j.Writable ∧ j.depth ≤ d

theorem Json.Fits.mono {d d' : Nat} {j : Json} (h : j.Fits d) (hd : d ≤ d') : j.Fits d' := ⟨h.1, Nat.le_trans h.2 hd⟩

/-- A place whose numbers have 64 bits, and which, unless it is unknown, leaves room for what it is written as. -/
structure Span.Fits (d : Nat) (span : Span) : Prop where
  startLine : Decimal.IsInt64 span.start.line
  startColumn : Decimal.IsInt64 span.start.column
  stopLine : Decimal.IsInt64 span.stop.line
  stopColumn : Decimal.IsInt64 span.stop.column
  room : span.isNone = true ∨ 2 ≤ d

theorem Span.fits_none (d : Nat) : Span.Fits d {} where
  startLine := ⟨by decide, by decide⟩
  startColumn := ⟨by decide, by decide⟩
  stopLine := ⟨by decide, by decide⟩
  stopColumn := ⟨by decide, by decide⟩
  room := Or.inl rfl

/-- A part that can be written, and is nested no deeper than `d`. -/
def TreePart.Fits (d : Nat) : TreePart → Prop
  | .text t | .optionalText t => t.isUtf8 = true
  | .int _ | .bool _ => True
  | .float _ => False
  | .child j => ∀ x ∈ j, x.Fits d
  | .children js | .optionalChildren js => 1 ≤ d ∧ ∀ j ∈ js, ∀ x ∈ j, x.Fits (d - 1)

namespace Json

theorem depthOfItems_le {js : List Json} {d : Nat} (h : ∀ j ∈ js, j.depth ≤ d) : depthOfItems js ≤ d := by
  induction js with
  | nil => exact Nat.zero_le d
  | cons j js ih =>
      obtain ⟨hj, hjs⟩ := List.forall_mem_cons.mp h
      exact Nat.max_le.mpr ⟨hj, ih hjs⟩

theorem depthOfMembers_le {ms : List (Text × Json)} {d : Nat} (h : ∀ m ∈ ms, m.2.depth ≤ d) :
    depthOfMembers ms ≤ d := by
  induction ms with
  | nil => exact Nat.zero_le d
  | cons m ms ih =>
      obtain ⟨hm, hms⟩ := List.forall_mem_cons.mp h
      exact Nat.max_le.mpr ⟨hm, ih hms⟩

theorem fits_array {js : List (Option Json)} {d : Nat} (h : ∀ j ∈ js, ∀ x ∈ j, x.Fits d) :
    (TreeStyle.array js).Fits (d + 1) := by
  have hitem : ∀ j ∈ js.map (·.getD .null), j.Fits d := by
    simp only [List.mem_map]
    rintro _ ⟨j, hj, rfl⟩
    cases j with
    | none => exact ⟨.null, Nat.zero_le d⟩
    | some x => exact h _ hj x rfl
  exact ⟨.arr fun j hj => (hitem j hj).1, Nat.succ_le_succ (depthOfItems_le fun j hj => (hitem j hj).2)⟩

end Json

theorem TreePart.Fits.standard {d : Nat} {part : TreePart} (h : part.Fits d) {j : Json}
    (hj : TreeStyle.standardPart part = some j) : j.Fits d := by
  have harray : ∀ {js : List (Option Json)}, 1 ≤ d ∧ (∀ j ∈ js, ∀ x ∈ j, x.Fits (d - 1)) →
      (TreeStyle.array js).Fits d := by
    rintro js ⟨hd, hjs⟩
    have hfits := Json.fits_array hjs
    rwa [Nat.sub_add_cancel hd] at hfits
  cases part with
  | text t =>
      cases hj
      exact ⟨.str h, Nat.zero_le d⟩
  | optionalText t =>
      rw [TreeStyle.standardPart] at hj
      split at hj
      · cases hj
      · cases hj
        exact ⟨.str h, Nat.zero_le d⟩
  | int n =>
      cases hj
      exact ⟨.int n, Nat.zero_le d⟩
  | float bits => cases h
  | bool b =>
      cases hj
      exact ⟨.bool b, Nat.zero_le d⟩
  | child x => exact h j hj
  | children js =>
      cases hj
      exact harray h
  | optionalChildren js =>
      rw [TreeStyle.standardPart] at hj
      split at hj
      · cases hj
      · cases hj
        exact harray h

namespace Tree

open Json (Members memberOf? textMember objectMember? arrayMember)

/-! ### Members of written nodes -/

theorem memberOf?_of_mem {ms : Members} (hkeys : (ms.map (·.1)).Nodup) {key : Text} {j : Json} (h : (key, j) ∈ ms) :
    memberOf? ms key = some j := by
  unfold memberOf?
  cases hfind : ms.reverse.find? (·.1 == key) with
  | none =>
      have hne := List.find?_eq_none.mp hfind (key, j) (List.mem_reverse.mpr h)
      simp at hne
  | some m =>
      have hmem := List.mem_reverse.mp (List.mem_of_find?_eq_some hfind)
      have hkey : m.1 = key := by simpa using List.find?_some hfind
      rw [List.inj_on_of_nodup_map hkeys hmem h hkey]
      rfl

theorem mem_of_memberOf? {ms : Members} {key : Text} {j : Json} (h : memberOf? ms key = some j) : (key, j) ∈ ms := by
  unfold memberOf? at h
  obtain ⟨m, hfind, rfl⟩ := Option.map_eq_some_iff.mp h
  have hkey : m.1 = key := by simpa using List.find?_some hfind
  rw [← hkey]
  exact List.mem_reverse.mp (List.mem_of_find?_eq_some hfind)

theorem memberOf?_eq_none {ms : Members} {key : Text} (h : ∀ j, (key, j) ∉ ms) : memberOf? ms key = none := by
  cases hfind : memberOf? ms key with
  | none => rfl
  | some j => exact absurd (mem_of_memberOf? hfind) (h j)

/-- The members of a node in the standard style. -/
def written (form : Text) (span : Span) (parts : List (Text × TreePart)) : Members :=
  ("type", .str form)
    :: (parts.filterMap fun (key, part) => (TreeStyle.standardPart part).map fun j => (key, j))
    ++ if span.isNone then [] else [("span", span.toJson)]

/-- A form and the keys of its parts, which are told apart from each other and from those that every node has. -/
structure Shape (form : Text) (keys : List Text) : Prop where
  distinct : ("type" :: keys ++ ["span"]).Nodup
  utf8 : ∀ key ∈ form :: keys, key.isUtf8 = true

instance (form : Text) (keys : List Text) : Decidable (Shape form keys) :=
  decidable_of_iff (("type" :: keys ++ ["span"]).Nodup ∧ ∀ key ∈ form :: keys, key.isUtf8 = true)
    ⟨fun h => ⟨h.1, h.2⟩, fun h => ⟨h.distinct, h.utf8⟩⟩

section Written

variable {form : Text} {span : Span} {parts : List (Text × TreePart)} {keys : List Text} {d : Nat}

theorem mem_written_iff {key : Text} {j : Json} :
    (key, j) ∈ written form span parts ↔
      (key = "type" ∧ j = .str form) ∨ (∃ part, (key, part) ∈ parts ∧ TreeStyle.standardPart part = some j) ∨
        (span.isNone = false ∧ key = "span" ∧ j = span.toJson) := by
  have hspan : (key, j) ∈ (if span.isNone then [] else [("span", span.toJson)]) ↔
      span.isNone = false ∧ key = "span" ∧ j = span.toJson := by
    cases span.isNone <;> simp
  simp only [written, List.cons_append, List.mem_cons, List.mem_append, List.mem_filterMap, hspan, Prod.mk.injEq,
    Option.map_eq_some_iff, Prod.exists]
  refine or_congr_right (or_congr_left ⟨?_, ?_⟩)
  · rintro ⟨_, part, hmem, _, hj, rfl, rfl⟩
    exact ⟨part, hmem, hj⟩
  · rintro ⟨part, hmem, hj⟩
    exact ⟨key, part, hmem, j, hj, rfl, rfl⟩

theorem keys_written_sublist :
    ((written form span parts).map (·.1)).Sublist ("type" :: parts.map (·.1) ++ ["span"]) := by
  have hparts : ((parts.filterMap fun (key, part) => (TreeStyle.standardPart part).map fun j => (key, j)).map
      (·.1)).Sublist (parts.map (·.1)) := by
    induction parts with
    | nil => exact .slnil
    | cons p parts ih =>
        rw [List.map_cons, List.filterMap_cons]
        split
        · exact ih.cons p.1
        · next m hm =>
          obtain ⟨j, -, rfl⟩ := Option.map_eq_some_iff.mp hm
          exact ih.cons_cons p.1
  have hspan : ((if span.isNone then [] else [("span", span.toJson)] : Members).map (·.1)).Sublist ["span"] := by
    split
    · exact List.nil_sublist _
    · exact List.Sublist.refl _
  rw [written, List.map_append, List.map_cons]
  exact (hparts.cons_cons "type").append hspan

theorem fits_written (hshape : Shape form keys) (hkeys : parts.map (·.1) = keys) (hspan : span.Fits d)
    (hparts : ∀ p ∈ parts, p.2.Fits d) : (Json.obj (written form span parts)).Fits (d + 1) := by
  have hposition : ∀ p : Position, p.toJson.Fits 1 := by
    intro p
    refine ⟨.obj ?_ ?_, Nat.le_refl 1⟩
    · simp only [List.forall_mem_cons]
      exact ⟨by decide, by decide, List.forall_mem_nil _⟩
    · simp only [List.forall_mem_cons]
      exact ⟨.int _, .int _, List.forall_mem_nil _⟩
  have hplace : span.toJson.Fits 2 := by
    refine ⟨.obj ?_ ?_, Nat.le_refl 2⟩
    · simp only [List.forall_mem_cons]
      exact ⟨by decide, by decide, List.forall_mem_nil _⟩
    · simp only [List.forall_mem_cons]
      exact ⟨(hposition _).1, (hposition _).1, List.forall_mem_nil _⟩
  have htype : Text.isUtf8 "type" = true := by decide
  have hspankey : Text.isUtf8 "span" = true := by decide
  have hmember : ∀ m ∈ written form span parts, m.1.isUtf8 = true ∧ m.2.Fits d := by
    rintro ⟨key, j⟩ hm
    rcases mem_written_iff.mp hm with ⟨rfl, rfl⟩ | ⟨part, hpart, hj⟩ | ⟨hsome, rfl, rfl⟩
    · exact ⟨htype, .str (hshape.utf8 form List.mem_cons_self), Nat.zero_le d⟩
    · have hkey : key ∈ keys := hkeys ▸ List.mem_map_of_mem hpart
      exact ⟨hshape.utf8 key (List.mem_cons_of_mem form hkey), (hparts _ hpart).standard hj⟩
    · rcases hspan.room with hnone | hd
      · rw [hnone] at hsome
        cases hsome
      · exact ⟨hspankey, hplace.mono hd⟩
  exact ⟨.obj (fun m hm => (hmember m hm).1) fun m hm => (hmember m hm).2.1,
    Nat.succ_le_succ (Json.depthOfMembers_le fun m hm => (hmember m hm).2.2)⟩

/-- An object tells a form and a place, and holds given parts. -/
structure Holds (node : Members) (form : Text) (span : Span) (parts : List (Text × TreePart)) : Prop where
  form : textMember node "type" = form
  span : readSpan node = span
  part : ∀ {key : Text} {part : TreePart}, (key, part) ∈ parts → memberOf? node key = TreeStyle.standardPart part

theorem intMember_position {p : Position} (hline : Decimal.IsInt64 p.line) (hcolumn : Decimal.IsInt64 p.column) :
    (⟨intMember [("line", .int p.line), ("column", .int p.column)] "line",
      intMember [("line", .int p.line), ("column", .int p.column)] "column"⟩ : Position) = p := by
  have hline : intMember [("line", .int p.line), ("column", .int p.column)] "line" = p.line := by
    show Decimal.intOrZero (toString p.line) = p.line
    rw [Decimal.intOrZero, Decimal.readInt_toString_of_isInt64 hline]
  have hcolumn : intMember [("line", .int p.line), ("column", .int p.column)] "column" = p.column := by
    show Decimal.intOrZero (toString p.column) = p.column
    rw [Decimal.intOrZero, Decimal.readInt_toString_of_isInt64 hcolumn]
  rw [hline, hcolumn]

theorem holds_written (hshape : Shape form keys) (hkeys : parts.map (·.1) = keys) (hspan : span.Fits d) :
    Holds (written form span parts) form span parts := by
  have hall : ("type" :: parts.map (·.1) ++ ["span"]).Nodup := hkeys ▸ hshape.distinct
  have hnodup : ((written form span parts).map (·.1)).Nodup := hall.sublist keys_written_sublist
  obtain ⟨htype, hrest⟩ := List.nodup_cons.mp hall
  obtain ⟨hparts, -, hapart⟩ := List.nodup_append.mp hrest
  refine ⟨?_, ?_, ?_⟩
  · rw [textMember, memberOf?_of_mem hnodup (mem_written_iff.mpr (Or.inl ⟨rfl, rfl⟩))]
    rfl
  · cases hnone : span.isNone with
    | true =>
        have habsent : ∀ j, ("span", j) ∉ written form span parts := by
          intro j hj
          rcases mem_written_iff.mp hj with ⟨hkey, -⟩ | ⟨part, hpart, -⟩ | ⟨hsome, -⟩
          · exact absurd hkey (by decide)
          · exact hapart "span" (List.mem_map_of_mem hpart) "span" List.mem_cons_self rfl
          · exact absurd hnone (Bool.eq_false_iff.mp hsome)
        rw [readSpan, memberOf?_eq_none habsent]
        exact (of_decide_eq_true hnone).symm
    | false =>
        rw [readSpan, memberOf?_of_mem hnodup (mem_written_iff.mpr (Or.inr (Or.inr ⟨hnone, rfl, rfl⟩)))]
        exact congrArg₂ Span.mk (intMember_position hspan.startLine hspan.startColumn)
          (intMember_position hspan.stopLine hspan.stopColumn)
  · intro key part hpart
    have hkey := List.mem_map_of_mem (f := (·.1)) hpart
    cases hj : TreeStyle.standardPart part with
    | some j => exact memberOf?_of_mem hnodup (mem_written_iff.mpr (Or.inr (Or.inl ⟨part, hpart, hj⟩)))
    | none =>
        refine memberOf?_eq_none fun j hmem => ?_
        rcases mem_written_iff.mp hmem with ⟨rfl, -⟩ | ⟨part', hpart', hj'⟩ | ⟨-, rfl, -⟩
        · exact htype (List.mem_append_left _ hkey)
        · have hsame := List.inj_on_of_nodup_map hparts hpart hpart' rfl
          rw [(Prod.mk.inj hsame).2, hj'] at hj
          cases hj
        · exact hapart "span" hkey "span" List.mem_cons_self rfl

end Written

/-! ### What reads back -/

/-- The readers that nodes are read with. -/
@[reducible] def readers (top : Members) : Readers top :=
  ⟨fun inner _ => readNode inner, fun inner _ => readType inner⟩

theorem readNode_eq (node : Members) : readNode node = nodeOf (readers node) node (Nat.le_refl _) := by
  rw [readNode]

theorem readType_eq (node : Members) : readType node = typeOf (readers node) node (Nat.le_refl _) := by
  rw [readType]

/-- If there is no floating-point number in it, something is written as an object nested no deeper than `d`, and
is read back from that. -/
def ReadsBack {α : Type} (write : TreeStyle → α → Option Json) (read : Members → Except TreeError α) (d : Nat)
    (a : α) : Prop :=
  isMarked (write .floats a) = false →
    ∃ node, write .standard a = some (.obj node) ∧ (Json.obj node).Fits d ∧ read node = .ok a

def readExpr (node : Members) : Except TreeError Expr := (readNode node).bind Node.toExpr

def readStmt (node : Members) : Except TreeError Stmt := (readNode node).bind Node.toStmt

def readIdent (node : Members) : Except TreeError Ident := (readNode node).bind Node.toIdent

def readModule (node : Members) : Except TreeError Module := (readNode node).bind Node.toModule

abbrev ModuleBack : Nat → Module → Prop := ReadsBack (fun s m => some (s.tree m)) readModule

abbrev ExprBack : Nat → Expr → Prop := ReadsBack TreeStyle.expr readExpr

abbrev StmtBack : Nat → Stmt → Prop := ReadsBack TreeStyle.stmt readStmt

abbrev TypeBack : Nat → TypeExpr → Prop := ReadsBack TreeStyle.type readType

abbrev IdentBack : Nat → Ident → Prop := ReadsBack (fun s id => some (s.ident id)) readIdent

/-- A node is no larger than itself, which is what its own readers ask. -/
theorem sizeOf_le_self (node : Members) : sizeOf node ≤ sizeOf node := Nat.le_refl _

abbrev EntryBack : Nat → DictEntry → Prop :=
  ReadsBack TreeStyle.entry fun node => readEntry (readers node) node (sizeOf_le_self node)

abbrev FieldBack : Nat → FieldExpr → Prop :=
  ReadsBack TreeStyle.field fun node => readField (readers node) node (sizeOf_le_self node)

abbrev ArgBack : Nat → ArgExpr → Prop :=
  ReadsBack TreeStyle.arg fun node => readArg (readers node) node (sizeOf_le_self node)

abbrev ParamBack : Nat → ParamDecl → Prop :=
  ReadsBack TreeStyle.param fun node => readParam (readers node) node (sizeOf_le_self node)

abbrev ClauseBack : Nat → Clause → Prop :=
  ReadsBack TreeStyle.clause fun node => readClause (readers node) node (sizeOf_le_self node)

abbrev SymbolBack : Nat → LoadSymbol → Prop :=
  ReadsBack TreeStyle.symbol fun node => readSymbol (readers node) node (sizeOf_le_self node)

section ReadsBack

variable {α : Type} {write : TreeStyle → α → Option Json} {read : Members → Except TreeError α} {d : Nat} {a : α}

theorem ReadsBack.mono (h : ReadsBack write read d a) {d' : Nat} (hd : d ≤ d') : ReadsBack write read d' a := by
  intro hfloat
  obtain ⟨node, hwrite, hfits, hread⟩ := h hfloat
  exact ⟨node, hwrite, hfits.mono hd, hread⟩

/-- A node reads back if its parts can be written and its reader, finding them, gives the node. -/
theorem ReadsBack.node {form : Text} {span : Span} {keys : List Text} {parts : TreeStyle → List (Text × TreePart)}
    (hwrite : ∀ s, write s a = some (s.node form span (parts s))) (hshape : Shape form keys)
    (hkeys : (parts .standard).map (·.1) = keys) (hspan : span.Fits d)
    (h : (parts .floats).Forall (·.2.hasFloat = false) → (parts .standard).Forall (·.2.Fits d) ∧
      ∀ node, Holds node form span (parts .standard) → read node = .ok a) :
    ReadsBack write read (d + 1) a := by
  intro hfloat
  rw [hwrite .floats] at hfloat
  obtain ⟨hparts, hread⟩ := h (by simpa [TreeStyle.floats, isMarked, List.forall_iff_forall_mem] using hfloat)
  exact ⟨written form span (parts .standard), hwrite .standard,
    fits_written hshape hkeys hspan (List.forall_iff_forall_mem.mp hparts), hread _ (holds_written hshape hkeys hspan)⟩

theorem ReadsBack.child_fits (h : ReadsBack write read d a) (hfloat : isMarked (write .floats a) = false) :
    (TreePart.child (write .standard a)).Fits d := by
  obtain ⟨node, hwrite, hfits, -⟩ := h hfloat
  rintro x hx
  rw [hwrite] at hx
  cases hx
  exact hfits

theorem ReadsBack.children_fits {as : List α} (h : ∀ a ∈ as, ReadsBack write read d a)
    (hfloat : (as.map (write .floats)).any isMarked = false) :
    (TreePart.children (as.map (write .standard))).Fits (d + 1) := by
  refine ⟨Nat.succ_pos d, fun j hj => ?_⟩
  obtain ⟨a, ha, rfl⟩ := List.mem_map.mp hj
  exact (h a ha).child_fits (by simp at hfloat; exact hfloat a ha)

end ReadsBack

/-! ### Readers of members -/

theorem objectMember?_of_obj {node inner : Members} {key : Text} (h : memberOf? node key = some (.obj inner)) :
    ∃ hlt, objectMember? node key = some ⟨inner, hlt⟩ := by
  have hlt : sizeOf inner < sizeOf node := by
    have hlt := Json.sizeOf_memberOf_lt h
    simp only [Json.obj.sizeOf_spec] at hlt
    omega
  refine ⟨hlt, ?_⟩
  unfold objectMember?
  split
  · next inner' h' =>
    rw [h] at h'
    cases h'
    rfl
  · next hne => exact absurd h (hne inner)

theorem objectMember?_of_none {node : Members} {key : Text} (h : memberOf? node key = none) :
    objectMember? node key = none := by
  unfold objectMember?
  split
  · next h' =>
    rw [h] at h'
    cases h'
  · rfl

theorem readNode_of_readExpr {node : Members} {e : Expr} (h : readExpr node = .ok e) :
    readNode node = .ok (.expr e) := by
  unfold readExpr at h
  cases hnode : readNode node with
  | error err => rw [hnode] at h; cases h
  | ok n =>
      rw [hnode] at h
      cases n with
      | expr e' => cases h; rfl
      | _ => cases h

section Members

variable {node : Members} {form : Text} {span : Span} {parts : List (Text × TreePart)} {d : Nat} {top : Members}
  {hle : sizeOf node ≤ sizeOf top} (hnode : Holds node form span parts) (key : Text)
include hnode

theorem Holds.text {t : Text} (h : (key, .text t) ∈ parts) : textMember node key = t := by
  rw [textMember, hnode.part h]
  rfl

theorem Holds.optionalText {t : Text} (h : (key, .optionalText t) ∈ parts) : textMember node key = t := by
  rw [textMember, hnode.part h, TreeStyle.standardPart]
  split
  · next hempty => exact hempty.symm
  · rfl

theorem Holds.nodeMember_eq {α : Type} {into : Node → Except TreeError α} {j : Option Json} {inner : Members}
    (h : (key, .child j) ∈ parts) (hj : j = some (.obj inner)) :
    nodeMember (readers top) node hle key into = (readNode inner).bind into := by
  have hmember := hnode.part h
  rw [hj] at hmember
  obtain ⟨hlt, hobject⟩ := objectMember?_of_obj hmember
  rw [nodeMember, hobject]

theorem Holds.ident {id : Ident} (h : (key, TreeStyle.standard.name id) ∈ parts) (hid : IdentBack d id)
    (hfloat : isMarked (some (TreeStyle.floats.ident id)) = false) :
    identMember (readers top) node hle key = .ok id := by
  obtain ⟨inner, hwrite, -, hread⟩ := hid hfloat
  have hwrite : some (TreeStyle.standard.ident id) = some (.obj inner) := hwrite
  have hmember := hnode.part h
  rw [identMember, hmember, TreeStyle.name, TreeStyle.standardPart, hwrite]
  exact (hnode.nodeMember_eq key h hwrite).trans hread

section Exprs

variable {e : Expr} (h : (key, .child (TreeStyle.standard.expr e)) ∈ parts)
  (hfloat : isMarked (TreeStyle.floats.expr e) = false)
include h hfloat

theorem Holds.expr (he : ExprBack d e) : exprMember (readers top) node hle key = .ok e := by
  obtain ⟨inner, hwrite, -, hread⟩ := he hfloat
  exact (hnode.nodeMember_eq key h hwrite).trans hread

theorem Holds.target (he : ExprBack d e) (htarget : e.isTarget = true) :
    targetMember (readers top) node hle key = .ok e := by
  obtain ⟨inner, hwrite, -, hread⟩ := he hfloat
  have hmember : targetMember (readers top) node hle key = (readNode inner).bind Node.toTarget :=
    hnode.nodeMember_eq key h hwrite
  rw [hmember, readNode_of_readExpr hread]
  exact if_pos htarget

theorem Holds.optionalExpr (he : e = .hole ∨ ExprBack d e) : optionalExpr (readers top) node hle key = .ok e := by
  have hmember := hnode.part h
  rw [Tree.optionalExpr]
  rcases he with rfl | he
  · rw [objectMember?_of_none hmember]
  · obtain ⟨inner, hwrite, -, hread⟩ := he hfloat
    rw [hwrite] at hmember
    obtain ⟨hlt, hobject⟩ := objectMember?_of_obj hmember
    rw [hobject]
    exact hread

theorem Holds.sliceBound (he : e = .hole ∨ ExprBack d e) : sliceBound (readers top) node hle key = .ok e := by
  have hmember := hnode.part h
  rw [Tree.sliceBound]
  rcases he with rfl | he
  · rw [hmember]
    rfl
  · obtain ⟨inner, hwrite, -⟩ := he hfloat
    rw [hwrite] at hmember
    rw [hmember]
    exact hnode.expr key h hfloat he

end Exprs

theorem Holds.optionalType {t : TypeExpr} (h : (key, .child (TreeStyle.standard.type t)) ∈ parts)
    (hfloat : isMarked (TreeStyle.floats.type t) = false) (ht : t = .hole ∨ TypeBack d t) :
    optionalType (readers top) node hle key = .ok t := by
  have hmember := hnode.part h
  rw [Tree.optionalType]
  rcases ht with rfl | ht
  · rw [objectMember?_of_none hmember]
  · obtain ⟨inner, hwrite, -, hread⟩ := ht hfloat
    rw [hwrite] at hmember
    obtain ⟨hlt, hobject⟩ := objectMember?_of_obj hmember
    rw [hobject]
    exact hread

end Members

/-! ### Readers of lists -/

theorem readItems_cons {α : Type} {top : Members} (what : Text)
    (read : (item : Members) → sizeOf item < sizeOf top → Except TreeError α) (item : Members)
    (h : sizeOf (Json.obj item) < sizeOf top) (rest : List { j : Json // sizeOf j < sizeOf top }) :
    readItems what read (⟨.obj item, h⟩ :: rest) = do
      let first ← read item (by simp only [Json.obj.sizeOf_spec] at h; omega)
      return first :: (← readItems what read rest) := rfl

theorem readItems_eq {α : Type} {top : Members} {what : Text} {read : Members → Except TreeError α}
    {items : List { j : Json // sizeOf j < sizeOf top }} {as : List α}
    (h : List.Forall₂ (fun item a => ∃ node, item.val = Json.obj node ∧ read node = .ok a) items as) :
    readItems what (fun node _ => read node) items = .ok as := by
  induction h with
  | nil => rfl
  | @cons item a items as hitem _ ih =>
      obtain ⟨j, hj⟩ := item
      obtain ⟨node, rfl, hread⟩ := hitem
      rw [readItems_cons, hread, ih]
      rfl

theorem map_val_arrayMember {node : Members} {key : Text} {items : List Json}
    (h : memberOf? node key = some (.arr items)) : (arrayMember node key).map (·.val) = items := by
  unfold arrayMember
  split
  · next items' h' =>
    rw [h] at h'
    cases h'
    simp
  · next hne => exact absurd h (hne items)

theorem arrayMember_of_none {node : Members} {key : Text} (h : memberOf? node key = none) :
    arrayMember node key = [] := by
  unfold arrayMember
  split
  · next h' =>
    rw [h] at h'
    cases h'
  · rfl

theorem listMember_of_forall₂ {α : Type} {read : Members → Except TreeError α} {node top : Members}
    {hle : sizeOf node ≤ sizeOf top} {key what : Text} {items : List Json} {as : List α}
    (hmember : memberOf? node key = some (.arr items))
    (h : List.Forall₂ (fun j a => ∃ inner, j = Json.obj inner ∧ read inner = .ok a) items as) :
    listMember node hle key what (fun inner (_ : sizeOf inner < sizeOf top) => read inner) = .ok as := by
  apply readItems_eq
  rw [← map_val_arrayMember hmember, List.forall₂_map_left_iff] at h
  exact List.forall₂_map_left_iff.mpr h

theorem listMember_eq {α : Type} {write : TreeStyle → α → Option Json} {read : Members → Except TreeError α}
    {node top : Members} {hle : sizeOf node ≤ sizeOf top} {key what : Text} {as : List α} {d : Nat}
    (hmember : memberOf? node key = some (TreeStyle.array (as.map (write .standard))))
    (hfloat : (as.map (write .floats)).any isMarked = false) (hback : ∀ a ∈ as, ReadsBack write read d a) :
    listMember node hle key what (fun inner (_ : sizeOf inner < sizeOf top) => read inner) = .ok as := by
  apply listMember_of_forall₂ hmember
  rw [List.map_map, List.forall₂_map_left_iff, List.forall₂_same]
  intro a ha
  obtain ⟨inner, hwrite, -, hread⟩ := hback a ha (by simp at hfloat; exact hfloat a ha)
  exact ⟨inner, by rw [Function.comp_apply, hwrite]; rfl, hread⟩

section Lists

variable {node : Members} {form : Text} {span : Span} {parts : List (Text × TreePart)} {d : Nat} {top : Members}
  {hle : sizeOf node ≤ sizeOf top} (hnode : Holds node form span parts) (key what : Text)
include hnode

theorem Holds.list {α : Type} {write : TreeStyle → α → Option Json} {read : Members → Except TreeError α} {as : List α}
    (h : (key, .children (as.map (write .standard))) ∈ parts) (hfloat : (as.map (write .floats)).any isMarked = false)
    (hback : ∀ a ∈ as, ReadsBack write read d a) :
    listMember node hle key what (fun inner (_ : sizeOf inner < sizeOf top) => read inner) = .ok as :=
  listMember_eq (hnode.part h) hfloat hback

theorem Holds.optionalList {α : Type} {write : TreeStyle → α → Option Json} {read : Members → Except TreeError α}
    {as : List α} (h : (key, .optionalChildren (as.map (write .standard))) ∈ parts)
    (hfloat : (as.map (write .floats)).any isMarked = false) (hback : ∀ a ∈ as, ReadsBack write read d a) :
    listMember node hle key what (fun inner (_ : sizeOf inner < sizeOf top) => read inner) = .ok as := by
  cases as with
  | nil =>
      rw [listMember, arrayMember_of_none (hnode.part h)]
      rfl
  | cons a as => exact listMember_eq (hnode.part h) hfloat hback

theorem Holds.exprs {es : List Expr} (h : (key, .children (es.map TreeStyle.standard.expr)) ∈ parts)
    (hfloat : (es.map TreeStyle.floats.expr).any isMarked = false) (hes : ∀ e ∈ es, ExprBack d e) :
    exprsMember (readers top) node hle key = .ok es :=
  hnode.list key _ h hfloat hes

theorem Holds.types {ts : List TypeExpr} (h : (key, .children (ts.map TreeStyle.standard.type)) ∈ parts)
    (hfloat : (ts.map TreeStyle.floats.type).any isMarked = false) (hts : ∀ t ∈ ts, TypeBack d t) :
    typesMember (readers top) node hle key = .ok ts :=
  hnode.list key _ h hfloat hts

theorem Holds.params {ps : List ParamDecl} (h : (key, .children (ps.map TreeStyle.standard.param)) ∈ parts)
    (hfloat : (ps.map TreeStyle.floats.param).any isMarked = false) (hps : ∀ p ∈ ps, ParamBack d p) :
    paramsMember (readers top) node hle key = .ok ps :=
  hnode.list key _ h hfloat hps

theorem Holds.clauses {cs : List Clause} (h : (key, .children (cs.map TreeStyle.standard.clause)) ∈ parts)
    (hfloat : (cs.map TreeStyle.floats.clause).any isMarked = false) (hcs : ∀ c ∈ cs, ClauseBack d c) :
    clausesMember (readers top) node hle key = .ok cs :=
  hnode.list key _ h hfloat hcs

theorem Holds.stmts {ss : List Stmt} (h : (key, .children (ss.map TreeStyle.standard.stmt)) ∈ parts)
    (hfloat : (ss.map TreeStyle.floats.stmt).any isMarked = false) (hss : ∀ x ∈ ss, StmtBack d x) :
    stmtsMember (readers top) node hle key = .ok ss :=
  hnode.list key _ h hfloat hss

end Lists

end Tree

end Gradual
