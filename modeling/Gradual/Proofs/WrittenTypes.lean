import Gradual.Check.Annotation
import Gradual.Proofs.Refinement
import Gradual.Proofs.TypeGrammar
import Gradual.Proofs.UnionAlgebra

/-! Two ways to write a type. A tree of names, bracketed arguments and unions denotes a type, and so does a text. The
usual text of a tree denotes the type that the tree denotes. A text has no groups, so that the members of a union
inside a union stand beside those of the outer one; and what is an ellipsis is told from the tree in one case, and from
the first three characters of an argument in the other. -/

namespace Gradual

/-! ### Texts that go on -/

namespace TypeText

variable {u v : List Token} {x y : List Char}

/-- A text spells tokens, whatever comes after it that cannot be a part of a name. -/
def SpellsBefore (tokens : List Token) (x : List Char) : Prop :=
  ∀ (r : List Char) (after : List Token), Text.Follows (fun c => !isNameChar c) r → Spells after r →
    Spells (tokens ++ after) (x ++ r)

/-- The tokens that cannot be a part of a name. -/
def Token.isMark : Token → Bool
  | .bar | .opening | .closing | .comma => true
  | _ => false

theorem spells_blanks {blanks s : List Char} (hblanks : ∀ c ∈ blanks, Text.isLatinSpace c = true) (h : Spells u s) :
    Spells u (blanks ++ s) := by
  cases h with
  | nil h => exact .nil (List.forall_mem_append.mpr ⟨hblanks, h⟩)
  | cons h hends hrest =>
      rw [← List.append_assoc]
      exact .cons (List.forall_mem_append.mpr ⟨hblanks, h⟩) hends hrest

theorem spellsBefore_nil : SpellsBefore [] [] := fun _ _ _ h => h

theorem spells_token {token : Token} {s : List Char} (hends : token.EndsBefore s) (h : Spells u s) :
    Spells (token :: u) (token.chars ++ s) := by
  rw [← List.nil_append (token.chars ++ s)]
  exact .cons (List.forall_mem_nil _) hends h

theorem spellsBefore_name (n : List Char) : SpellsBefore [.name n] n := fun _ _ hr h => spells_token hr h

theorem spellsBefore_ellipsis : SpellsBefore [.ellipsis] "...".toList := fun _ _ _ h => spells_token trivial h

theorem follows_mark {token : Token} (htoken : token.isMark = true) {blanks : List Char}
    (hblanks : ∀ c ∈ blanks, Text.isLatinSpace c = true) (r : List Char) :
    Text.Follows (fun c => !isNameChar c) (blanks ++ (token.chars ++ r)) := by
  cases blanks with
  | nil =>
      cases token with
      | bar | opening | closing | comma => exact Text.follows_cons rfl
      | _ => cases htoken
  | cons c blanks =>
      refine Text.follows_cons ?_
      rw [Bool.not_eq_true', Bool.eq_false_iff]
      intro hname
      have hspace := not_isLatinSpace_of_isNameChar hname
      rw [hblanks c List.mem_cons_self] at hspace
      cases hspace

theorem SpellsBefore.mark (hx : SpellsBefore u x) (hy : SpellsBefore v y) (token : Token)
    (htoken : token.isMark = true) {left right : List Char} (hleft : ∀ c ∈ left, Text.isLatinSpace c = true)
    (hright : ∀ c ∈ right, Text.isLatinSpace c = true) :
    SpellsBefore (u ++ token :: v) (x ++ (left ++ (token.chars ++ (right ++ y)))) := by
  intro r after hr h
  have hends : ∀ s, token.EndsBefore s := by
    intro s
    cases token with
    | bar | opening | closing | comma => trivial
    | _ => cases htoken
  have hrest : Spells (v ++ after) (right ++ (y ++ r)) := spells_blanks hright (hy r after hr h)
  have hmark : Spells (token :: (v ++ after)) (left ++ (token.chars ++ (right ++ (y ++ r)))) :=
    .cons hleft (hends _) hrest
  simpa only [List.append_assoc, List.cons_append] using hx _ _ (follows_mark htoken hleft _) hmark

/-! ### Terms and arguments -/

theorem Derives.append_furtherTerms {ts us : List Ty} (ht : Derives (.furtherTerms ts) u)
    (hu : Derives (.furtherTerms us) v) : Derives (.furtherTerms (ts ++ us)) (u ++ v) := by
  induction ts generalizing u with
  | nil =>
      cases ht with
      | noTerm => exact hu
  | cons t ts ih =>
      cases ht with
      | furtherTerm hterm hfurther =>
          simp only [List.cons_append, List.append_assoc]
          exact .furtherTerm hterm (ih hfurther)

/-- A text holds terms that denote `ts`, with bars between them, and does not begin with three dots. -/
def HoldsTerms (ts : List Ty) (x : List Char) : Prop :=
  ∃ tokens, Derives (.furtherTerms ts) (.bar :: tokens) ∧
    (∀ n rest, tokens = .name n :: rest → ¬['.', '.', '.'] <+: n) ∧ SpellsBefore tokens x

/-- A text holds an argument. -/
def HoldsArg (a : Option Ty) (x : List Char) : Prop := ∃ tokens, Derives (.arg a) tokens ∧ SpellsBefore tokens x

/-- A text holds arguments with commas between them. -/
def HoldsArgs (as : List (Option Ty)) (x : List Char) : Prop :=
  ∃ tokens, Derives (.furtherArgs as) (.comma :: tokens) ∧ SpellsBefore tokens x

theorem holdsTerms_name {n : List Char} (hname : IsName n) (hdots : ¬['.', '.', '.'] <+: n) :
    HoldsTerms [Ty.ofName (String.ofList n) [] false] n := by
  refine ⟨[.name n], .furtherTerm (.name hname) .noTerm, ?_, spellsBefore_name n⟩
  rintro m rest ⟨⟩
  exact hdots

theorem holdsTerms_bracketed {n : List Char} (hname : IsName n) (hdots : ¬['.', '.', '.'] <+: n)
    {as : List (Option Ty)} (h : HoldsArgs as x) :
    HoldsTerms [Ty.ofName (String.ofList n) (as.filterMap id) (as.any (·.isNone))] (n ++ ('[' :: (x ++ [']']))) := by
  obtain ⟨tokens, hderives, hspells⟩ := h
  cases hderives with
  | @furtherArg a as u v harg hfurther =>
      have hblank : ∀ c ∈ ([] : List Char), Text.isLatinSpace c = true := List.forall_mem_nil _
      refine ⟨_, .furtherTerm (.bracketed hname harg hfurther) .noTerm, ?_, ?_⟩
      · rintro m rest ⟨⟩
        exact hdots
      · have hclosed := hspells.mark spellsBefore_nil .closing rfl hblank hblank
        have hopened := (spellsBefore_name n).mark hclosed .opening rfl hblank hblank
        simpa [Token.chars] using hopened

theorem HoldsTerms.bar {ts us : List Ty} (hx : HoldsTerms ts x) (hy : HoldsTerms us y) :
    HoldsTerms (ts ++ us) (x ++ (" | ".toList ++ y)) := by
  obtain ⟨u, hu, hdots, hspells⟩ := hx
  obtain ⟨v, hv, -, hspells'⟩ := hy
  have hblank : ∀ c ∈ [' '], Text.isLatinSpace c = true := List.forall_mem_singleton.mpr rfl
  refine ⟨u ++ .bar :: v, hu.append_furtherTerms hv, ?_, ?_⟩
  · intro n rest hn
    cases hu with
    | furtherTerm hterm =>
        obtain ⟨m, tail, rfl, -⟩ := begins_term hterm
        cases hn
        exact hdots _ _ rfl
  · simpa [Token.chars] using hspells.mark hspells' .bar rfl hblank hblank

theorem HoldsTerms.union {ts : List Ty} (h : HoldsTerms ts x) :
    ∃ tokens, Derives (.union (Ty.union ts)) tokens ∧ (∀ n rest, tokens = .name n :: rest → ¬['.', '.', '.'] <+: n) ∧
      SpellsBefore tokens x := by
  obtain ⟨tokens, hderives, hdots, hspells⟩ := h
  cases hderives with
  | furtherTerm hterm hfurther => exact ⟨_, .union hterm hfurther, hdots, hspells⟩

theorem HoldsTerms.arg {ts : List Ty} (h : HoldsTerms ts x) : HoldsArg (some (Ty.union ts)) x := by
  obtain ⟨tokens, hunion, hdots, hspells⟩ := h.union
  exact ⟨tokens, .type hunion hdots, hspells⟩

theorem holdsArg_ellipsis : HoldsArg none "...".toList := ⟨_, .ellipsis, spellsBefore_ellipsis⟩

theorem HoldsArg.last {a : Option Ty} (h : HoldsArg a x) : HoldsArgs [a] x := by
  obtain ⟨tokens, hderives, hspells⟩ := h
  refine ⟨tokens, ?_, hspells⟩
  have hargs := Derives.furtherArg hderives .noArg
  rwa [List.append_nil] at hargs

theorem HoldsArg.comma {a : Option Ty} {as : List (Option Ty)} (hx : HoldsArg a x) (hy : HoldsArgs as y) :
    HoldsArgs (a :: as) (x ++ (", ".toList ++ y)) := by
  obtain ⟨u, hu, hspells⟩ := hx
  obtain ⟨v, hv, hspells'⟩ := hy
  refine ⟨u ++ .comma :: v, .furtherArg hu hv, ?_⟩
  have hnone : ∀ c ∈ ([] : List Char), Text.isLatinSpace c = true := List.forall_mem_nil _
  have hblank : ∀ c ∈ [' '], Text.isLatinSpace c = true := List.forall_mem_singleton.mpr rfl
  simpa [Token.chars] using hspells.mark hspells' .comma rfl hnone hblank

end TypeText

/-! ### Trees -/

namespace TypeExpr

open TypeText

mutual

/-- The usual text of a written type. -/
def text : TypeExpr → Text
  | .hole => ""
  | .simple _ name => name.name
  | .generic _ base args => base.text ++ "[" ++ Text.join ", " (texts args) ++ "]"
  | .union _ members => Text.join " | " (texts members)

def texts : List TypeExpr → List Text
  | [] => []
  | t :: rest => t.text :: texts rest

end

/-- Whether a name can stand in a text: it is a non-empty run of name characters that does not begin with three dots. -/
def isPlainName (name : Text) : Bool :=
  !name.toList.isEmpty && name.toList.all isNameChar && !Text.startsWith name "..."

/-- Whether a written type is a name that can stand in a text. -/
def isPlain : TypeExpr → Bool
  | .simple _ name => isPlainName name.name
  | _ => false

mutual

/-- Whether a written type is made of names that can stand in a text, names with bracketed arguments and unions. -/
def isWritable : TypeExpr → Bool
  | .hole => false
  | .simple _ name => isPlainName name.name
  | .generic _ base args => base.isPlain && !args.isEmpty && areArguments args
  | .union _ members => !members.isEmpty && areWritable members

/-- Whether written types can be arguments; an argument may also be an ellipsis. -/
def areArguments : List TypeExpr → Bool
  | [] => true
  | t :: rest => (t.isEllipsis || t.isWritable) && areArguments rest

/-- Whether written types can be members of a union. -/
def areWritable : List TypeExpr → Bool
  | [] => true
  | t :: rest => t.isWritable && areWritable rest

end

mutual

/-- The types of the terms that stand side by side in the text of a written type. -/
def terms : TypeExpr → List Ty
  | .union _ members => allTerms members
  | t => [t.denote]

/-- The types of the terms of the members of a union. -/
def allTerms : List TypeExpr → List Ty
  | [] => []
  | t :: rest => t.terms ++ allTerms rest

end

/-- What an argument denotes, if it is no ellipsis. -/
def argument (t : TypeExpr) : Option Ty := if t.isEllipsis then none else some t.denote

theorem filterMap_argument (args : List TypeExpr) : (args.map argument).filterMap id = denoteArgs args := by
  induction args with
  | nil => rfl
  | cons t rest ih =>
      rw [List.map_cons, filterMap_id_cons, ih, denoteArgs, argument]
      split <;> rfl

theorem any_argument (args : List TypeExpr) : (args.map argument).any (·.isNone) = args.any isEllipsis := by
  induction args with
  | nil => rfl
  | cons t rest ih =>
      rw [List.map_cons, List.any_cons, List.any_cons, ih, argument]
      cases t.isEllipsis <;> rfl

/-! ### The terms of a tree -/

theorem union_ofName (name : Text) (args : List Ty) (variadic : Bool) :
    Ty.union [Ty.ofName name args variadic] = Ty.ofName name args variadic := by
  have halone (a : Alt) : Ty.union [Ty.only a] = Ty.only a := by
    cases a <;> rfl
  have hshape := Ty.nameShape_ofName name args variadic
  generalize Ty.ofName name args variadic = t at hshape ⊢
  cases hshape with
  | never => rfl
  | atom | container => exact halone _

mutual

theorem union_terms : (t : TypeExpr) → t.isWritable = true → Ty.union t.terms = t.denote
  | .simple _ name, _ => union_ofName name.name [] false
  | .generic _ base args, h => by
      cases base with
      | simple _ name => exact union_ofName name.name _ _
      | _ => cases h
  | .union _ members, h => union_allTerms members (Bool.and_eq_true_iff.mp h).2

theorem union_allTerms :
    (members : List TypeExpr) → areWritable members = true → Ty.union (allTerms members) = Ty.union (denoteAll members)
  | [], _ => rfl
  | t :: rest, h => by
      obtain ⟨ht, hrest⟩ := Bool.and_eq_true_iff.mp h
      have hterms := union_terms t ht
      calc Ty.union (t.terms ++ allTerms rest)
        _ = Ty.union [Ty.union t.terms, Ty.union (allTerms rest)] := Ty.union_append_eq _ _
        _ = Ty.union [Ty.union [t.denote], Ty.union (denoteAll rest)] := by
            rw [union_allTerms rest hrest, ← hterms, Ty.union_union]
        _ = Ty.union (t.denote :: denoteAll rest) := (Ty.union_cons_eq _ _).symm

end

/-! ### The text of a tree -/

theorem isName_of_isPlainName {name : Text} (h : isPlainName name = true) :
    IsName name.toList ∧ ¬['.', '.', '.'] <+: name.toList := by
  simp only [isPlainName, Bool.and_eq_true, Bool.not_eq_true', List.isEmpty_eq_false_iff] at h
  obtain ⟨⟨hne, hall⟩, hdots⟩ := h
  exact ⟨⟨hne, hall⟩, fun hprefix =>
    Bool.false_ne_true (hdots.symm.trans (List.isPrefixOf_iff_prefix.mpr hprefix))⟩

theorem text_of_isEllipsis {t : TypeExpr} (h : t.isEllipsis = true) : t.text = "..." := by
  cases t with
  | simple _ name => exact beq_iff_eq.mp h
  | _ => cases h

mutual

theorem holdsTerms_text : (t : TypeExpr) → t.isWritable = true → HoldsTerms t.terms t.text.toList
  | .simple _ name, h => by
      obtain ⟨hname, hdots⟩ := isName_of_isPlainName h
      have hholds := holdsTerms_name hname hdots
      rwa [String.ofList_toList] at hholds
  | .generic _ base args, h => by
      cases base with
      | simple _ name =>
          simp only [isWritable, isPlain, Bool.and_eq_true, Bool.not_eq_true', List.isEmpty_eq_false_iff] at h
          obtain ⟨⟨hplain, hne⟩, hargs⟩ := h
          obtain ⟨hname, hdots⟩ := isName_of_isPlainName hplain
          have hholds := holdsTerms_bracketed hname hdots (holdsArgs_texts args hne hargs)
          rw [String.ofList_toList, filterMap_argument, any_argument] at hholds
          simpa [terms, denote, text] using hholds
      | _ => cases h
  | .union _ members, h => by
      simp only [isWritable, Bool.and_eq_true, Bool.not_eq_true', List.isEmpty_eq_false_iff] at h
      exact holdsTerms_texts members h.1 h.2

theorem holdsArgs_texts : (args : List TypeExpr) → args ≠ [] → areArguments args = true →
    HoldsArgs (args.map argument) (Text.join ", " (texts args)).toList
  | [], hne, _ => absurd rfl hne
  | t :: rest, _, h => by
      obtain ⟨ht, hrest⟩ := Bool.and_eq_true_iff.mp h
      have harg : HoldsArg t.argument t.text.toList := by
        by_cases hellipsis : t.isEllipsis = true
        · rw [argument, if_pos hellipsis, text_of_isEllipsis hellipsis]
          exact holdsArg_ellipsis
        · have hwritable := (Bool.or_eq_true_iff.mp ht).resolve_left hellipsis
          rw [argument, if_neg hellipsis, ← union_terms t hwritable]
          exact (holdsTerms_text t hwritable).arg
      cases hcases : rest with
      | nil => exact harg.last
      | cons t' rest' =>
          have hargs := holdsArgs_texts rest (hcases ▸ List.cons_ne_nil _ _) hrest
          rw [hcases] at hargs
          simp only [texts, Text.toList_join_cons_cons, List.append_assoc]
          exact harg.comma hargs

theorem holdsTerms_texts : (members : List TypeExpr) → members ≠ [] → areWritable members = true →
    HoldsTerms (allTerms members) (Text.join " | " (texts members)).toList
  | [], hne, _ => absurd rfl hne
  | t :: rest, _, h => by
      obtain ⟨ht, hrest⟩ := Bool.and_eq_true_iff.mp h
      have hfirst := holdsTerms_text t ht
      cases hcases : rest with
      | nil =>
          simp only [allTerms, texts, Text.join, List.append_nil]
          exact hfirst
      | cons t' rest' =>
          have hothers := holdsTerms_texts rest (hcases ▸ List.cons_ne_nil _ _) hrest
          rw [hcases] at hothers
          rw [allTerms]
          simp only [texts, Text.toList_join_cons_cons, List.append_assoc]
          exact hfirst.bar hothers

end

/-- The usual text of a tree is read as the type that the tree denotes. -/
theorem parse_text_denote {t : TypeExpr} (h : t.isWritable = true) : Ty.parse t.text = .ok t.denote := by
  obtain ⟨tokens, hderives, -, hspells⟩ := (holdsTerms_text t h).union
  have hspelled := hspells [] [] (Text.follows_nil _) (.nil fun _ hc => absurd hc List.not_mem_nil)
  rw [List.append_nil, List.append_nil] at hspelled
  rw [union_terms t h] at hderives
  exact Ty.parse_eq_ok_iff.mpr ⟨tokens, hderives, hspelled⟩

/-- A union with a bracketed name, whose arguments are a union and an ellipsis, and with another union. -/
def nestedUnions : TypeExpr :=
  .union {} [.generic {} (.simple {} ⟨{}, "Tuple"⟩) [.union {} [.simple {} ⟨{}, "int"⟩, .simple {} ⟨{}, "None"⟩],
      .simple {} ⟨{}, "..."⟩], .union {} [.simple {} ⟨{}, "Label"⟩, .simple {} ⟨{}, "int"⟩]]

theorem parse_text_denote_nested :
    nestedUnions.isWritable = true ∧ nestedUnions.text = "Tuple[int | None, ...] | Label | int" ∧
    Ty.parse nestedUnions.text = .ok nestedUnions.denote ∧
    nestedUnions.denote.text = "Label | int | tuple[None | int, ...]" := by
  have hwritable : nestedUnions.isWritable = true := by decide +kernel
  exact ⟨hwritable, by decide +kernel, parse_text_denote hwritable, by decide +kernel⟩

end TypeExpr

end Gradual
