import Gradual.Proofs.Ensures
import Gradual.Proofs.TextRoundTrip
import Mathlib.Data.List.TakeWhile

/-! The grammar of the texts of types, and that reading accepts it exactly. A text spells a sequence of tokens, with
spaces before any of them and at the end, and the grammar derives sequences of tokens:

    union := term ('|' term)*
    term  := name | 'tuple' '[' '()' ']' | name '[' arg (',' arg)* ']'
    arg   := '...' | union

Each phrase of the grammar carries what it denotes. One direction follows the readers, and says of what each of them
has read that it spells tokens of its phrase; the other follows derivations, and says that the reader of the phrase
stops right after its tokens, provided that the next token cannot be a part of it. -/

namespace Gradual

namespace TypeText

/-! ### Tokens -/

/-- The tokens of the text of a type. -/
inductive Token where
  | name (chars : List Char)
  | bar
  | opening
  | closing
  | comma
  | ellipsis
  /-- The parentheses that stand for no elements. -/
  | unit

namespace Token

/-- The characters of a token. -/
def chars : Token → List Char
  | .name chars => chars
  | .bar => ['|']
  | .opening => ['[']
  | .closing => [']']
  | .comma => [',']
  | .ellipsis => ['.', '.', '.']
  | .unit => ['(', ')']

/-- A token can end before `s`: a name goes on as long as there are name characters. -/
def EndsBefore (s : List Char) : Token → Prop
  | .name _ => Text.Follows (fun c => !isNameChar c) s
  | _ => True

end Token

/-- A text spells tokens: it consists of their characters, with spaces before any token and at the end. -/
inductive Spells : List Token → List Char → Prop
  | nil {blanks : List Char} (hblanks : ∀ c ∈ blanks, Text.isLatinSpace c = true) : Spells [] blanks
  | cons {token : Token} {tokens : List Token} {blanks s : List Char}
      (hblanks : ∀ c ∈ blanks, Text.isLatinSpace c = true) (hends : token.EndsBefore s) (h : Spells tokens s) :
      Spells (token :: tokens) (blanks ++ (token.chars ++ s))

/-- A name is a non-empty run of name characters. -/
structure IsName (chars : List Char) : Prop where
  ne_nil : chars ≠ []
  all : chars.all isNameChar = true

/-! ### The grammar -/

/-- A phrase of the grammar with what it denotes. An argument that denotes nothing is an ellipsis. -/
inductive Phrase where
  | union (type : Ty)
  /-- `('|' term)*` -/
  | furtherTerms (types : List Ty)
  | term (type : Ty)
  | arg (type : Option Ty)
  /-- `(',' arg)*` -/
  | furtherArgs (types : List (Option Ty))

/-- The tokens of a phrase. An argument whose first name begins with three dots is not derived: three dots at the
beginning of an argument are the ellipsis. -/
inductive Derives : Phrase → List Token → Prop
  | union {t : Ty} {ts : List Ty} {u v : List Token} (hterm : Derives (.term t) u)
      (hfurther : Derives (.furtherTerms ts) v) : Derives (.union (Ty.union (t :: ts))) (u ++ v)
  | noTerm : Derives (.furtherTerms []) []
  | furtherTerm {t : Ty} {ts : List Ty} {u v : List Token} (hterm : Derives (.term t) u)
      (hfurther : Derives (.furtherTerms ts) v) : Derives (.furtherTerms (t :: ts)) (.bar :: (u ++ v))
  | name {n : List Char} (hname : IsName n) : Derives (.term (Ty.ofName (String.ofList n) [] false)) [.name n]
  | unit : Derives (.term (Ty.tuple [])) [.name "tuple".toList, .opening, .unit, .closing]
  | bracketed {n : List Char} {a : Option Ty} {as : List (Option Ty)} {u v : List Token} (hname : IsName n)
      (harg : Derives (.arg a) u) (hfurther : Derives (.furtherArgs as) v) :
      Derives (.term (Ty.ofName (String.ofList n) ((a :: as).filterMap id) ((a :: as).any (·.isNone))))
        (.name n :: .opening :: (u ++ (v ++ [.closing])))
  | ellipsis : Derives (.arg none) [.ellipsis]
  | type {t : Ty} {u : List Token} (hunion : Derives (.union t) u)
      (hdots : ∀ n rest, u = .name n :: rest → ¬['.', '.', '.'] <+: n) : Derives (.arg (some t)) u
  | noArg : Derives (.furtherArgs []) []
  | furtherArg {a : Option Ty} {as : List (Option Ty)} {u v : List Token} (harg : Derives (.arg a) u)
      (hfurther : Derives (.furtherArgs as) v) : Derives (.furtherArgs (a :: as)) (.comma :: (u ++ v))

theorem begins_term {t : Ty} {u : List Token} (h : Derives (.term t) u) :
    ∃ n rest, u = .name n :: rest ∧ IsName n := by
  cases h with
  | name hname => exact ⟨_, _, rfl, hname⟩
  | unit => exact ⟨_, _, rfl, by decide, by decide⟩
  | bracketed hname => exact ⟨_, _, rfl, hname⟩

theorem begins_union {t : Ty} {u : List Token} (h : Derives (.union t) u) :
    ∃ n rest, u = .name n :: rest ∧ IsName n := by
  cases h with
  | union hterm =>
      obtain ⟨n, rest, rfl, hname⟩ := begins_term hterm
      exact ⟨n, _, rfl, hname⟩

/-! ### Spelling -/

variable {token : Token} {tokens after : List Token} {s r : List Char}

theorem spells_of_skip (hs : skip s = token.chars ++ r) (hends : token.EndsBefore r) (h : Spells tokens r) :
    Spells (token :: tokens) s := by
  have hsplit : s.takeWhile Text.isLatinSpace ++ skip s = s := List.takeWhile_append_dropWhile
  rw [← hsplit, hs]
  exact .cons (fun c hc => List.mem_takeWhile_imp hc) hends h

theorem spells_nil_iff : Spells [] s ↔ skip s = [] := by
  rw [skip, List.dropWhile_eq_nil_iff]
  constructor
  · rintro ⟨hblanks⟩
    exact hblanks
  · exact .nil

/-- A token begins with a character other than a space. -/
def Token.IsSolid (token : Token) : Prop := ∃ c rest, token.chars = c :: rest ∧ Text.isLatinSpace c = false

theorem IsName.isSolid {n : List Char} (h : IsName n) : (Token.name n).IsSolid := by
  obtain ⟨c, rest, rfl⟩ := List.exists_cons_of_ne_nil h.ne_nil
  have hall := h.all
  rw [List.all_cons, Bool.and_eq_true] at hall
  exact ⟨c, rest, rfl, not_isLatinSpace_of_isNameChar hall.1⟩

theorem IsName.toList_ofList {n : List Char} (h : IsName n) :
    (String.ofList n).toList ≠ [] ∧ (String.ofList n).toList.all isNameChar = true := by
  rw [String.toList_ofList]
  exact ⟨h.ne_nil, h.all⟩

theorem isSolid_of_ne_name (h : ∀ n, token ≠ .name n) : token.IsSolid := by
  cases token with
  | name n => exact absurd rfl (h n)
  | _ => exact ⟨_, _, rfl, rfl⟩

theorem skip_of_spells (htoken : token.IsSolid) (h : Spells (token :: tokens) s) :
    ∃ r, skip s = token.chars ++ r ∧ token.EndsBefore r ∧ Spells tokens r := by
  cases h with
  | @cons _ _ blanks r hblanks hends h =>
      refine ⟨r, ?_, hends, h⟩
      obtain ⟨c, rest, hchars, hspace⟩ := htoken
      rw [skip, List.dropWhile_append_of_pos hblanks, hchars]
      exact skip_eq_self hspace

theorem skip_of_spells_mark (htoken : ∀ n, token ≠ .name n) (h : Spells (token :: tokens) s) :
    ∃ r, skip s = token.chars ++ r ∧ Spells tokens r := by
  obtain ⟨r, hs, -, hr⟩ := skip_of_spells (isSolid_of_ne_name htoken) h
  exact ⟨r, hs, hr⟩

theorem skip_ne_of_spells {c : Char} (h : Spells tokens s)
    (hfirst : ∀ token ∈ tokens.head?, token.IsSolid ∧ token.chars.head? ≠ some c) (q : List Char) :
    skip s ≠ c :: q := by
  intro hs
  cases tokens with
  | nil =>
      rw [spells_nil_iff.mp h] at hs
      cases hs
  | cons token tokens =>
      obtain ⟨hsolid, hne⟩ := hfirst token rfl
      obtain ⟨r, hskip, -, -⟩ := skip_of_spells hsolid h
      obtain ⟨d, rest, hchars, -⟩ := hsolid
      rw [hskip, hchars] at hs
      rw [hchars] at hne
      exact hne (congrArg some (List.cons.inj hs).1)

/-! ### Derived texts are read -/

/-- The tokens that end a term. -/
def Token.endsTerm : Token → Bool
  | .bar | .closing | .comma => true
  | _ => false

/-- The tokens that end a union. -/
def Token.endsUnion : Token → Bool
  | .closing | .comma => true
  | _ => false

theorem Token.endsTerm_of_endsUnion (h : token.endsUnion = true) : token.endsTerm = true := by
  cases token with
  | closing | comma => rfl
  | _ => cases h

theorem Token.isSolid_of_endsTerm (h : token.endsTerm = true) : token.IsSolid ∧ token.chars.head? ≠ some '[' := by
  refine ⟨isSolid_of_ne_name ?_, ?_⟩
  · rintro n rfl
    cases h
  · cases token with
    | bar | closing | comma => decide
    | _ => cases h

theorem Token.isSolid_of_endsUnion (h : token.endsUnion = true) : token.IsSolid ∧ token.chars.head? ≠ some '|' := by
  refine ⟨(isSolid_of_endsTerm (endsTerm_of_endsUnion h)).1, ?_⟩
  cases token with
  | closing | comma => decide
  | _ => cases h

/-- The reader of a phrase reads its tokens, whatever can come after them, and leaves what comes after them. The
further arguments of a name are read together with the argument before them and the closing bracket. -/
def IsRead (tokens : List Token) : Phrase → Prop
  | .union t => ∀ after s, (∀ x ∈ after.head?, x.endsUnion = true) → Spells (tokens ++ after) s →
      ∃ r, Reads (union s) t r ∧ Spells after r
  | .furtherTerms ts => ∀ after s, (∀ x ∈ after.head?, x.endsUnion = true) → Spells (tokens ++ after) s →
      ∃ r, Reads (members s) ts r ∧ Spells after r
  | .term t => ∀ after s, (∀ x ∈ after.head?, x.endsTerm = true) → Spells (tokens ++ after) s →
      ∃ r, Reads (term s) t r ∧ Spells after r
  | .arg a => ∀ after s, (∀ x ∈ after.head?, x.endsUnion = true) → Spells (tokens ++ after) s →
      ∃ r, ReadsArg s a r ∧ Spells after r
  | .furtherArgs as => ∀ after before s a, ReadsArg before a s → Spells (tokens ++ .closing :: after) s →
      ∃ r, (∃ h, arguments before = .ok ((a :: as).filterMap id, (a :: as).any (·.isNone), ⟨r, h⟩)) ∧ Spells after r

theorem endsTerm_furtherTerms {ts : List Ty} {v : List Token} (h : Derives (.furtherTerms ts) v)
    (hafter : ∀ x ∈ after.head?, x.endsUnion = true) : ∀ x ∈ (v ++ after).head?, x.endsTerm = true := by
  cases h with
  | noTerm => exact fun x hx => Token.endsTerm_of_endsUnion (hafter x hx)
  | furtherTerm =>
      rintro x ⟨⟩
      rfl

theorem endsUnion_furtherArgs {as : List (Option Ty)} {v : List Token} (h : Derives (.furtherArgs as) v) :
    ∀ x ∈ (v ++ .closing :: after).head?, x.endsUnion = true := by
  cases h with
  | noArg =>
      rintro x ⟨⟩
      rfl
  | furtherArg =>
      rintro x ⟨⟩
      rfl

theorem filterMap_id_cons (a : Option Ty) (as : List (Option Ty)) :
    (a :: as).filterMap id = a.toList ++ as.filterMap id := by
  cases a <;> rfl

/-- The first token of an argument is a name or the ellipsis, so that no argument begins with a parenthesis. -/
theorem skip_ne_unit_of_arg {a : Option Ty} {u : List Token} (h : Derives (.arg a) u) (hs : Spells (u ++ after) s)
    (rest : List Char) : skip s ≠ '(' :: ')' :: rest := by
  refine skip_ne_of_spells hs ?_ _
  cases h with
  | ellipsis =>
      rintro x ⟨⟩
      exact ⟨⟨_, _, rfl, rfl⟩, by decide⟩
  | type hunion =>
      obtain ⟨n, rest, rfl, hname⟩ := begins_union hunion
      rintro x ⟨⟩
      refine ⟨hname.isSolid, fun hhead => ?_⟩
      have hparen := List.all_eq_true.mp hname.all '(' (List.mem_of_head? hhead)
      exact absurd hparen (by decide)

theorem Derives.isRead {phrase : Phrase} (h : Derives phrase tokens) : IsRead tokens phrase := by
  induction h with
  | union hterm hfurther ihterm ihfurther =>
      intro after s hafter hs
      rw [List.append_assoc] at hs
      obtain ⟨s₁, hread, hs₁⟩ := ihterm _ s (endsTerm_furtherTerms hfurther hafter) hs
      obtain ⟨r, hmembers, hr⟩ := ihfurther after s₁ hafter hs₁
      exact ⟨r, reads_union hread hmembers, hr⟩
  | noTerm =>
      intro after s hafter hs
      exact ⟨s, reads_members_nil (skip_ne_of_spells hs fun x hx => Token.isSolid_of_endsUnion (hafter x hx)), hs⟩
  | furtherTerm hterm hfurther ihterm ihfurther =>
      intro after s hafter hs
      rw [List.cons_append, List.append_assoc] at hs
      obtain ⟨s₁, hbar, hs₁⟩ := skip_of_spells_mark (by simp) hs
      obtain ⟨s₂, hread, hs₂⟩ := ihterm _ s₁ (endsTerm_furtherTerms hfurther hafter) hs₁
      obtain ⟨r, hmembers, hr⟩ := ihfurther after s₂ hafter hs₂
      exact ⟨r, reads_members_cons hbar hread hmembers, hr⟩
  | @name n hname =>
      intro after s hafter hs
      obtain ⟨r, hskip, hends, hr⟩ := skip_of_spells hname.isSolid hs
      obtain ⟨hne, hall⟩ := hname.toList_ofList
      refine ⟨r, reads_term_name hne hall ?_ ⟨hends, ?_⟩, hr⟩
      · rw [String.toList_ofList]
        exact hskip
      · exact skip_ne_of_spells hr fun x hx => Token.isSolid_of_endsTerm (hafter x hx)
  | unit =>
      intro after s _ hs
      obtain ⟨s₁, hname, hends, hs₁⟩ := skip_of_spells ⟨_, _, rfl, rfl⟩ hs
      obtain ⟨s₂, hopen, hs₂⟩ := skip_of_spells_mark (by simp) hs₁
      obtain ⟨s₃, hunit, hs₃⟩ := skip_of_spells_mark (by simp) hs₂
      obtain ⟨r, hclose, hr⟩ := skip_of_spells_mark (by simp) hs₃
      exact ⟨r, reads_term_unit hname hends hopen hunit hclose, hr⟩
  | @bracketed n a as u v hname harg hfurther iharg ihfurther =>
      intro after s _ hs
      simp only [List.append_assoc, List.cons_append, List.nil_append] at hs
      obtain ⟨s₁, hskip, hends, hs₁⟩ := skip_of_spells hname.isSolid hs
      obtain ⟨s₂, hopen, hs₂⟩ := skip_of_spells_mark (by simp) hs₁
      obtain ⟨s₃, hread, hs₃⟩ := iharg _ s₂ (endsUnion_furtherArgs hfurther) hs₂
      obtain ⟨r, hargs, hr⟩ := ihfurther after s₂ s₃ a hread hs₃
      obtain ⟨hne, hall⟩ := hname.toList_ofList
      refine ⟨r, reads_term_bracket hne hall ?_ hends hopen (skip_ne_unit_of_arg harg hs₂) hargs, hr⟩
      rw [String.toList_ofList]
      exact hskip
  | ellipsis =>
      intro after s _ hs
      obtain ⟨r, hdots, hr⟩ := skip_of_spells_mark (by simp) hs
      exact ⟨r, .ellipsis hdots, hr⟩
  | type hunion hdots ih =>
      intro after s hafter hs
      obtain ⟨r, hread, hr⟩ := ih after s hafter hs
      refine ⟨r, .type (fun q hq => ?_) hread, hr⟩
      obtain ⟨n, rest, rfl, hname⟩ := begins_union hunion
      obtain ⟨p, hskip, hends, -⟩ := skip_of_spells hname.isSolid hs
      rw [hskip] at hq
      exact not_ellipsis_append (hdots n rest rfl) hends ⟨q, hq.symm⟩
  | noArg =>
      intro after before s a harg hs
      obtain ⟨r, hclose, hr⟩ := skip_of_spells_mark (by simp) hs
      refine ⟨r, ?_, hr⟩
      rw [filterMap_id_cons, List.any_cons]
      simpa using arguments_last harg hclose
  | @furtherArg a' as u v harg hfurther iharg ihfurther =>
      intro after before s a hread hs
      rw [List.cons_append, List.append_assoc] at hs
      obtain ⟨s₁, hcomma, hs₁⟩ := skip_of_spells_mark (by simp) hs
      obtain ⟨s₂, hread', hs₂⟩ := iharg _ s₁ (endsUnion_furtherArgs hfurther) hs₁
      obtain ⟨r, hargs, hr⟩ := ihfurther after s₁ s₂ a' hread' hs₂
      refine ⟨r, ?_, hr⟩
      rw [filterMap_id_cons, List.any_cons]
      exact arguments_more hread hcomma hargs

/-! ### What is read is derived -/

theorem skip_of_consume {first : Char} {more : List Char} {rest : Rest s} (h : consume first more s = some rest) :
    skip s = first :: (more ++ rest.1) := by
  unfold consume at h
  split at h
  · cases h
  · next c tail hs =>
      split at h
      · next hfirst =>
        obtain ⟨rfl, r, rfl⟩ := hfirst
        cases h
        show skip s = c :: (more ++ List.drop more.length (more ++ r))
        rw [List.drop_left]
        exact hs
      · cases h

theorem skip_ne_of_consume {first : Char} {more : List Char} (h : consume first more s = none) (r : List Char) :
    skip s ≠ first :: (more ++ r) := by
  intro hs
  obtain ⟨hlt, hsome⟩ := consume_of_skip hs
  rw [h] at hsome
  cases hsome

theorem spells_of_consume {first : Char} {more : List Char} {rest : Rest s}
    (hconsume : consume first more s = some rest) (hchars : token.chars = first :: more)
    (hends : token.EndsBefore rest.1) (h : Spells tokens rest.1) : Spells (token :: tokens) s := by
  refine spells_of_skip ?_ hends h
  rw [hchars]
  exact skip_of_consume hconsume

theorem isName_of_takeName {c : Char} {cs : List Char} (h : takeName s = (c :: cs, r)) :
    IsName (c :: cs) ∧ skip s = c :: cs ++ r ∧ Text.Follows (fun c => !isNameChar c) r := by
  rw [takeName, Prod.mk.injEq] at h
  obtain ⟨hname, rfl⟩ := h
  refine ⟨⟨List.cons_ne_nil c cs, ?_⟩, ?_, ?_⟩
  · rw [← hname, List.all_eq_true]
    exact fun d hd => List.mem_takeWhile_imp hd
  · rw [← hname]
    exact List.takeWhile_append_dropWhile.symm
  · intro d hd
    have hnot := List.head?_dropWhile_not isNameChar (skip s)
    rw [Option.mem_def.mp hd] at hnot
    simpa using hnot

/-- What was read of `s` before `r` is spelled by tokens of the phrase. -/
def Accounts (s r : List Char) (phrase : Phrase) : Prop :=
  ∃ tokens, Derives phrase tokens ∧ ∀ after, Spells after r → Spells (tokens ++ after) s

/-- What was read of `s` before `r` is spelled by tokens of arguments and a closing bracket. -/
def AccountsArgs (s r : List Char) (types : List Ty) (variadic : Bool) : Prop :=
  ∃ a as u v, types = (a :: as).filterMap id ∧ variadic = (a :: as).any (·.isNone) ∧ Derives (.arg a) u ∧
    Derives (.furtherArgs as) v ∧ ∀ after, Spells after r → Spells (u ++ (v ++ .closing :: after)) s

theorem Accounts.arg {t : Ty} (h : Accounts s r (.union t)) (hdots : consume '.' ['.', '.'] s = none) :
    Accounts s r (.arg (some t)) := by
  obtain ⟨tokens, hderives, hspells⟩ := h
  refine ⟨tokens, .type hderives ?_, hspells⟩
  rintro n rest rfl ⟨q, rfl⟩
  -- Whatever is left can be taken for a name, so that the tokens before it are those of `s`.
  have hr : Spells [.name r] r := by
    have hspelled : Spells [.name r] ([] ++ (r ++ [])) := .cons (by simp) (Text.follows_nil _) (.nil (by simp))
    simpa using hspelled
  obtain ⟨p, hskip, -, -⟩ := skip_of_spells ⟨_, _, rfl, rfl⟩ (hspells _ hr)
  exact skip_ne_of_consume hdots (q ++ p) hskip

mutual

theorem accounts_union (s : List Char) : Ensures (union s) fun x => Accounts s x.2.1 (.union x.1) := by
  rw [union]
  refine (accounts_term s).bind fun ⟨t, s₁, _⟩ ⟨u, hterm, hu⟩ => (accounts_members s₁).bind
    fun ⟨ts, r, _⟩ ⟨v, hfurther, hv⟩ => .pure ⟨u ++ v, .union hterm hfurther, fun after hafter => ?_⟩
  rw [List.append_assoc]
  exact hu _ (hv after hafter)
termination_by (s.length, 1)

theorem accounts_members (s : List Char) : Ensures (members s) fun x => Accounts s x.2.1 (.furtherTerms x.1) := by
  rw [members]
  split
  · exact .pure ⟨[], .noTerm, fun _ hafter => hafter⟩
  · next s₁ h₁ hbar =>
    refine (accounts_term s₁).bind fun ⟨t, s₂, _⟩ ⟨u, hterm, hu⟩ => (accounts_members s₂).bind
      fun ⟨ts, r, _⟩ ⟨v, hfurther, hv⟩ =>
        .pure ⟨.bar :: (u ++ v), .furtherTerm hterm hfurther, fun after hafter => ?_⟩
    rw [List.cons_append, List.append_assoc]
    exact spells_of_consume hbar rfl trivial (hu _ (hv after hafter))
termination_by (s.length, 0)

theorem accounts_term (s : List Char) : Ensures (term s) fun x => Accounts s x.2.1 (.term x.1) := by
  rw [term]
  split
  · exact .error _
  · next c cs s₁ htake =>
    have h₁ := length_takeName_lt htake (by simp)
    obtain ⟨hname, hskip, hends⟩ := isName_of_takeName htake
    split
    · exact .pure ⟨[.name (c :: cs)], .name hname, fun _ hafter => spells_of_skip hskip hends hafter⟩
    · next s₂ h₂ hopen =>
      dsimp only
      split
      · next s₃ h₃ hunit =>
        split at hunit
        · next htuple =>
          split
          · next s₄ h₄ hclose =>
            refine .pure ⟨_, .unit, fun after hafter => ?_⟩
            have hchars : c :: cs = "tuple".toList := by rw [← htuple, String.toList_ofList]
            rw [hchars] at hskip
            exact spells_of_skip hskip hends (spells_of_consume hopen rfl trivial
              (spells_of_consume hunit rfl trivial (spells_of_consume hclose rfl trivial hafter)))
          · exact .error _
        · cases hunit
      · refine (accounts_arguments s₂).bind fun ⟨types, variadic, r, _⟩ haccounts => .pure ?_
        obtain ⟨a, as, u, v, rfl, rfl, harg, hfurther, hspells⟩ := haccounts
        refine ⟨_, .bracketed hname harg hfurther, fun after hafter => ?_⟩
        simp only [List.cons_append, List.append_assoc, List.nil_append]
        exact spells_of_skip hskip hends (spells_of_consume hopen rfl trivial (hspells after hafter))
termination_by (s.length, 0)

theorem accounts_arguments (s : List Char) :
    Ensures (arguments s) fun x => AccountsArgs s x.2.2.1 x.1 x.2.1 := by
  rw [arguments]
  refine Ensures.bind (P := fun x => Accounts s x.2.1 (.arg x.1)) ?_ ?_
  · split
    · next rest hdots =>
      exact .pure ⟨[.ellipsis], .ellipsis, fun _ hafter => spells_of_consume hdots rfl trivial hafter⟩
    · next hdots => exact (accounts_union s).bind fun _ haccounts => .pure (haccounts.arg hdots)
  · rintro ⟨a, s₁, h₁⟩ ⟨u, harg, hu⟩
    dsimp only
    split
    · next s₂ h₂ hclose =>
      refine .pure ⟨a, [], u, [], ?_, ?_, harg, .noArg, fun after hafter => ?_⟩
      · cases a <;> rfl
      · cases a <;> rfl
      · exact hu _ (spells_of_consume hclose rfl trivial hafter)
    · split
      · exact .error _
      · next s₂ h₂ hcomma =>
        refine (accounts_arguments s₂).bind fun ⟨types, variadic, r, _⟩ haccounts => .pure ?_
        obtain ⟨a', as, u', v, rfl, rfl, harg', hfurther, hspells⟩ := haccounts
        refine ⟨a, a' :: as, u, .comma :: (u' ++ v), ?_, rfl, harg, .furtherArg harg' hfurther,
          fun after hafter => ?_⟩
        · exact (filterMap_id_cons a (a' :: as)).symm
        · rw [List.cons_append, List.append_assoc]
          exact hu _ (spells_of_consume hcomma rfl trivial (hspells after hafter))
termination_by (s.length, 2)

end

/-! ### Where reading stops -/

theorem length_takeName_le {name : List Char} (h : takeName s = (name, r)) : r.length ≤ s.length := by
  rw [takeName, Prod.mk.injEq] at h
  rw [← h.2]
  exact Nat.le_trans (List.dropWhile_suffix _).length_le (length_skip_le s)

mutual

theorem stops_union (s : List Char) : FailsWith (union s) fun stop => stop.left.length ≤ s.length := by
  rw [union]
  refine (stops_term s).bind fun ⟨_, s₁, h₁⟩ => ((stops_members s₁).mono fun _ h => ?_).bind fun _ => .ok _
  omega
termination_by (s.length, 1)

theorem stops_members (s : List Char) : FailsWith (members s) fun stop => stop.left.length ≤ s.length := by
  rw [members]
  split
  · exact .ok _
  · next s₁ h₁ _ =>
    refine ((stops_term s₁).mono fun _ h => ?_).bind fun ⟨_, s₂, h₂⟩ =>
      ((stops_members s₂).mono fun _ h => ?_).bind fun _ => .ok _
    all_goals omega
termination_by (s.length, 0)

theorem stops_term (s : List Char) : FailsWith (term s) fun stop => stop.left.length ≤ s.length := by
  rw [term]
  split
  · next s₁ htake => exact .error (length_takeName_le htake)
  · next c cs s₁ htake =>
    have h₁ := length_takeName_lt htake (by simp)
    split
    · exact .ok _
    · next s₂ h₂ _ =>
      dsimp only
      split
      · next s₃ h₃ _ =>
        split
        · exact .ok _
        · refine .error ?_
          have := length_skip_le s₃
          dsimp only
          omega
      · refine ((stops_arguments s₂).mono fun _ h => ?_).bind fun _ => .ok _
        omega
termination_by (s.length, 0)

theorem stops_arguments (s : List Char) : FailsWith (arguments s) fun stop => stop.left.length ≤ s.length := by
  rw [arguments]
  refine FailsWith.bind ?_ ?_
  · split
    · exact .ok _
    · exact (stops_union s).bind fun _ => .ok _
  · rintro ⟨a, s₁, h₁⟩
    dsimp only
    split
    · exact .ok _
    · split
      · refine .error ?_
        have := length_skip_le s₁
        dsimp only
        omega
      · next s₂ h₂ _ =>
        refine ((stops_arguments s₂).mono fun _ h => ?_).bind fun _ => .ok _
        omega
termination_by (s.length, 2)

end

end TypeText

namespace Ty

open TypeText

theorem parse_eq_ok_iff {source : Text} {t : Ty} :
    Ty.parse source = .ok t ↔ ∃ tokens, Derives (.union t) tokens ∧ Spells tokens source.toList := by
  constructor
  · intro h
    unfold Ty.parse at h
    split at h
    · cases h
    · next rest _ hunion =>
      split at h
      · next hskip =>
        cases h
        obtain ⟨tokens, hderives, hspells⟩ := accounts_union _ _ hunion
        have hall := hspells [] (spells_nil_iff.mpr hskip)
        rw [List.append_nil] at hall
        exact ⟨tokens, hderives, hall⟩
      · cases h
  · rintro ⟨tokens, hderives, hspells⟩
    have hread : IsRead tokens (.union t) := hderives.isRead
    obtain ⟨r, ⟨hlt, hunion⟩, hr⟩ := hread [] source.toList (by simp) (by rwa [List.append_nil])
    unfold Ty.parse
    rw [hunion]
    dsimp only
    rw [spells_nil_iff.mp hr]

theorem parse_error {source : Text} {e : TypeTextError} (h : Ty.parse source = .error e) :
    e.source = source ∧ e.left ≤ source.length := by
  unfold Ty.parse at h
  split at h
  · next stop hunion =>
    cases h
    exact ⟨rfl, stops_union _ stop hunion⟩
  · next rest hlt hunion =>
    split at h
    · cases h
    · cases h
      exact ⟨rfl, Nat.le_trans (length_skip_le rest) (Nat.le_of_lt hlt)⟩

/-- Reading accepts the grammar exactly. A text is read as a type if and only if it spells tokens of a union that
denotes this type; and every text is either read or refused, with a fault that lies in the text. -/
theorem parse_accepts_grammar (source : Text) :
    (∀ t, Ty.parse source = .ok t ↔ ∃ tokens, Derives (.union t) tokens ∧ Spells tokens source.toList) ∧
    ((∃ t, Ty.parse source = .ok t) ∨
      ∃ e, Ty.parse source = .error e ∧ e.source = source ∧ e.left ≤ source.length) := by
  refine ⟨fun t => parse_eq_ok_iff, ?_⟩
  cases hparse : Ty.parse source with
  | ok t => exact Or.inl ⟨t, rfl⟩
  | error e => exact Or.inr ⟨e, rfl, parse_error hparse⟩

end Ty

end Gradual
