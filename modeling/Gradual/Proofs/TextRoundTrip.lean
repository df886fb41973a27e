import Gradual.Proofs.StrippedTypes
import Gradual.Proofs.TypeEquality
import Gradual.Ty.Parse

/-! The text of a type is read back as that type, for types without records and signatures whose custom
names are names of the grammar. A text knows custom types by name only, so that what is read back carries no
hosts. Printing puts a blank before each bar and after each comma, and reading skips blanks before a token;
the statements here are therefore about whatever begins with the text of a type once its leading blanks are
skipped, followed by something that cannot be a part of it. -/

namespace Gradual

/-! ### Types that the grammar can tell -/

/-- A name that is read as the custom type of that name wherever it stands. -/
structure Ty.IsParsableName (name : Text) : Prop where
  ne_nil : name.toList ≠ []
  chars : name.toList.all TypeText.isNameChar = true
  free : Ty.IsFreeName name
  no_ellipsis : ¬['.', '.', '.'] <+: name.toList

/-- An alternative that is neither a record nor a callable with a signature; a custom one has a name that can
be read. -/
def Alt.IsParsable : Alt → Prop
  | .custom name _ => Ty.IsParsableName name
  | .function sig => sig = none
  | .struct _ _ => False
  | _ => True

instance (name : Text) : Decidable (Ty.IsParsableName name) :=
  decidable_of_iff (name.toList ≠ [] ∧ name.toList.all TypeText.isNameChar = true ∧ Ty.IsFreeName name ∧
      ¬['.', '.', '.'] <+: name.toList)
    ⟨fun h => ⟨h.1, h.2.1, h.2.2.1, h.2.2.2⟩, fun h => ⟨h.ne_nil, h.chars, h.free, h.no_ellipsis⟩⟩

instance : DecidablePred Alt.IsParsable := fun a =>
  match a with
  | .custom name _ => inferInstanceAs (Decidable (Ty.IsParsableName name))
  | .function sig => decidable_of_iff (sig.isNone = true) Option.isNone_iff_eq_none
  | .struct _ _ => inferInstanceAs (Decidable False)
  | .any | .prim _ | .list _ | .tuple _ | .tupleOf _ | .dict _ _ | .iterable _ => inferInstanceAs (Decidable True)

/-- Every alternative of a type and of the types inside it can be read. -/
def Ty.Parsable : Ty → Prop := Ty.Everywhere fun t => ∀ a ∈ t.alts, a.IsParsable

/-- An alternative that carries no host. -/
def Alt.IsHostless : Alt → Prop
  | .custom _ host => host = none
  | _ => True

instance : DecidablePred Alt.IsHostless := fun a =>
  match a with
  | .custom _ host => decidable_of_iff (host.isNone = true) Option.isNone_iff_eq_none
  | .function _ | .struct _ _ | .any | .prim _ | .list _ | .tuple _ | .tupleOf _ | .dict _ _ | .iterable _ =>
      inferInstanceAs (Decidable True)

/-- No alternative of a type and of the types inside it carries a host. -/
def Ty.Hostless : Ty → Prop := Ty.Everywhere fun t => ∀ a ∈ t.alts, a.IsHostless

theorem Ty.Hostless.bare_eq {t : Ty} (h : t.Hostless) : t.bare = t := by
  induction h with
  | @intro t here _ ih =>
      apply Ty.eq_of_alts_eq
      rw [Ty.alts_strip]
      calc t.alts.map Alt.bare = t.alts.map id := List.map_congr_left fun a ha => ?_
        _ = t.alts := List.map_id t.alts
      have hparts : ∀ u ∈ a.parts, u.bare = u := ih a ha
      cases a with
      | custom name host =>
          have hhost : host = .none := here _ ha
          rw [Alt.bare, Alt.strip, hhost, id]
      | list elem | tupleOf elem | iterable elem => simp [Alt.strip, hparts elem (by simp [Alt.parts])]
      | dict key value =>
          simp [Alt.strip, hparts key (by simp [Alt.parts]), hparts value (by simp [Alt.parts])]
      | tuple elems =>
          have helems : elems.map Ty.bare = elems.map id := List.map_congr_left hparts
          simp [Alt.strip, Ty.stripEach_eq_map, helems]
      | struct fields isOpen =>
          have hfields : (fields.map fun f => (f.1, f.2.bare)) = fields.map id := List.map_congr_left fun f hf =>
            Prod.ext rfl (hparts f.2 (List.mem_map_of_mem hf))
          simp [Alt.strip, Ty.stripFields_eq_map, hfields]
      | function sig => cases sig <;> rfl
      | any | prim p => rfl

/-! ### Tokens -/

namespace TypeText

theorem not_isLatinSpace_of_isNameChar {c : Char} (h : isNameChar c = true) : Text.isLatinSpace c = false := by
  rw [Bool.eq_false_iff]
  intro hspace
  simp only [Text.isLatinSpace, Bool.or_eq_true, Bool.and_eq_true, beq_iff_eq, decide_eq_true_eq,
    ← Char.toNat_inj] at hspace
  simp only [isNameChar, isLetter] at h
  delta Char.isAlpha Char.isUpper Char.isLower at h
  simp only [Char.isDigit, Bool.or_eq_true, Bool.and_eq_true, beq_iff_eq, decide_eq_true_eq, bne_iff_ne,
    UInt32.le_iff_toNat_le, ge_iff_le, ← Char.toNat_inj] at h
  simp only [Char.toNat, Char.reduceVal, UInt32.reduceToNat] at h hspace
  omega

theorem skip_eq_self {c : Char} {r : List Char} (h : Text.isLatinSpace c = false) : skip (c :: r) = c :: r := by
  simp [skip, h]

theorem skip_blank (r : List Char) : skip (' ' :: r) = skip r := rfl

theorem consume_of_skip {first : Char} {more s r : List Char} (h : skip s = first :: (more ++ r)) :
    ∃ hlt, consume first more s = some ⟨r, hlt⟩ := by
  have hlt : r.length < s.length := by
    have hle := length_skip_le s
    simp only [h, List.length_cons, List.length_append] at hle
    omega
  unfold consume
  split
  · next hs => rw [hs] at h; cases h
  · next c rest hs =>
      rw [hs] at h
      obtain ⟨rfl, rfl⟩ := List.cons.inj h
      simp [hlt]

theorem consume_char {c : Char} {s r : List Char} (h : skip s = c :: r) : ∃ hlt, consume c [] s = some ⟨r, hlt⟩ :=
  consume_of_skip h

theorem consume_eq_none {first : Char} {more s : List Char} (h : ∀ r, skip s ≠ first :: (more ++ r)) :
    consume first more s = none := by
  unfold consume
  split
  · rfl
  · next c rest hs =>
      apply if_neg
      rintro ⟨rfl, r, rfl⟩
      exact h r hs

theorem takeName_of_skip {s name r : List Char} (h : skip s = name ++ r) (hname : name.all isNameChar = true)
    (hr : Text.Follows (fun c => !isNameChar c) r) : takeName s = (name, r) := by
  have hstop : r.takeWhile isNameChar = [] ∧ r.dropWhile isNameChar = r := by
    cases r with
    | nil => exact ⟨rfl, rfl⟩
    | cons c r =>
        have hc : isNameChar c = false := by simpa using hr c rfl
        simp [hc]
  have hall : ∀ c ∈ name, isNameChar c = true := List.all_eq_true.mp hname
  simp [takeName, h, List.takeWhile_append_of_pos hall, List.dropWhile_append_of_pos hall, hstop]

/-! ### What can follow -/

/-- What cannot go on with a term that ends before it. -/
structure EndsTerm (r : List Char) : Prop where
  no_name : Text.Follows (fun c => !isNameChar c) r
  no_bracket : ∀ q, skip r ≠ '[' :: q

/-- What cannot go on with a union that ends before it. -/
structure EndsUnion (r : List Char) : Prop extends EndsTerm r where
  no_bar : ∀ q, skip r ≠ '|' :: q

theorem endsUnion_nil : EndsUnion [] where
  no_name := Text.follows_nil _
  no_bracket _ h := List.cons_ne_nil _ _ h.symm
  no_bar _ h := List.cons_ne_nil _ _ h.symm

theorem endsUnion_cons {c : Char} {r : List Char} (h : c = ',' ∨ c = ']') : EndsUnion (c :: r) := by
  have hskip : skip (c :: r) = c :: r := by
    apply skip_eq_self
    rcases h with rfl | rfl <;> rfl
  refine ⟨⟨Text.follows_cons ?_, ?_⟩, ?_⟩
  · rcases h with rfl | rfl <;> rfl
  · intro q hq
    rw [hskip] at hq
    rcases h with rfl | rfl <;> cases hq
  · intro q hq
    rw [hskip] at hq
    rcases h with rfl | rfl <;> cases hq

theorem endsTerm_bar (r : List Char) : EndsTerm (' ' :: '|' :: r) where
  no_name := Text.follows_cons rfl
  no_bracket q hq := by
    rw [skip_blank, skip_eq_self rfl] at hq
    cases hq

theorem not_ellipsis_append {name r : List Char} (hname : ¬['.', '.', '.'] <+: name)
    (hr : Text.Follows (fun c => !isNameChar c) r) : ¬['.', '.', '.'] <+: name ++ r := by
  have hdot : ∀ q, r ≠ '.' :: q := by
    rintro q rfl
    exact absurd (hr '.' rfl) (by decide)
  rintro ⟨q, hq⟩
  rcases name with _ | ⟨a, _ | ⟨b, _ | ⟨c, rest⟩⟩⟩
  · exact hdot _ hq.symm
  · exact hdot _ (List.cons.inj hq).2.symm
  · exact hdot _ (List.cons.inj (List.cons.inj hq).2).2.symm
  · simp only [List.cons_append, List.nil_append, List.cons.injEq] at hq
    obtain ⟨rfl, rfl, rfl, -⟩ := hq
    exact hname ⟨rest, rfl⟩

/-! ### Readers -/

/-- Reading succeeds, with a value and what is left. -/
def Reads {α : Type} {P : List Char → Prop} (read : Except Stop (α × { r : List Char // P r })) (a : α)
    (r : List Char) : Prop := ∃ h, read = .ok (a, ⟨r, h⟩)

theorem reads_union {s s₁ s₂ : List Char} {first : Ty} {others : List Ty} (hfirst : Reads (term s) first s₁)
    (hothers : Reads (members s₁) others s₂) : Reads (union s) (Ty.union (first :: others)) s₂ := by
  obtain ⟨h₁, hfirst⟩ := hfirst
  obtain ⟨h₂, hothers⟩ := hothers
  refine ⟨by omega, ?_⟩
  rw [union, hfirst]
  show (members s₁ >>= _) = _
  rw [hothers]
  rfl

theorem reads_members_nil {s : List Char} (h : ∀ q, skip s ≠ '|' :: q) : Reads (members s) [] s := by
  refine ⟨by omega, ?_⟩
  rw [members, consume_eq_none h]
  rfl

theorem reads_members_cons {s s₁ s₂ s₃ : List Char} {t : Ty} {others : List Ty} (h : skip s = '|' :: s₁)
    (ht : Reads (term s₁) t s₂) (hothers : Reads (members s₂) others s₃) :
    Reads (members s) (t :: others) s₃ := by
  obtain ⟨hlt, hbar⟩ := consume_char h
  obtain ⟨h₂, ht⟩ := ht
  obtain ⟨h₃, hothers⟩ := hothers
  refine ⟨by omega, ?_⟩
  rw [members, hbar]
  show (term s₁ >>= _) = _
  rw [ht]
  show (members s₂ >>= _) = _
  rw [hothers]
  rfl

section Terms

variable {s r : List Char} {name : Text} (hne : name.toList ≠ []) (hchars : name.toList.all isNameChar = true)
include hne hchars

theorem reads_term_name (hs : skip s = name.toList ++ r) (hr : EndsTerm r) :
    Reads (term s) (Ty.ofName name [] false) r := by
  have htake := takeName_of_skip hs hchars hr.no_name
  rw [term]
  split
  · next hnil => rw [htake] at hnil; exact absurd (congrArg Prod.fst hnil) hne
  · next c cs s₁ hcons =>
      rw [htake] at hcons
      obtain ⟨hname, rfl⟩ := Prod.mk.inj hcons
      obtain rfl : name = String.ofList (c :: cs) := by rw [← hname, String.ofList_toList]
      rw [consume_eq_none hr.no_bracket]
      exact ⟨_, rfl⟩

theorem reads_term_bracket {p q : List Char} {args : List Ty} {variadic : Bool}
    (hs : skip s = name.toList ++ p) (hp : Text.Follows (fun c => !isNameChar c) p) (hopen : skip p = '[' :: q)
    (hq : ∀ rest, skip q ≠ '(' :: ')' :: rest) (hargs : ∃ h, arguments q = .ok (args, variadic, ⟨r, h⟩)) :
    Reads (term s) (Ty.ofName name args variadic) r := by
  have htake := takeName_of_skip hs hchars hp
  obtain ⟨hlt, hopen⟩ := consume_char hopen
  obtain ⟨h₃, hargs⟩ := hargs
  rw [term]
  split
  · next hnil => rw [htake] at hnil; exact absurd (congrArg Prod.fst hnil) hne
  · next c cs s₁ hcons =>
      rw [htake] at hcons
      obtain ⟨hname, rfl⟩ := Prod.mk.inj hcons
      obtain rfl : name = String.ofList (c :: cs) := by rw [← hname, String.ofList_toList]
      have hunit : (if String.ofList (c :: cs) = "tuple" then consume '(' [')'] q else none) = none := by
        split
        · exact consume_eq_none hq
        · rfl
      simp only [hopen, hunit, hargs]
      exact ⟨_, rfl⟩

end Terms

theorem reads_term_unit {s s₁ s₂ s₃ r : List Char} (hs : skip s = "tuple".toList ++ s₁)
    (hs₁ : Text.Follows (fun c => !isNameChar c) s₁) (hopen : skip s₁ = '[' :: s₂)
    (hunit : skip s₂ = '(' :: ([')'] ++ s₃)) (hclose : skip s₃ = ']' :: r) : Reads (term s) (.tuple []) r := by
  have htake := takeName_of_skip hs (by decide) hs₁
  obtain ⟨h₂, hopen⟩ := consume_char hopen
  obtain ⟨h₃, hunit⟩ := consume_of_skip hunit
  obtain ⟨h₄, hclose⟩ := consume_char hclose
  rw [term]
  split
  · next hnil => rw [htake] at hnil; cases hnil
  · next c cs s₁ hcons =>
      rw [htake] at hcons
      obtain ⟨hname, rfl⟩ := Prod.mk.inj hcons
      have htuple : String.ofList (c :: cs) = "tuple" := by rw [← hname]; rfl
      simp only [hopen, htuple, if_true, hunit, hclose]
      exact ⟨_, rfl⟩

/-! ### Arguments -/

/-- What reading one argument gives: nothing for an ellipsis, else a type. -/
inductive ReadsArg (s : List Char) : Option Ty → List Char → Prop
  | ellipsis {r : List Char} (h : skip s = '.' :: (['.', '.'] ++ r)) : ReadsArg s none r
  | type {t : Ty} {r : List Char} (h : ∀ q, skip s ≠ '.' :: (['.', '.'] ++ q)) (ht : Reads (union s) t r) :
      ReadsArg s (some t) r

theorem arguments_last {s s₁ r : List Char} {arg : Option Ty} (harg : ReadsArg s arg s₁)
    (hclose : skip s₁ = ']' :: r) : ∃ h, arguments s = .ok (arg.toList, arg.isNone, ⟨r, h⟩) := by
  obtain ⟨h₂, hclose⟩ := consume_char hclose
  cases harg with
  | ellipsis h =>
      obtain ⟨h₁, hdots⟩ := consume_of_skip h
      refine ⟨by omega, ?_⟩
      rw [arguments, hdots]
      simp only [bind, Except.bind, pure, Except.pure, hclose]
  | type h ht =>
      obtain ⟨h₁, ht⟩ := ht
      refine ⟨by omega, ?_⟩
      rw [arguments, consume_eq_none h, ht]
      simp only [bind, Except.bind, pure, Except.pure, hclose]

theorem arguments_more {s s₁ s₂ r : List Char} {arg : Option Ty} {args : List Ty} {variadic : Bool}
    (harg : ReadsArg s arg s₁) (hcomma : skip s₁ = ',' :: s₂)
    (hargs : ∃ h, arguments s₂ = .ok (args, variadic, ⟨r, h⟩)) :
    ∃ h, arguments s = .ok (arg.toList ++ args, arg.isNone || variadic, ⟨r, h⟩) := by
  have hopen : consume ']' [] s₁ = none := by
    apply consume_eq_none
    simp [hcomma]
  obtain ⟨h₂, hcomma⟩ := consume_char hcomma
  obtain ⟨h₃, hargs⟩ := hargs
  cases harg with
  | ellipsis h =>
      obtain ⟨h₁, hdots⟩ := consume_of_skip h
      refine ⟨by omega, ?_⟩
      rw [arguments, hdots]
      simp only [bind, Except.bind, pure, Except.pure, hopen, hcomma, hargs]
  | type h ht =>
      obtain ⟨h₁, ht⟩ := ht
      refine ⟨by omega, ?_⟩
      rw [arguments, consume_eq_none h, ht]
      simp only [bind, Except.bind, pure, Except.pure, hopen, hcomma, hargs]

/-! ### Types -/

/-- A text that begins with a name which is no ellipsis. -/
def BeginsName (x : List Char) : Prop :=
  ∃ name r : List Char, x = name ++ r ∧ name ≠ [] ∧ name.all isNameChar = true ∧ ¬['.', '.', '.'] <+: name ∧
    Text.Follows (fun c => !isNameChar c) r

theorem BeginsName.skip_eq {x : List Char} (h : BeginsName x) : skip x = x := by
  obtain ⟨name, r, rfl, hne, hchars, -, -⟩ := h
  obtain ⟨c, name, rfl⟩ := List.exists_cons_of_ne_nil hne
  simp only [List.all_cons, Bool.and_eq_true] at hchars
  exact skip_eq_self (not_isLatinSpace_of_isNameChar hchars.1)

theorem BeginsName.ne_ellipsis {x : List Char} (h : BeginsName x) (q : List Char) :
    x ≠ '.' :: (['.', '.'] ++ q) := by
  obtain ⟨name, r, rfl, -, -, hdots, hr⟩ := h
  intro heq
  exact not_ellipsis_append hdots hr ⟨q, heq.symm⟩

theorem BeginsName.ne_unit {x : List Char} (h : BeginsName x) (q : List Char) : x ≠ '(' :: ')' :: q := by
  obtain ⟨name, r, rfl, hne, hchars, -, -⟩ := h
  obtain ⟨c, name, rfl⟩ := List.exists_cons_of_ne_nil hne
  intro heq
  simp only [List.all_cons, Bool.and_eq_true] at hchars
  rw [(List.cons.inj heq).1] at hchars
  exact absurd hchars.1 (by decide)

/-- A type is read back by name from its text, wherever that stands. -/
structure ReadsBack (t : Ty) : Prop where
  begins : ∀ r, EndsUnion r → BeginsName (t.text.toList ++ r)
  reads : ∀ s r, EndsUnion r → skip s = t.text.toList ++ r → Reads (union s) t.bare r

/-- An argument as it is printed; none is an ellipsis. -/
def argText : Option Ty → Text
  | none => "..."
  | some t => t.text

theorem readsArg_argText {arg : Option Ty} (hback : ∀ t ∈ arg, ReadsBack t) {s r : List Char} (hr : EndsUnion r)
    (hs : skip s = (argText arg).toList ++ r) : ReadsArg s (arg.map Ty.bare) r := by
  cases arg with
  | none => exact .ellipsis hs
  | some t =>
      have ht := hback t rfl
      refine .type ?_ (ht.reads s r hr hs)
      rw [hs]
      exact (ht.begins r hr).ne_ellipsis

theorem skip_argText {arg : Option Ty} (hback : ∀ t ∈ arg, ReadsBack t) {r : List Char} (hr : EndsUnion r) :
    skip ((argText arg).toList ++ r) = (argText arg).toList ++ r := by
  cases arg with
  | none => rfl
  | some t => exact ((hback t rfl).begins r hr).skip_eq

theorem skip_join {arg : Option Ty} (hback : ∀ t ∈ arg, ReadsBack t) (args : List (Option Ty)) (r : List Char) :
    skip ((Text.join ", " ((arg :: args).map argText)).toList ++ ']' :: r) =
      (Text.join ", " ((arg :: args).map argText)).toList ++ ']' :: r := by
  cases args with
  | nil => exact skip_argText hback (endsUnion_cons (Or.inr rfl))
  | cons arg' args =>
      simp only [List.map_cons, Text.toList_join_cons_cons, List.append_assoc]
      exact skip_argText hback (endsUnion_cons (Or.inl rfl))

theorem arguments_join (arg : Option Ty) (args : List (Option Ty)) (hback : ∀ a ∈ arg :: args, ∀ t ∈ a, ReadsBack t)
    {s r : List Char} (hs : skip s = (Text.join ", " ((arg :: args).map argText)).toList ++ ']' :: r) :
    ∃ h, arguments s = .ok ((arg :: args).filterMap (·.map Ty.bare), (arg :: args).any (·.isNone), ⟨r, h⟩) := by
  induction args generalizing arg s with
  | nil =>
      have harg := readsArg_argText (hback arg List.mem_cons_self) (endsUnion_cons (Or.inr rfl)) hs
      have hlast := arguments_last harg (skip_eq_self rfl)
      cases arg <;> exact hlast
  | cons arg' args ih =>
      simp only [List.map_cons, Text.toList_join_cons_cons, List.append_assoc] at hs
      have harg := readsArg_argText (hback arg List.mem_cons_self) (endsUnion_cons (Or.inl rfl)) hs
      -- What is left begins with the blank after the comma.
      have hblank : skip (' ' :: ((Text.join ", " ((arg' :: args).map argText)).toList ++ ']' :: r)) =
          (Text.join ", " ((arg' :: args).map argText)).toList ++ ']' :: r := by
        rw [skip_blank]
        exact skip_join (hback arg' mem_second) args r
      have hrest := ih arg' (fun a ha => hback a (List.mem_cons_of_mem arg ha)) hblank
      have hmore := arguments_more harg (skip_eq_self rfl) hrest
      cases arg <;> exact hmore

theorem reads_term_join {s r : List Char} {name : Text} (hne : name.toList ≠ [])
    (hchars : name.toList.all isNameChar = true) {t : Ty} {args : List (Option Ty)}
    (hback : ∀ a ∈ some t :: args, ∀ u ∈ a, ReadsBack u)
    (hs : skip s = name.toList ++ ('[' :: (Text.join ", " ((some t :: args).map argText)).toList ++ [']']) ++ r) :
    Reads (term s)
      (Ty.ofName name ((some t :: args).filterMap (·.map Ty.bare)) ((some t :: args).any (·.isNone))) r := by
  have hskip := skip_join (hback (some t) List.mem_cons_self) args r
  have hs : skip s = name.toList ++ '[' :: ((Text.join ", " ((some t :: args).map argText)).toList ++ ']' :: r) := by
    simpa using hs
  refine reads_term_bracket hne hchars hs (Text.follows_cons rfl) (skip_eq_self rfl) ?_ ?_
  · intro p
    rw [hskip]
    have ht := hback _ List.mem_cons_self t rfl
    cases args with
    | nil => exact (ht.begins _ (endsUnion_cons (Or.inr rfl))).ne_unit p
    | cons arg' args =>
        simp only [List.map_cons, Text.toList_join_cons_cons, List.append_assoc]
        exact (ht.begins _ (endsUnion_cons (Or.inl rfl))).ne_unit p
  · exact arguments_join (some t) args hback hskip

end TypeText

namespace Alt

open TypeText

theorem IsParsable.ne_signature {a : Alt} (h : a.IsParsable) (sig : Signature) : a ≠ .function (some sig) := by
  rintro rfl
  cases h

theorem IsParsable.kind_chars {a : Alt} (h : a.IsParsable) :
    a.kind.toList ≠ [] ∧ a.kind.toList.all isNameChar = true ∧ ¬['.', '.', '.'] <+: a.kind.toList := by
  cases a with
  | custom name host => exact ⟨h.ne_nil, h.chars, h.no_ellipsis⟩
  | prim p => cases p <;> decide
  | struct fields isOpen => cases h
  | _ => rw [kind]; decide

theorem follows_detail_append (a : Alt) {r : List Char} (hr : Text.Follows (fun c => !isNameChar c) r) :
    Text.Follows (fun c => !isNameChar c) (a.detail ++ r) := by
  cases a with
  | any | prim p | function sig | custom name host => exact hr
  | _ => exact Text.follows_cons rfl

theorem IsParsable.begins {a : Alt} (h : a.IsParsable) {r : List Char} (hr : EndsTerm r) :
    BeginsName (a.text.toList ++ r) := by
  obtain ⟨hne, hchars, hdots⟩ := h.kind_chars
  refine ⟨a.kind.toList, a.detail ++ r, ?_, hne, hchars, hdots, follows_detail_append a hr.no_name⟩
  rw [toList_text_of_ne h.ne_signature, List.append_assoc]

theorem IsParsable.reads_term {a : Alt} (h : a.IsParsable) (hparts : ∀ t ∈ a.parts, ReadsBack t) {s r : List Char}
    (hr : EndsTerm r) (hs : skip s = a.text.toList ++ r) : Reads (term s) (.only a.bare) r := by
  obtain ⟨hne, hchars, -⟩ := h.kind_chars
  have hname : a.detail = [] → Reads (term s) (Ty.ofName a.kind [] false) r := by
    intro hdetail
    rw [toList_text_of_ne h.ne_signature, hdetail, List.append_nil] at hs
    exact reads_term_name hne hchars hs hr
  have hjoin : ∀ (t : Ty) (args : List (Option Ty)), (∀ x ∈ some t :: args, ∀ u ∈ x, u ∈ a.parts) →
      a.detail = '[' :: (Text.join ", " ((some t :: args).map argText)).toList ++ [']'] →
      Reads (term s)
        (Ty.ofName a.kind ((some t :: args).filterMap (·.map Ty.bare)) ((some t :: args).any (·.isNone))) r := by
    intro t args hitems hdetail
    rw [toList_text_of_ne h.ne_signature, hdetail] at hs
    exact reads_term_join hne hchars (fun x hx u hu => hparts u (hitems x hx u hu)) hs
  cases a with
  | any => exact hname rfl
  | prim p => cases p <;> exact hname rfl
  | function sig =>
      cases h
      exact hname rfl
  | custom name host =>
      have hfree : Ty.ofName name [] false = .named name := h.free
      have hread := hname rfl
      rwa [kind, hfree] at hread
  | struct fields isOpen => cases h
  | list elem => exact hjoin elem [] (by simp [parts]) rfl
  | iterable elem => exact hjoin elem [] (by simp [parts]) rfl
  | dict key value => exact hjoin key [some value] (by simp [parts]) rfl
  | tupleOf elem => exact hjoin elem [none] (by simp [parts]) rfl
  | tuple elems =>
      cases elems with
      | nil =>
          have hs : skip s = "tuple".toList ++ '[' :: '(' :: ')' :: ']' :: r := hs
          exact reads_term_unit hs (Text.follows_cons rfl) (skip_eq_self rfl) (skip_eq_self rfl) (skip_eq_self rfl)
      | cons t rest =>
          have hargs : (some t :: rest.map some).map argText = Ty.texts (t :: rest) := by
            simp [Ty.texts_eq_map, argText]
          have hitems : ∀ x ∈ some t :: rest.map some, ∀ u ∈ x, u ∈ t :: rest := by
            simp only [List.mem_cons, List.mem_map]
            rintro x (rfl | ⟨u, hu, rfl⟩) v hv
            · exact Or.inl (Option.mem_some.mp hv).symm
            · exact Or.inr (Option.mem_some.mp hv ▸ hu)
          have hread := hjoin t (rest.map some) hitems (by rw [hargs]; rfl)
          have hbare : (some t :: rest.map some).filterMap (·.map Ty.bare) = Ty.stripEach false (t :: rest) := by
            simp [Ty.stripEach_eq_map, List.filterMap_map]
          have hfixed : (some t :: rest.map some).any (·.isNone) = false := by simp
          rw [hbare, hfixed] at hread
          cases rest with
          | nil => exact hread
          | cons u rest => exact hread

end Alt

namespace Ty

open TypeText

theorem reads_members {a : Alt} {rest : List Alt} (h : ∀ b ∈ a :: rest, b.IsParsable)
    (hparts : ∀ b ∈ a :: rest, ∀ t ∈ b.parts, ReadsBack t) {r : List Char} (hr : EndsUnion r) :
    ∃ q, EndsTerm q ∧ (Text.join " | " ((a :: rest).map Alt.text)).toList ++ r = a.text.toList ++ q ∧
      Reads (members q) (rest.map fun b => .only b.bare) r := by
  induction rest generalizing a with
  | nil => exact ⟨r, hr.toEndsTerm, rfl, reads_members_nil hr.no_bar⟩
  | cons b rest ih =>
      obtain ⟨q, hq, htext, hmembers⟩ := ih (fun c hc => h c (List.mem_cons_of_mem a hc))
        (fun c hc => hparts c (List.mem_cons_of_mem a hc))
      have hb : b ∈ a :: b :: rest := mem_second
      refine ⟨' ' :: '|' :: ' ' :: (b.text.toList ++ q), endsTerm_bar _, ?_, ?_⟩
      · rw [List.map_cons, List.map_cons, Text.toList_join_cons_cons, List.append_assoc]
        rw [List.map_cons] at htext
        simp [htext]
      · have hbar : skip (' ' :: '|' :: ' ' :: (b.text.toList ++ q)) = '|' :: ' ' :: (b.text.toList ++ q) := by
          rw [skip_blank, skip_eq_self rfl]
        refine reads_members_cons hbar ?_ hmembers
        · apply (h b hb).reads_term (hparts b hb) hq
          rw [skip_blank]
          exact ((h b hb).begins hq).skip_eq

theorem union_map_only (alts : List Alt) : union (alts.map only) = ofAlts alts := by
  rw [union, List.flatMap_map]
  exact congrArg ofAlts (List.flatMap_singleton' alts)

theorem readsBack {t : Ty} (h : t.Everywhere fun t => t.IsNormalUnion ∧ ∀ a ∈ t.alts, a.IsParsable) :
    ReadsBack t := by
  induction h with
  | @intro t here _ ih =>
      obtain ⟨hnormal, hparsable⟩ := here
      by_cases hnever : t.alts = []
      · obtain rfl : t = never := Ty.eq_of_alts_eq hnever
        refine ⟨fun r hr => ?_, fun s r hr hs => ?_⟩
        · exact ⟨"Never".toList, r, rfl, by decide, by decide, by decide, hr.no_name⟩
        · have hs : skip s = "Never".toList ++ r := hs
          have hterm := reads_term_name (by decide) (by decide) hs hr.toEndsTerm
          exact reads_union hterm (reads_members_nil hr.no_bar)
      · obtain ⟨a, rest, halts⟩ := List.exists_cons_of_ne_nil hnever
        have ha : a ∈ t.alts := by rw [halts]; exact List.mem_cons_self
        have htext := text_eq_join hnever
        rw [halts] at htext
        refine ⟨fun r hr => ?_, fun s r hr hs => ?_⟩
        all_goals
          obtain ⟨q, hq, hjoin, hmembers⟩ := reads_members (halts ▸ hparsable) (halts ▸ ih) hr
        · rw [htext, hjoin]
          exact (hparsable a ha).begins hq
        · rw [htext, hjoin] at hs
          have hread := reads_union ((hparsable a ha).reads_term (ih a ha) hq hs) hmembers
          have hbare : (Ty.only a.bare :: rest.map fun b => .only b.bare) = t.bare.alts.map only := by
            simp [alts_strip, halts]
          rwa [hbare, union_map_only, ofAlts_alts (hnormal.strip false)] at hread

/-- Reading the text of a type gives the type by names only. A type without hosts is read back as it is. -/
theorem parse_text_eq {t : Ty} (hnormal : t.Normal) (h : t.Parsable) :
    Ty.parse t.text = .ok t.bare ∧ (t.Hostless → Ty.parse t.text = .ok t) := by
  have hback := readsBack (hnormal.and h)
  have hskip : skip t.text.toList = t.text.toList ++ [] := by
    have hbegins := hback.begins [] endsUnion_nil
    rw [List.append_nil] at hbegins ⊢
    exact hbegins.skip_eq
  obtain ⟨hlt, hread⟩ := hback.reads t.text.toList [] endsUnion_nil hskip
  have hparse : Ty.parse t.text = .ok t.bare := by
    rw [parse, hread]
    rfl
  refine ⟨hparse, fun hhostless => ?_⟩
  rw [hparse, hhostless.bare_eq]

/-- A union of all that needs care: names with dots, the two kinds of tuples, one without elements, and the
empty union inside. -/
def dotted : Ty :=
  ⟨[.dict .str ⟨[.custom ".." .none, .custom "lib.Rule" .none]⟩, .function .none, .list .any, .tuple [],
    .tupleOf .never, .tuple [.int]]⟩

theorem parse_text_eq_dotted :
    Ty.parse "dict[str, .. | lib.Rule] | function | list[Any] | tuple[()] | tuple[Never, ...] | tuple[int]" =
      .ok dotted ∧
    Ty.parse "list[Rule]" = .ok (.list (.named "Rule")) := by
  have hdotted := @parse_text_eq dotted (everywhere_of_holdsInside 3 (by decide +kernel))
    (everywhere_of_holdsInside 3 (by decide +kernel))
  have hhost := @parse_text_eq (.list (.only (.custom "Rule" (some ⟨.none, .none, .none, .none⟩))))
    (everywhere_of_holdsInside 2 (by decide +kernel)) (everywhere_of_holdsInside 2 (by decide +kernel))
  have htext : dotted.text =
      "dict[str, .. | lib.Rule] | function | list[Any] | tuple[()] | tuple[Never, ...] | tuple[int]" := by
    decide +kernel
  refine ⟨?_, hhost.1⟩
  rw [← htext]
  exact hdotted.2 (everywhere_of_holdsInside 3 (by decide +kernel))

end Ty

end Gradual
