import Gradual.Proofs.JsonText
import Mathlib.Data.List.Forall2

/-! Written JSON is read back. A value whose strings are UTF-8 and whose numbers are integers is read from
its text, in either dialect and with either escaping. Where blanks may stand there may be a gap; the indented
text and the compact one differ in their gaps only. -/

namespace Gradual.Json

/-- A value whose strings are UTF-8 and whose numbers are integers. -/
inductive Writable : Json → Prop
  | null : Writable .null
  | bool (b : Bool) : Writable (.bool b)
  | int (n : Int) : Writable (.int n)
  | str {t : Text} (ht : t.isUtf8 = true) : Writable (.str t)
  | arr {js : List Json} (h : ∀ j ∈ js, Writable j) : Writable (.arr js)
  | obj {ms : List (Text × Json)} (hnames : ∀ m ∈ ms, m.1.isUtf8 = true) (h : ∀ m ∈ ms, Writable m.2) :
      Writable (.obj ms)

/-- A text begins with a character that is no blank and closes nothing. -/
def Solid (text : List Char) : Prop :=
  ∃ c r, text = c :: r ∧ isBlank c = false ∧ c ≠ '/' ∧ c ≠ ']' ∧ c ≠ '\x7d'

theorem Solid.append {text : List Char} (h : Solid text) (rest : List Char) : Solid (text ++ rest) := by
  obtain ⟨c, r, rfl, hc⟩ := h
  exact ⟨c, r ++ rest, rfl, hc⟩

theorem Solid.skip {text : List Char} (h : Solid text) (dialect : Dialect) :
    skip dialect .blank text = some text := by
  obtain ⟨c, r, rfl, hblank, hslash, -⟩ := h
  exact skip_solid dialect hblank hslash r

theorem Solid.ne_bracket {text : List Char} (h : Solid text) (r : List Char) : text ≠ ']' :: r := by
  obtain ⟨c, r', rfl, -, -, hc, -⟩ := h
  exact fun heq => hc (List.cons.inj heq).1

theorem Solid.ne_brace {text : List Char} (h : Solid text) (r : List Char) : text ≠ '\x7d' :: r := by
  obtain ⟨c, r', rfl, -, -, -, hc⟩ := h
  exact fun heq => hc (List.cons.inj heq).1

theorem solid_writtenString (escaping : Escaping) (t : Text) : Solid (writtenString escaping t).toList := by
  rw [writtenString, String.toList_ofList]
  exact ⟨'"', _, rfl, rfl, by decide, by decide, by decide⟩

theorem solid_toString (n : Int) : Solid (toString n).toList := by
  rw [toList_toString, signOf]
  split
  · exact ⟨'-', _, rfl, rfl, by decide, by decide, by decide⟩
  · cases hd : Nat.toDigits 10 n.natAbs with
    | nil => exact absurd hd (toDigits_ne_nil _)
    | cons d ds =>
        have hdigit : d.isDigit = true := isDigit_of_mem_toDigits (hd ▸ List.mem_cons_self)
        refine ⟨d, ds, rfl, ?_, ?_, ?_, ?_⟩
        · cases hb : isBlank d with
          | false => rfl
          | true =>
              simp only [isBlank, Bool.or_eq_true, beq_iff_eq] at hb
              rcases hb with ((rfl | rfl) | rfl) | rfl <;> cases hdigit
        all_goals
          rintro rfl
          cases hdigit

/-- A run of blanks. -/
def IsGap (gap : Text) : Prop := ∀ c ∈ gap.toList, isBlank c = true

theorem isGap_empty : IsGap "" := List.forall_mem_nil _

theorem isGap_newline (level : Nat) : IsGap (newline level) := by
  intro c hc
  rw [newline, String.toList_ofList] at hc
  rcases List.mem_cons.mp hc with rfl | hc
  · rfl
  · rw [List.eq_of_mem_replicate hc]
    rfl

theorem skip_gap (dialect : Dialect) {gap : List Char} (h : ∀ c ∈ gap, isBlank c = true) (rest : List Char) :
    skip dialect .blank (gap ++ rest) = skip dialect .blank rest := by
  induction gap with
  | nil => rfl
  | cons c gap ih =>
      obtain ⟨hc, hgap⟩ := List.forall_mem_cons.mp h
      have hslash : c ≠ '/' := by
        rintro rfl
        cases hc
      rw [List.cons_append, skip]
      · rw [hc]
        exact ih hgap
      · exact fun _ h => absurd h hslash
      · exact fun _ h => absurd h hslash

theorem endsNumber_gap {gap : List Char} (h : ∀ c ∈ gap, isBlank c = true) {rest : List Char}
    (hrest : EndsNumber rest) : EndsNumber (gap ++ rest) := by
  cases gap with
  | nil => exact hrest
  | cons c gap =>
      have hc := h c List.mem_cons_self
      simp only [isBlank, Bool.or_eq_true, beq_iff_eq] at hc
      intro d hd
      cases hd
      rcases hc with ((rfl | rfl) | rfl) | rfl <;> decide

theorem endsNumber_cons {c : Char} (h : c = ',' ∨ c = ']' ∨ c = '\x7d') (rest : List Char) :
    EndsNumber (c :: rest) := by
  intro d hd
  cases hd
  rcases h with rfl | rfl | rfl <;> decide

section Layouts

variable {dialect : Dialect} {escaping : Escaping} {α : Type} {gap last : Text} {texts : List Text} {j : Json}

/-- A text from which a value is read, whatever follows the text. -/
structure IsTextOf (dialect : Dialect) (text : Text) (j : Json) : Prop where
  solid : Solid text.toList
  reads : ∀ rest, EndsNumber rest → Gives (value dialect (text.toList ++ rest)) j rest

/-- A text from which a member is read: its name, a colon and its value. -/
inductive IsTextOfMember (dialect : Dialect) (escaping : Escaping) : Text → Text × Json → Prop
  | intro {name gap text : Text} {j : Json} (hname : name.isUtf8 = true) (hgap : IsGap gap)
      (htext : IsTextOf dialect text j) :
      IsTextOfMember dialect escaping (writtenString escaping name ++ ":" ++ gap ++ text) (name, j)

theorem IsTextOfMember.solid {text : Text} {m : Text × Json} (h : IsTextOfMember dialect escaping text m) :
    Solid text.toList := by
  cases h with
  | intro hname hgap htext =>
      simp only [String.toList_append, List.append_assoc]
      exact (solid_writtenString escaping _).append _

theorem continues_last {Read : List Char → List α → List Char → Prop} {close : Char} (hgap : IsGap gap)
    (hblank : isBlank close = false) (hslash : close ≠ '/') (rest : List Char) :
    Continues dialect close Read (gap.toList ++ close :: rest) [] rest :=
  .last (by rw [skip_gap dialect hgap, skip_solid dialect hblank hslash])

theorem continues_more {Read : List Char → List α → List Char → Prop} {close : Char} (hgap : IsGap gap)
    {text rest : List Char} {as : List α} (hsolid : Solid text) (hne : ∀ r, text ≠ close :: r)
    (hread : Read text as rest) : Continues dialect close Read (("," ++ gap).toList ++ text) as rest := by
  rw [String.toList_append, List.append_assoc]
  refine .more (skip_solid dialect rfl (by decide) _) ?_ hne hread
  show skip dialect .blank (gap.toList ++ text) = some text
  rw [skip_gap dialect hgap, hsolid.skip]

theorem toList_join_cons (separator t u : Text) (ts : List Text) (rest : List Char) :
    (Text.join separator (t :: u :: ts)).toList ++ rest
      = t.toList ++ (separator.toList ++ ((Text.join separator (u :: ts)).toList ++ rest)) := by
  rw [Text.join]
  · simp only [String.toList_append, List.append_assoc]
  · exact List.cons_ne_nil u ts

theorem solid_join (separator : Text) {t : Text} (ts : List Text) (h : Solid t.toList) (rest : List Char) :
    Solid ((Text.join separator (t :: ts)).toList ++ rest) := by
  cases ts with
  | nil => exact h.append rest
  | cons u ts =>
      rw [toList_join_cons]
      exact h.append _

theorem endsNumber_separator (rest : List Char) : EndsNumber (("," ++ gap).toList ++ rest) := by
  rw [String.toList_append]
  exact endsNumber_cons (Or.inl rfl) _

theorem gives_items {js : List Json} (h : List.Forall₂ (IsTextOf dialect) texts js) (hne : js ≠ [])
    (hgap : IsGap gap) (hlast : IsGap last) (rest : List Char) :
    Gives (items dialect ((Text.join ("," ++ gap) texts).toList ++ (last.toList ++ ']' :: rest))) js rest := by
  induction h with
  | nil => exact absurd rfl hne
  | @cons text j texts js htext hrest ih =>
      cases hrest with
      | nil =>
          exact items_cons (htext.reads _ (endsNumber_gap hlast (endsNumber_cons (Or.inr (Or.inl rfl)) _)))
            (continues_last hlast rfl (by decide) rest)
      | @cons text' j' texts js htext' hrest =>
          have hsolid := solid_join ("," ++ gap) texts htext'.solid
            (last.toList ++ ']' :: rest)
          rw [toList_join_cons]
          exact items_cons (htext.reads _ (endsNumber_separator _))
            (continues_more hgap hsolid hsolid.ne_bracket (ih (List.cons_ne_nil _ _)))

theorem gives_members {ms : List (Text × Json)} (h : List.Forall₂ (IsTextOfMember dialect escaping) texts ms)
    (hne : ms ≠ []) (hgap : IsGap gap) (hlast : IsGap last) (rest : List Char) :
    Gives (members dialect ((Text.join ("," ++ gap) texts).toList ++ (last.toList ++ '\x7d' :: rest))) ms rest := by
  -- One member, before whatever follows its value.
  have hmember : ∀ {text : Text} {m : Text × Json} {after : List Char} {ms : List (Text × Json)},
      IsTextOfMember dialect escaping text m → EndsNumber after →
      Continues dialect '\x7d' (fun s => Gives (members dialect s)) after ms rest →
      Gives (members dialect (text.toList ++ after)) (m :: ms) rest := by
    intro text m after ms hm hends hcontinues
    cases hm with
    | @intro name gap text j hname hgap htext =>
        have hstring := stringBody_writtenString escaping hname (':' :: (gap.toList ++ (text.toList ++ after)))
        have hrepair : Text.repair (String.ofList name.toList) = name := by
          rw [String.ofList_toList, Text.repair_of_isUtf8 hname]
        have hlist : (writtenString escaping name ++ ":" ++ gap ++ text).toList ++ after =
            '"' :: ((Text.toGlyphs name).flatMap (writtenGlyph escaping)
              ++ '"' :: ':' :: (gap.toList ++ (text.toList ++ after))) := by
          simp only [String.toList_append, List.append_assoc]
          rw [toList_writtenString]
          rfl
        rw [hlist]
        have hgives := members_cons hstring (skip_solid dialect rfl (by decide) _)
          ((skip_gap dialect hgap _).trans ((htext.solid.append after).skip dialect))
          (htext.reads after hends) hcontinues
        rwa [hrepair] at hgives
  induction h with
  | nil => exact absurd rfl hne
  | @cons text m texts ms htext hrest ih =>
      cases hrest with
      | nil =>
          exact hmember htext (endsNumber_gap hlast (endsNumber_cons (Or.inr (Or.inr rfl)) _))
            (continues_last hlast rfl (by decide) rest)
      | @cons text' m' texts ms htext' hrest =>
          have hsolid := solid_join ("," ++ gap) texts htext'.solid
            (last.toList ++ '\x7d' :: rest)
          rw [toList_join_cons]
          exact hmember htext (endsNumber_separator _)
            (continues_more hgap hsolid hsolid.ne_brace (ih (List.cons_ne_nil _ _)))

theorem isTextOf_arr {js : List Json} (h : List.Forall₂ (IsTextOf dialect) texts js) {first : Text}
    (hfirst : IsGap first) (hgap : IsGap gap) (hlast : IsGap last) :
    IsTextOf dialect ("[" ++ first ++ Text.join ("," ++ gap) texts ++ last ++ "]") (.arr js) := by
  have hlist : ∀ rest, ("[" ++ first ++ Text.join ("," ++ gap) texts ++ last ++ "]").toList ++ rest =
      '[' :: (first.toList ++ ((Text.join ("," ++ gap) texts).toList ++ (last.toList ++ ']' :: rest))) := by
    intro rest
    simp only [String.toList_append, List.append_assoc]
    rfl
  refine ⟨?_, fun rest _ => ?_⟩
  · rw [← List.append_nil (String.toList _), hlist]
    exact ⟨'[', _, rfl, rfl, by decide, by decide, by decide⟩
  · rw [hlist]
    cases h with
    | nil =>
        refine value_arr_nil ((skip_gap dialect hfirst _).trans ?_)
        exact (skip_gap dialect hlast _).trans (skip_solid dialect rfl (by decide) rest)
    | @cons text _ texts _ htext hrest =>
        have hsolid := solid_join ("," ++ gap) texts htext.solid (last.toList ++ ']' :: rest)
        exact value_arr ((skip_gap dialect hfirst _).trans (hsolid.skip dialect)) hsolid.ne_bracket
          (gives_items (.cons htext hrest) (List.cons_ne_nil _ _) hgap hlast rest)

theorem isTextOf_obj {ms : List (Text × Json)} (h : List.Forall₂ (IsTextOfMember dialect escaping) texts ms)
    {first : Text} (hfirst : IsGap first) (hgap : IsGap gap) (hlast : IsGap last) :
    IsTextOf dialect ("\x7b" ++ first ++ Text.join ("," ++ gap) texts ++ last ++ "\x7d") (.obj ms) := by
  have hlist : ∀ rest, ("\x7b" ++ first ++ Text.join ("," ++ gap) texts ++ last ++ "\x7d").toList ++ rest =
      '\x7b' :: (first.toList ++ ((Text.join ("," ++ gap) texts).toList ++ (last.toList ++ '\x7d' :: rest))) := by
    intro rest
    simp only [String.toList_append, List.append_assoc]
    rfl
  refine ⟨?_, fun rest _ => ?_⟩
  · rw [← List.append_nil (String.toList _), hlist]
    exact ⟨'\x7b', _, rfl, rfl, by decide, by decide, by decide⟩
  · rw [hlist]
    cases h with
    | nil =>
        refine value_obj_nil ((skip_gap dialect hfirst _).trans ?_)
        exact (skip_gap dialect hlast _).trans (skip_solid dialect rfl (by decide) rest)
    | @cons text _ texts _ htext hrest =>
        have hsolid := solid_join ("," ++ gap) texts htext.solid (last.toList ++ '\x7d' :: rest)
        exact value_obj ((skip_gap dialect hfirst _).trans (hsolid.skip dialect)) hsolid.ne_brace
          (gives_members (.cons htext hrest) (List.cons_ne_nil _ _) hgap hlast rest)

theorem parse_of_isTextOf {text : Text} (h : IsTextOf dialect text j) (hgap : IsGap gap) :
    parse dialect (text ++ gap) = some j := by
  have hends : EndsNumber gap.toList := by
    have hnil : EndsNumber [] := fun _ hc => nomatch hc
    rw [← List.append_nil gap.toList]
    exact endsNumber_gap hgap hnil
  have hend : skip dialect .blank gap.toList = some [] := by
    rw [← List.append_nil gap.toList, skip_gap dialect hgap]
    rfl
  obtain ⟨hlt, hvalue⟩ := h.reads gap.toList hends
  simp only [parse, String.toList_append, (h.solid.append _).skip dialect, hvalue, hend]

/-! ### Leaves -/

theorem isTextOf_null : IsTextOf dialect "null" .null where
  solid := ⟨'n', ['u', 'l', 'l'], rfl, rfl, by decide, by decide, by decide⟩
  reads rest _ := ⟨by simp only [List.length_append]; exact Nat.lt_add_of_pos_left (by decide), by simp [value]⟩

theorem isTextOf_true : IsTextOf dialect "true" (.bool true) where
  solid := ⟨'t', ['r', 'u', 'e'], rfl, rfl, by decide, by decide, by decide⟩
  reads rest _ := ⟨by simp only [List.length_append]; exact Nat.lt_add_of_pos_left (by decide), by simp [value]⟩

theorem isTextOf_false : IsTextOf dialect "false" (.bool false) where
  solid := ⟨'f', ['a', 'l', 's', 'e'], rfl, rfl, by decide, by decide, by decide⟩
  reads rest _ := ⟨by simp only [List.length_append]; exact Nat.lt_add_of_pos_left (by decide), by simp [value]⟩

theorem isTextOf_int (n : Int) : IsTextOf dialect (toString n) (.int n) where
  solid := solid_toString n
  reads rest hrest := by
    have hfirst : ∀ c ∈ ((toString n).toList ++ rest).head?, c.isDigit = true ∨ c = '-' := by
      intro c hc
      rw [toList_toString, signOf] at hc
      split at hc
      · cases hc
        exact Or.inr rfl
      · rw [List.nil_append, List.head?_append,
          Option.or_of_isSome (List.isSome_head?.mpr (toDigits_ne_nil _))] at hc
        exact Or.inl (isDigit_of_mem_toDigits (List.mem_of_mem_head? hc))
    have hgives : Gives (value dialect ((toString n).toList ++ rest)) _ rest :=
      value_num hfirst (number_toString n hrest)
    rwa [String.ofList_toList] at hgives

theorem isTextOf_str {t : Text} (ht : t.isUtf8 = true) :
    IsTextOf dialect (writtenString escaping t) (.str t) where
  solid := solid_writtenString escaping t
  reads rest _ := by
    rw [toList_writtenString]
    have hgives : Gives (value dialect _) _ rest := value_str (stringBody_writtenString escaping ht rest)
    rwa [String.ofList_toList, Text.repair_of_isUtf8 ht] at hgives

/-! ### Indented and compact texts -/

theorem indentedItems_eq_map (level : Nat) (js : List Json) :
    indentedItems escaping level js = js.map (renderIndented escaping level) := by
  induction js with
  | nil => rfl
  | cons j js ih => rw [indentedItems, ih, List.map_cons]

theorem indentedMembers_eq_map (level : Nat) (ms : List (Text × Json)) :
    indentedMembers escaping level ms =
      ms.map fun m => writtenString escaping m.1 ++ ":" ++ " " ++ renderIndented escaping level m.2 := by
  induction ms with
  | nil => rfl
  | cons m ms ih =>
      have hcolon : ": " = ":" ++ " " := rfl
      rw [indentedMembers, ih, List.map_cons, hcolon, ← String.append_assoc]

theorem renderItems_eq_map (js : List Json) : renderItems escaping js = js.map (render escaping) := by
  induction js with
  | nil => rfl
  | cons j js ih => rw [renderItems, ih, List.map_cons]

theorem renderMembers_eq_map (ms : List (Text × Json)) :
    renderMembers escaping ms = ms.map fun m => writtenString escaping m.1 ++ ":" ++ "" ++ render escaping m.2 := by
  induction ms with
  | nil => rfl
  | cons m ms ih => rw [renderMembers, ih, List.map_cons, String.append_empty]

theorem forall₂_map {β : Type} {R : β → α → Prop} {f : α → β} {as : List α} (h : ∀ a ∈ as, R (f a) a) :
    List.Forall₂ R (as.map f) as :=
  List.forall₂_map_left_iff.mpr (List.forall₂_same.mpr h)

theorem Writable.isTextOf_renderIndented (h : Writable j) :
    ∀ level, IsTextOf dialect (renderIndented escaping level j) j := by
  induction h with
  | null => exact fun _ => isTextOf_null
  | bool b =>
      intro level
      cases b with
      | false => exact isTextOf_false
      | true => exact isTextOf_true
  | int n => exact fun _ => isTextOf_int n
  | str ht => exact fun _ => isTextOf_str ht
  | @arr js _ ih =>
      intro level
      have hitems : List.Forall₂ (IsTextOf dialect) (indentedItems escaping (level + 1) js) js := by
        rw [indentedItems_eq_map]
        exact forall₂_map fun j hj => ih j hj (level + 1)
      rw [renderIndented, bracketed]
      split
      · next hempty =>
        rw [List.isEmpty_iff.mp hempty] at hitems
        exact isTextOf_arr hitems isGap_empty isGap_empty isGap_empty
      · exact isTextOf_arr hitems (isGap_newline _) (isGap_newline _) (isGap_newline _)
  | @obj ms hnames _ ih =>
      intro level
      have hspace : IsGap " " := List.forall_mem_singleton.mpr rfl
      have hmembers : List.Forall₂ (IsTextOfMember dialect escaping) (indentedMembers escaping (level + 1) ms) ms := by
        rw [indentedMembers_eq_map]
        exact forall₂_map fun m hm => .intro (hnames m hm) hspace (ih m hm (level + 1))
      rw [renderIndented, bracketed]
      split
      · next hempty =>
        rw [List.isEmpty_iff.mp hempty] at hmembers
        exact isTextOf_obj hmembers isGap_empty isGap_empty isGap_empty
      · exact isTextOf_obj hmembers (isGap_newline _) (isGap_newline _) (isGap_newline _)

theorem Writable.isTextOf_render (h : Writable j) : IsTextOf dialect (render escaping j) j := by
  induction h with
  | null => exact isTextOf_null
  | bool b =>
      cases b with
      | false => exact isTextOf_false
      | true => exact isTextOf_true
  | int n => exact isTextOf_int n
  | str ht => exact isTextOf_str ht
  | @arr js _ ih =>
      have harr := isTextOf_arr (forall₂_map ih) isGap_empty isGap_empty isGap_empty
      rw [← renderItems_eq_map] at harr
      rw [render]
      simpa only [String.append_empty] using harr
  | @obj ms hnames _ ih =>
      have hmembers : List.Forall₂ (IsTextOfMember dialect escaping) (renderMembers escaping ms) ms := by
        rw [renderMembers_eq_map]
        exact forall₂_map fun m hm => .intro (hnames m hm) isGap_empty (ih m hm)
      have hobj := isTextOf_obj hmembers isGap_empty isGap_empty isGap_empty
      rw [render]
      simpa only [String.append_empty] using hobj

end Layouts

theorem parse_renderIndented (dialect : Dialect) (escaping : Escaping) {j : Json} (h : Writable j) :
    parse dialect (renderIndented escaping 0 j ++ "\n") = some j :=
  parse_of_isTextOf (h.isTextOf_renderIndented 0) (List.forall_mem_singleton.mpr rfl)

theorem parse_render (dialect : Dialect) (escaping : Escaping) {j : Json} (h : Writable j) :
    parse dialect (render escaping j) = some j := by
  rw [← String.append_empty (s := render escaping j)]
  exact parse_of_isTextOf h.isTextOf_render isGap_empty

/-! ### Decoding -/

section Decode

variable {ε α : Type} {dialect : Dialect} {read : Json → Except ε α} {text : Text}

theorem decode_of_parse {j : Json} (h : parse dialect text = some j) :
    decode dialect read text = if j.isTooDeep then .error .tooDeep else (read j).mapError .refused := by
  rw [decode, h]

theorem exists_of_decode {a : α} (h : decode dialect read text = .ok a) :
    ∃ j, parse dialect text = some j ∧ read j = .ok a := by
  cases hj : parse dialect text with
  | none =>
      rw [decode, hj] at h
      cases h
  | some j =>
      rw [decode_of_parse hj] at h
      split at h
      · cases h
      · cases hread : read j with
        | error e =>
            rw [hread] at h
            cases h
        | ok b =>
            rw [hread] at h
            cases h
            exact ⟨j, rfl, hread⟩

end Decode

end Gradual.Json
