import Gradual.Program.Cache
import Gradual.Proofs.EntryText

/-! What the key of an entry identifies. A key is the digest of a text of lines. The compact JSON of an interface is
one line, so the lines can be told apart, unless the name of a load has lines of its own: a name that spells out
another load, with its interface and the beginning of a third one, is taken for all of them. -/

namespace Gradual

/-! ### Lines -/

/-- A text without a newline. -/
abbrev Text.IsLine (t : Text) : Prop := '\n' ∉ t.toList

theorem Text.IsLine.append {s t : Text} (hs : s.IsLine) (ht : t.IsLine) : (s ++ t).IsLine := by
  rw [IsLine, String.toList_append]
  exact fun h => (List.mem_append.mp h).elim hs ht

namespace Json

variable {escaping : Escaping}

theorem newline_notMem_numberEscape (n : Nat) : '\n' ∉ numberEscape n := by
  have hdigit (m : Nat) : '\n' ≠ (m % 16).digitChar :=
    (by decide : ∀ d < 16, '\n' ≠ Nat.digitChar d) _ (Nat.mod_lt m (by decide))
  simp [numberEscape, Text.hex, hdigit]

theorem newline_notMem_writtenChar (c : Char) : '\n' ∉ writtenChar escaping c := by
  have hsolid (hctrl : ¬c.toNat < 0x20) (hquote : c ≠ '"') (hback : c ≠ '\\') : '\n' ∉ Text.encodeChar c :=
    fun h => (solid_of_mem_encodeChar hctrl hquote hback h).1 (by decide)
  have hshort {letter : Char} (h : shortEscape c = some letter) : '\n' ≠ letter := by
    unfold shortEscape at h
    split at h <;> cases h <;> decide
  unfold writtenChar
  grind [newline_notMem_numberEscape]

theorem isLine_writtenString (t : Text) : (writtenString escaping t).IsLine := by
  have hglyph (g : Glyph) : '\n' ∉ writtenGlyph escaping g := by
    cases g with
    | char c => exact newline_notMem_writtenChar c
    | stray => exact newline_notMem_numberEscape _
  simp [Text.IsLine, writtenString, hglyph]

theorem Writable.isLine_render {j : Json} (h : j.Writable) : (render escaping j).IsLine := by
  have hjoin {parts : List Text} (h : ∀ t ∈ parts, t.IsLine) : (Text.join "," parts).IsLine :=
    Text.holds_join .append (by decide) (by decide) h
  induction h with
  | null => exact (by decide : Text.IsLine "null")
  | bool b => cases b with
    | false => exact (by decide : Text.IsLine "false")
    | true => exact (by decide : Text.IsLine "true")
  | int n =>
      intro h
      rcases List.mem_append.mp (toList_toString n ▸ h) with h | h
      · unfold signOf at h
        split at h <;> revert h <;> decide
      · exact absurd (isDigit_of_mem_toDigits h) (by decide)
  | str => exact isLine_writtenString _
  | arr _ ih =>
      rw [render, renderItems_eq_map]
      exact .append (.append (by decide) (hjoin (List.forall_mem_map.mpr ih))) (by decide)
  | obj _ _ ih =>
      rw [render, renderMembers_eq_map]
      refine .append (.append (by decide) (hjoin (List.forall_mem_map.mpr fun m hm => ?_))) (by decide)
      exact (((isLine_writtenString m.1).append (by decide)).append (by decide)).append (ih m hm)

end Json

theorem cut_newline {a b c d : List Char} (h : a ++ '\n' :: c = b ++ '\n' :: d) :
    (a = b ∧ c = d) ∨ (∃ s, b = a ++ '\n' :: s ∧ c = s ++ '\n' :: d) ∨
      ∃ s, a = b ++ '\n' :: s ∧ d = s ++ '\n' :: c := by
  rcases List.append_eq_append_iff.mp h with ⟨s, rfl, hs⟩ | ⟨s, rfl, hs⟩ <;> cases s with
  | nil => simp_all
  | cons x s =>
      cases hs
      simp

theorem Text.IsLine.eq_of_append_eq {s t : Text} (hs : s.IsLine) (ht : t.IsLine) {c d : List Char}
    (h : s.toList ++ '\n' :: c = t.toList ++ '\n' :: d) : s = t ∧ c = d := by
  rcases cut_newline h with ⟨hst, hcd⟩ | ⟨r, ht', -⟩ | ⟨r, hs', -⟩
  · exact ⟨String.toList_inj.mp hst, hcd⟩
  · exact absurd (ht' ▸ List.mem_append_right _ List.mem_cons_self) ht
  · exact absurd (hs' ▸ List.mem_append_right _ List.mem_cons_self) hs

/-! ### The text of a key -/

/-- The lines of loads. -/
def loadLines : List (Text × Interface) → List Char
  | [] => []
  | (name, i) :: rest =>
    "load=".toList ++ (name.toList ++ '\n' :: ((Json.render .html i.toJson).toList ++ '\n' :: loadLines rest))

theorem toList_cacheKeyText (hash : Text) (mode : Mode) (oracleKey : Text) (loads : NameMap Interface) :
    (cacheKeyText hash mode oracleKey loads).toList =
      "source=".toList ++ (hash.toList ++ '\n' :: ("mode=".toList ++ (mode.name.toList ++ '\n' ::
        ("oracle=".toList ++ (oracleKey.toList ++ '\n' :: loadLines loads.entries))))) := by
  have hlines (entries : List (Text × Interface)) : (String.join (entries.map fun e =>
      "load=" ++ e.1 ++ "\n" ++ Json.render .html e.2.toJson ++ "\n")).toList = loadLines entries := by
    induction entries with
    | nil => rfl
    | cons e entries ih =>
        rw [List.map_cons, String.join_cons, String.toList_append, ih]
        simp [loadLines]
  rw [cacheKeyText, String.toList_append, ← hlines]
  simp

theorem eq_of_cacheKeyText_eq {hash hash' oracleKey oracleKey' : Text} {mode mode' : Mode}
    {loads loads' : NameMap Interface} (hhash : hash.IsLine) (hhash' : hash'.IsLine) (horacle : oracleKey.IsLine)
    (horacle' : oracleKey'.IsLine)
    (h : cacheKeyText hash mode oracleKey loads = cacheKeyText hash' mode' oracleKey' loads') :
    hash = hash' ∧ mode = mode' ∧ oracleKey = oracleKey' ∧ loadLines loads.entries = loadLines loads'.entries := by
  have hmode (mode : Mode) : mode.name.IsLine := by cases mode <;> decide
  have htext := congrArg String.toList h
  rw [toList_cacheKeyText, toList_cacheKeyText] at htext
  obtain ⟨heq, htext⟩ := hhash.eq_of_append_eq hhash' (List.append_cancel_left htext)
  obtain ⟨hname, htext⟩ := (hmode mode).eq_of_append_eq (hmode mode') (List.append_cancel_left htext)
  obtain ⟨hkey, htext⟩ := horacle.eq_of_append_eq horacle' (List.append_cancel_left htext)
  refine ⟨heq, ?_, hkey, htext⟩
  cases mode <;> cases mode' <;> first | rfl | exact absurd (String.toList_inj.mpr hname) (by decide)

/-! ### Names that spell out loads -/

/-- The name that spells out a load and the beginning of another one. -/
def spelledOut (e : Text × Interface) (name : Text) : Text :=
  e.1 ++ "\n" ++ Json.render .html e.2.toJson ++ "\n" ++ "load=" ++ name

/-- A name of `others` spells out one of `loads`. -/
def SpellsOut (others loads : List (Text × Interface)) : Prop :=
  ∃ e ∈ loads, ∃ name, spelledOut e name ∈ others.map (·.1)

/-- A name that reads like a shorter one up to its end goes on with the interface of that one, and with the
beginning of another load. -/
theorem exists_spelledOut {e e' : Text × Interface} {es es' : List (Text × Interface)} (he : e.2.toJson.Writable)
    {s : List Char} (hname : e'.1.toList = e.1.toList ++ '\n' :: s)
    (h : (Json.render .html e.2.toJson).toList ++ '\n' :: loadLines es =
      s ++ '\n' :: ((Json.render .html e'.2.toJson).toList ++ '\n' :: loadLines es')) :
    ∃ name, spelledOut e name = e'.1 := by
  rcases cut_newline h with ⟨-, hes⟩ | ⟨u, rfl, hes⟩ | ⟨u, hline, -⟩
  · have hbrace : ∃ r, (Json.render .html e'.2.toJson).toList = '\x7b' :: r := by
      rw [Interface.toJson, Json.render, String.append_assoc, String.toList_append]
      exact ⟨_, rfl⟩
    obtain ⟨r, hr⟩ := hbrace
    rw [hr] at hes
    cases es <;> cases hes
  · cases es with
    | nil => cases u <;> cases hes
    | cons f es =>
        have hload : ∃ name, u = "load=".toList ++ name := by
          rcases List.append_eq_append_iff.mp hes with ⟨name, hu, -⟩ | ⟨w, hw, hrest⟩
          · exact ⟨name, hu⟩
          · cases w with
            | nil => exact ⟨[], by rw [List.append_nil, hw, List.append_nil]⟩
            | cons x w =>
                obtain rfl : '\n' = x := (List.cons.inj hrest).1
                exact absurd (hw ▸ List.mem_append_right u List.mem_cons_self : '\n' ∈ "load=".toList) (by decide)
        obtain ⟨name, rfl⟩ := hload
        refine ⟨String.ofList name, String.toList_inj.mp ?_⟩
        rw [hname]
        simp [spelledOut]
  · exact absurd (hline ▸ List.mem_append_right _ List.mem_cons_self) he.isLine_render

theorem Interface.Within.eq_of_render_eq {i i' : Interface} (h : i.Within .portable) (h' : i'.Within .portable)
    (heq : Json.render .html i.toJson = Json.render .html i'.toJson) : i = i' := by
  have hparse := Json.parse_render .relaxed .html (Interface.writable_toJson h)
  rw [heq, Json.parse_render .relaxed .html (Interface.writable_toJson h')] at hparse
  have hread := Interface.ofJson_toJson h
  rw [← Option.some.inj hparse, Interface.ofJson_toJson h'] at hread
  exact (Except.ok.inj hread).symm

theorem eq_or_spellsOut {es es' : List (Text × Interface)} (hes : ∀ e ∈ es, e.2.Within .portable)
    (hes' : ∀ e ∈ es', e.2.Within .portable) (h : loadLines es = loadLines es') :
    es = es' ∨ SpellsOut es' es ∨ SpellsOut es es' := by
  induction es generalizing es' with
  | nil => cases es' with
    | nil => exact Or.inl rfl
    | cons => cases h
  | cons e es ih => cases es' with
    | nil => cases h
    | cons e' es' =>
        obtain ⟨he, hes⟩ := List.forall_mem_cons.mp hes
        obtain ⟨he', hes'⟩ := List.forall_mem_cons.mp hes'
        have hw := Interface.writable_toJson he
        have hw' := Interface.writable_toJson he'
        rcases cut_newline (List.append_cancel_left h) with ⟨hname, hrest⟩ | ⟨s, hname, hrest⟩ | ⟨s, hname, hrest⟩
        · obtain ⟨htext, hlines⟩ := Text.IsLine.eq_of_append_eq hw.isLine_render hw'.isLine_render hrest
          have hinterface : e.2 = e'.2 := he.eq_of_render_eq he' htext
          rcases ih hes hes' hlines with rfl | ⟨f, hf, name, hname⟩ | ⟨f, hf, name, hname⟩
          · exact Or.inl (congrArg (· :: es) (Prod.ext (String.toList_inj.mp hname) hinterface))
          · exact Or.inr (Or.inl ⟨f, List.mem_cons_of_mem e hf, name, List.mem_cons_of_mem _ hname⟩)
          · exact Or.inr (Or.inr ⟨f, List.mem_cons_of_mem e' hf, name, List.mem_cons_of_mem _ hname⟩)
        · obtain ⟨name, hname⟩ := exists_spelledOut hw hname hrest
          exact Or.inr (Or.inl ⟨e, List.mem_cons_self, name, hname ▸ List.mem_cons_self⟩)
        · obtain ⟨name, hname⟩ := exists_spelledOut hw' hname hrest
          exact Or.inr (Or.inr ⟨e', List.mem_cons_self, name, hname ▸ List.mem_cons_self⟩)

theorem cacheKeyText_spelledOut (hash : Text) (mode : Mode) (oracleKey : Text) (before after : List (Text × Interface))
    (e : Text × Interface) (name : Text) (i : Interface) :
    cacheKeyText hash mode oracleKey ⟨before ++ e :: (name, i) :: after⟩ =
      cacheKeyText hash mode oracleKey ⟨before ++ (spelledOut e name, i) :: after⟩ := by
  simp [cacheKeyText, spelledOut, String.append_assoc, -String.reduceAppend]

/-- Where digests do not collide, a key identifies all it covers, unless the name of a load spells out a load of the
other side; and loads that are spelled out are indeed taken for the load whose name does so. -/
theorem cacheKey_identifies_unless_spelledOut {hash hash' oracleKey oracleKey' : Text} {mode mode' : Mode}
    {loads loads' : NameMap Interface} (hhash : hash.IsLine) (hhash' : hash'.IsLine) (horacle : oracleKey.IsLine)
    (horacle' : oracleKey'.IsLine) (hloads : loads.All fun _ i => i.Within .portable)
    (hloads' : loads'.All fun _ i => i.Within .portable)
    (hdigest : Sha256.hex (cacheKeyText hash mode oracleKey loads) =
        Sha256.hex (cacheKeyText hash' mode' oracleKey' loads') →
      cacheKeyText hash mode oracleKey loads = cacheKeyText hash' mode' oracleKey' loads') :
    (cacheKey hash mode oracleKey loads = cacheKey hash' mode' oracleKey' loads' →
      hash = hash' ∧ mode = mode' ∧ oracleKey = oracleKey' ∧
        (loads = loads' ∨ SpellsOut loads'.entries loads.entries ∨ SpellsOut loads.entries loads'.entries)) ∧
    ∀ before after e name i, cacheKey hash mode oracleKey ⟨before ++ e :: (name, i) :: after⟩ =
      cacheKey hash mode oracleKey ⟨before ++ (spelledOut e name, i) :: after⟩ := by
  constructor
  · intro h
    obtain ⟨rfl, rfl, rfl, hlines⟩ := eq_of_cacheKeyText_eq hhash hhash' horacle horacle' (hdigest h)
    exact ⟨rfl, rfl, rfl, (eq_or_spellsOut hloads hloads' hlines).imp_left (congrArg NameMap.mk)⟩
  · intro before after e name i
    exact congrArg Sha256.hex (cacheKeyText_spelledOut hash mode oracleKey before after e name i)

theorem cacheKey_identifies_unless_spelledOut_pair :
    let loads : NameMap Interface := ⟨[("a", {}), ("b", {})]⟩
    let loads' : NameMap Interface := ⟨[(spelledOut ("a", {}) "b", {})]⟩
    cacheKey "0a" .lint "0b" loads = cacheKey "0a" .lint "0b" loads' ∧
      (loads = loads' ∨ SpellsOut loads'.entries loads.entries ∨ SpellsOut loads.entries loads'.entries) := by
  intro loads loads'
  have hblank : ({} : Interface).Within .portable := ⟨NameMap.isSorted_empty, NameMap.all_empty⟩
  have htext := cacheKeyText_spelledOut "0a" .lint "0b" [] [] ("a", {}) "b" {}
  have hkey := congrArg Sha256.hex htext
  have hloads := cacheKey_identifies_unless_spelledOut (by decide) (by decide) (by decide) (by decide)
    (by simp [NameMap.All, hblank]) (by simp [NameMap.All, hblank]) fun _ => htext
  exact ⟨hkey, (hloads.1 hkey).2.2.2⟩

/-- Loads of different names with one key, which is the digest of one text. -/
theorem cacheKey_confuses_loads : ∃ loads loads' : NameMap Interface,
    cacheKey "0a" .lint "0b" loads = cacheKey "0a" .lint "0b" loads' ∧
    cacheKeyText "0a" .lint "0b" loads = cacheKeyText "0a" .lint "0b" loads' ∧ loads.names ≠ loads'.names ∧
    ∀ m ∈ [loads, loads'], m.IsSorted ∧ m.All fun name i => name.isUtf8 = true ∧ i.Within .portable := by
  have htext := cacheKeyText_spelledOut "0a" .lint "0b" [] [] ("a", {}) "b" {}
  refine ⟨_, _, congrArg Sha256.hex htext, htext, by decide, ?_⟩
  have hblank : ({} : Interface).Within .portable := ⟨NameMap.isSorted_empty, NameMap.all_empty⟩
  refine List.forall_mem_cons.mpr ⟨⟨List.pairwise_pair.mpr (by decide), ?_⟩,
    List.forall_mem_singleton.mpr ⟨List.pairwise_singleton _ _, ?_⟩⟩
  · exact List.forall_mem_cons.mpr ⟨⟨by decide, hblank⟩, List.forall_mem_singleton.mpr ⟨by decide, hblank⟩⟩
  · exact List.forall_mem_singleton.mpr ⟨by decide, hblank⟩

end Gradual
