import Gradual.Text.Quoted

/-! Texts that are UTF-8. A text is UTF-8 exactly if it is the encoding of a sequence of characters, so that
such texts can be put together; texts of ASCII characters and quoted texts are UTF-8, and repairing a text
that is UTF-8 changes nothing. -/

namespace Gradual.Text

variable {n : Nat} {c a b : Char} {bytes l : List Char} {t : Text}

theorem toNat_ofNat_of_lt (h : n < 0xD800) : (Char.ofNat n).toNat = n := by
  rw [Char.ofNat, dif_pos (Or.inl h)]
  rfl

theorem toNat_ofNat_of_gt (h : 0xDFFF < n) (hlast : n < 0x110000) : (Char.ofNat n).toNat = n := by
  rw [Char.ofNat, dif_pos (Or.inr ⟨h, hlast⟩)]
  rfl

theorem toNat_valid (c : Char) : c.toNat < 0xD800 ∨ 0xDFFF < c.toNat ∧ c.toNat < 0x110000 := c.valid

theorem ofNat_eq_of_eq (h : n = c.toNat) : Char.ofNat n = c := by
  rw [h, Char.ofNat_toNat]

theorem isTail_iff : isTail c = true ↔ 0x80 ≤ c.toNat ∧ c.toNat ≤ 0xBF := by
  rw [isTail, Bool.and_eq_true, decide_eq_true_eq, decide_eq_true_eq]

/-! ### Characters and their bytes -/

/-- The bytes of a character, by their number. -/
inductive CharBytes (c : Char) : List Char → Prop
  | one (h : c.toNat < 0x80) : CharBytes c [c]
  | two {a b : Char} (ha : 0xC2 ≤ a.toNat ∧ a.toNat ≤ 0xDF) (hb : isTail b = true)
      (hc : c.toNat = (a.toNat - 0xC0) * 64 + tailBits b) : CharBytes c [a, b]
  | three {a b d : Char} (ha : 0xE0 ≤ a.toNat ∧ a.toNat ≤ 0xEF) (hb : secondOfThree a b = true)
      (hd : isTail d = true) (hc : c.toNat = (a.toNat - 0xE0) * 4096 + tailBits b * 64 + tailBits d) :
      CharBytes c [a, b, d]
  | four {a b d e : Char} (ha : 0xF0 ≤ a.toNat ∧ a.toNat ≤ 0xF4) (hb : secondOfFour a b = true)
      (hd : isTail d = true) (he : isTail e = true)
      (hc : c.toNat = (a.toNat - 0xF0) * 262144 + tailBits b * 4096 + tailBits d * 64 + tailBits e) :
      CharBytes c [a, b, d, e]

theorem secondOfThree_iff :
    secondOfThree a b = true ↔ 0x80 ≤ b.toNat ∧ b.toNat ≤ 0xBF ∧ (a.toNat = 0xE0 → 0xA0 ≤ b.toNat) ∧
      (a.toNat = 0xED → b.toNat ≤ 0x9F) := by
  unfold secondOfThree
  split
  · simp only [Bool.and_eq_true, decide_eq_true_eq]
    omega
  · split
    · simp only [Bool.and_eq_true, decide_eq_true_eq]
      omega
    · rw [isTail_iff]
      omega

theorem secondOfFour_iff :
    secondOfFour a b = true ↔ 0x80 ≤ b.toNat ∧ b.toNat ≤ 0xBF ∧ (a.toNat = 0xF0 → 0x90 ≤ b.toNat) ∧
      (a.toNat = 0xF4 → b.toNat ≤ 0x8F) := by
  unfold secondOfFour
  split
  · simp only [Bool.and_eq_true, decide_eq_true_eq]
    omega
  · split
    · simp only [Bool.and_eq_true, decide_eq_true_eq]
      omega
    · rw [isTail_iff]
      omega

theorem charBytes_encodeChar (c : Char) : CharBytes c (encodeChar c) := by
  have hvalid := toNat_valid c
  simp only [encodeChar]
  split
  · next h => exact .one h
  split
  · refine .two ?_ (isTail_iff.mpr ?_) ?_
    · rw [toNat_ofNat_of_lt (by omega)]
      omega
    · rw [toNat_ofNat_of_lt (by omega)]
      omega
    · rw [tailBits, toNat_ofNat_of_lt (by omega), toNat_ofNat_of_lt (by omega)]
      omega
  split
  · refine .three ?_ (secondOfThree_iff.mpr ?_) (isTail_iff.mpr ?_) ?_
    · rw [toNat_ofNat_of_lt (by omega)]
      omega
    · rw [toNat_ofNat_of_lt (by omega), toNat_ofNat_of_lt (by omega)]
      omega
    · rw [toNat_ofNat_of_lt (by omega)]
      omega
    · rw [tailBits, tailBits, toNat_ofNat_of_lt (by omega), toNat_ofNat_of_lt (by omega),
        toNat_ofNat_of_lt (by omega)]
      omega
  · refine .four ?_ (secondOfFour_iff.mpr ?_) (isTail_iff.mpr ?_) (isTail_iff.mpr ?_) ?_
    · rw [toNat_ofNat_of_lt (by omega)]
      omega
    · rw [toNat_ofNat_of_lt (by omega), toNat_ofNat_of_lt (by omega)]
      omega
    · rw [toNat_ofNat_of_lt (by omega)]
      omega
    · rw [toNat_ofNat_of_lt (by omega)]
      omega
    · rw [tailBits, tailBits, tailBits, toNat_ofNat_of_lt (by omega), toNat_ofNat_of_lt (by omega),
        toNat_ofNat_of_lt (by omega), toNat_ofNat_of_lt (by omega)]
      omega

theorem encodeChar_of_charBytes (h : CharBytes c bytes) : encodeChar c = bytes := by
  simp only [encodeChar]
  cases h with
  | one h => rw [if_pos h]
  | @two a b ha hb hc =>
      rw [isTail_iff] at hb
      rw [tailBits] at hc
      have hfirst : Char.ofNat (0xC0 + c.toNat / 64) = a := ofNat_eq_of_eq (by omega)
      have hlast : Char.ofNat (0x80 + c.toNat % 64) = b := ofNat_eq_of_eq (by omega)
      rw [if_neg (by omega), if_pos (by omega), hfirst, hlast]
  | @three a b d ha hb hd hc =>
      rw [secondOfThree_iff] at hb
      rw [isTail_iff] at hd
      rw [tailBits, tailBits] at hc
      have hfirst : Char.ofNat (0xE0 + c.toNat / 4096) = a := ofNat_eq_of_eq (by omega)
      have hsecond : Char.ofNat (0x80 + c.toNat / 64 % 64) = b := ofNat_eq_of_eq (by omega)
      have hlast : Char.ofNat (0x80 + c.toNat % 64) = d := ofNat_eq_of_eq (by omega)
      rw [if_neg (by omega), if_neg (by omega), if_pos (by omega), hfirst, hsecond, hlast]
  | @four a b d e ha hb hd he hc =>
      rw [secondOfFour_iff] at hb
      rw [isTail_iff] at hd he
      rw [tailBits, tailBits, tailBits] at hc
      have hfirst : Char.ofNat (0xF0 + c.toNat / 262144) = a := ofNat_eq_of_eq (by omega)
      have hsecond : Char.ofNat (0x80 + c.toNat / 4096 % 64) = b := ofNat_eq_of_eq (by omega)
      have hthird : Char.ofNat (0x80 + c.toNat / 64 % 64) = d := ofNat_eq_of_eq (by omega)
      have hlast : Char.ofNat (0x80 + c.toNat % 64) = e := ofNat_eq_of_eq (by omega)
      rw [if_neg (by omega), if_neg (by omega), if_neg (by omega), hfirst, hsecond, hthird, hlast]

theorem firstGlyph_of_charBytes (h : CharBytes c (a :: bytes)) (rest : List Char) :
    firstGlyph a (bytes ++ rest) = (.char c, bytes.length) := by
  unfold firstGlyph
  cases h with
  | one h =>
      rw [if_pos h]
      rfl
  | two ha hb hc =>
      rw [if_neg (by omega), if_pos (by simpa using ha)]
      simp [hb, ofNat_eq_of_eq hc.symm]
  | three ha hb hd hc =>
      rw [if_neg (by omega), if_neg (by simp; omega), if_pos (by simpa using ha)]
      simp [hb, hd, ofNat_eq_of_eq hc.symm]
  | four ha hb hd he hc =>
      rw [if_neg (by omega), if_neg (by simp; omega), if_neg (by simp; omega), if_pos (by simpa using ha)]
      simp [hb, hd, he, ofNat_eq_of_eq hc.symm]

/-- What is read as a character is the bytes of that character. -/
theorem charBytes_of_firstGlyph {rest : List Char} {k : Nat} (h : firstGlyph a rest = (.char c, k)) :
    CharBytes c (a :: rest.take k) := by
  unfold firstGlyph at h
  split at h
  · next ha =>
    cases h
    exact .one ha
  split at h
  · next ha =>
    simp only [Bool.and_eq_true, decide_eq_true_eq] at ha
    split at h
    · next b rest =>
      split at h
      · next hb =>
        cases h
        refine .two ha hb (toNat_ofNat_of_lt ?_)
        rw [tailBits]
        omega
      · cases h
    · cases h
  split at h
  · next ha =>
    simp only [Bool.and_eq_true, decide_eq_true_eq] at ha
    split at h
    · next b d rest =>
      split at h
      · next hbd =>
        cases h
        obtain ⟨hb, hd⟩ := Bool.and_eq_true_iff.mp hbd
        refine .three ha hb hd ?_
        rw [secondOfThree_iff] at hb
        rw [tailBits, tailBits]
        by_cases hlow : a.toNat ≤ 0xED
        · exact toNat_ofNat_of_lt (by omega)
        · exact toNat_ofNat_of_gt (by omega) (by omega)
      · cases h
    · cases h
  split at h
  · next ha =>
    simp only [Bool.and_eq_true, decide_eq_true_eq] at ha
    split at h
    · next b d e rest =>
      split at h
      · next hbde =>
        cases h
        obtain ⟨hbd, he⟩ := Bool.and_eq_true_iff.mp hbde
        obtain ⟨hb, hd⟩ := Bool.and_eq_true_iff.mp hbd
        refine .four ha hb hd he ?_
        rw [secondOfFour_iff] at hb
        rw [tailBits, tailBits, tailBits]
        exact toNat_ofNat_of_gt (by omega) (by omega)
      · cases h
    · cases h
  · cases h

/-! ### Texts -/

theorem glyphsAfter_eq_drop (k : Nat) (l : List Char) : glyphsAfter k l = glyphsAfter 0 (l.drop k) := by
  induction k generalizing l with
  | zero => rfl
  | succ k ih =>
      cases l with
      | nil => rfl
      | cons a rest => exact ih rest

theorem glyphsAfter_of_charBytes (h : CharBytes c bytes) (rest : List Char) :
    glyphsAfter 0 (bytes ++ rest) = .char c :: glyphsAfter 0 rest := by
  cases bytes with
  | nil => cases h
  | cons a bytes =>
      rw [List.cons_append, glyphsAfter, firstGlyph_of_charBytes h, glyphsAfter_eq_drop, List.drop_left]

theorem toGlyphs_encode (cs : List Char) : toGlyphs (encode cs) = cs.map .char := by
  rw [toGlyphs, encode, String.toList_ofList]
  induction cs with
  | nil => rfl
  | cons c rest ih =>
      rw [List.flatMap_cons, glyphsAfter_of_charBytes (charBytes_encodeChar c), ih, List.map_cons]

theorem exists_flatMap_encodeChar (h : ∀ b, .stray b ∉ glyphsAfter 0 l) :
    ∃ cs : List Char, l = cs.flatMap encodeChar := by
  obtain ⟨n, hn⟩ : ∃ n, l.length = n := ⟨_, rfl⟩
  -- The induction is on the length, since a character takes several bytes.
  induction n using Nat.strongRecOn generalizing l with
  | ind n ih =>
      cases l with
      | nil => exact ⟨[], rfl⟩
      | cons a rest =>
          obtain ⟨g, k, hglyph⟩ : ∃ g k, firstGlyph a rest = (g, k) := ⟨_, _, rfl⟩
          rw [glyphsAfter, hglyph, glyphsAfter_eq_drop] at h
          cases g with
          | stray b => exact absurd List.mem_cons_self (h b)
          | char c =>
              have hlength : (rest.drop k).length < n := by
                rw [← hn, List.length_drop, List.length_cons]
                omega
              obtain ⟨cs, hcs⟩ := ih _ hlength (fun b hb => h b (List.mem_cons_of_mem _ hb)) rfl
              refine ⟨c :: cs, ?_⟩
              rw [List.flatMap_cons, encodeChar_of_charBytes (charBytes_of_firstGlyph hglyph), ← hcs,
                List.cons_append, List.take_append_drop]

theorem isUtf8_iff : t.isUtf8 = true ↔ ∃ cs, t = encode cs := by
  constructor
  · intro h
    have hstray : ∀ b, .stray b ∉ glyphsAfter 0 t.toList := by
      intro b hb
      cases List.all_eq_true.mp h (.stray b) hb
    obtain ⟨cs, hcs⟩ := exists_flatMap_encodeChar hstray
    exact ⟨cs, by rw [encode, ← hcs, String.ofList_toList]⟩
  · rintro ⟨cs, rfl⟩
    rw [isUtf8, toGlyphs_encode, List.all_map, List.all_eq_true]
    exact fun _ _ => rfl

theorem repair_of_isUtf8 (h : t.isUtf8 = true) : repair t = t := by
  obtain ⟨cs, rfl⟩ := isUtf8_iff.mp h
  have hshown : (cs.map Glyph.char).map shown = cs := by
    rw [List.map_map]
    exact List.map_id cs
  rw [repair, toGlyphs_encode, hshown]

theorem encode_append (cs ds : List Char) : encode cs ++ encode ds = encode (cs ++ ds) := by
  rw [encode, encode, encode, List.flatMap_append, String.ofList_append]

theorem isUtf8_append {s : Text} (hs : s.isUtf8 = true) (ht : t.isUtf8 = true) : (s ++ t).isUtf8 = true := by
  obtain ⟨cs, rfl⟩ := isUtf8_iff.mp hs
  obtain ⟨ds, rfl⟩ := isUtf8_iff.mp ht
  exact isUtf8_iff.mpr ⟨cs ++ ds, encode_append cs ds⟩

theorem encodeChar_ascii (h : c.toNat < 0x80) : encodeChar c = [c] := if_pos h

/-- The bytes of a character beyond ASCII are beyond ASCII. -/
theorem le_of_mem_encodeChar (hc : 0x80 ≤ c.toNat) (hb : b ∈ encodeChar c) : 0x80 ≤ b.toNat := by
  have h := charBytes_encodeChar c
  generalize encodeChar c = bytes at h hb
  cases h with
  | one h => omega
  | two ha hb' hc =>
      rw [isTail_iff] at hb'
      simp only [List.mem_cons, List.not_mem_nil, or_false] at hb
      rcases hb with rfl | rfl <;> omega
  | three ha hb' hd hc =>
      rw [secondOfThree_iff] at hb'
      rw [isTail_iff] at hd
      simp only [List.mem_cons, List.not_mem_nil, or_false] at hb
      rcases hb with rfl | rfl | rfl <;> omega
  | four ha hb' hd he hc =>
      rw [secondOfFour_iff] at hb'
      rw [isTail_iff] at hd he
      simp only [List.mem_cons, List.not_mem_nil, or_false] at hb
      rcases hb with rfl | rfl | rfl | rfl <;> omega

theorem flatMap_encodeChar_ascii {cs : List Char} (h : ∀ c ∈ cs, c.toNat < 0x80) :
    cs.flatMap encodeChar = cs := by
  induction cs with
  | nil => rfl
  | cons c rest ih =>
      rw [List.flatMap_cons, encodeChar_ascii (h c List.mem_cons_self),
        ih fun d hd => h d (List.mem_cons_of_mem c hd)]
      rfl

/-- Whether a text has ASCII characters only. -/
def isAscii (t : Text) : Bool := t.toList.all fun c => c.toNat < 0x80

theorem isUtf8_of_isAscii (h : t.isAscii = true) : t.isUtf8 = true := by
  refine isUtf8_iff.mpr ⟨t.toList, ?_⟩
  have hascii : ∀ c ∈ t.toList, c.toNat < 0x80 := fun c hc => of_decide_eq_true (List.all_eq_true.mp h c hc)
  rw [encode, flatMap_encodeChar_ascii hascii, String.ofList_toList]

theorem toNat_lt_of_isDigit (h : c.isDigit = true) : c.toNat < 0x80 := by
  obtain ⟨-, h⟩ := Bool.and_eq_true_iff.mp h
  have hle : c.toNat ≤ '9'.toNat := of_decide_eq_true h
  exact Nat.lt_of_le_of_lt hle (by decide)

theorem isUtf8_toString (n : Nat) : isUtf8 (toString n) = true := by
  refine isUtf8_of_isAscii (List.all_eq_true.mpr fun c hc => decide_eq_true ?_)
  have hdigits : (toString n).toList = Nat.toDigits 10 n := String.toList_ofList
  rw [hdigits] at hc
  exact toNat_lt_of_isDigit (Nat.isDigit_of_mem_toDigits (by omega) (by omega) hc)

/-! ### Quoted texts -/

theorem toNat_digitChar_lt (h : n < 16) : n.digitChar.toNat < 0x80 := by
  revert n
  decide

theorem toNat_lt_of_mem_hex {width : Nat} (h : c ∈ hex width n) : c.toNat < 0x80 := by
  induction width generalizing n with
  | zero => cases h
  | succ width ih =>
      rcases List.mem_append.mp h with h | h
      · exact ih h
      · rw [List.mem_singleton.mp h]
        exact toNat_digitChar_lt (Nat.mod_lt n (by omega))

/-- Bytes that are the encoding of characters. -/
def IsEncoded (l : List Char) : Prop := ∃ cs : List Char, l = cs.flatMap encodeChar

theorem isEncoded_append {m : List Char} (hl : IsEncoded l) (hm : IsEncoded m) : IsEncoded (l ++ m) := by
  obtain ⟨cs, rfl⟩ := hl
  obtain ⟨ds, rfl⟩ := hm
  exact ⟨cs ++ ds, List.flatMap_append.symm⟩

theorem isEncoded_ascii (h : ∀ c ∈ l, c.toNat < 0x80) : IsEncoded l :=
  ⟨l, (flatMap_encodeChar_ascii h).symm⟩

theorem isEncoded_escape {letter : Char} (hletter : letter.toNat < 0x80) (width n : Nat) :
    IsEncoded ('\\' :: letter :: hex width n) := by
  refine isEncoded_ascii fun c hc => ?_
  rcases List.mem_cons.mp hc with rfl | hc
  · decide
  · rcases List.mem_cons.mp hc with rfl | hc
    · exact hletter
    · exact toNat_lt_of_mem_hex hc

theorem toNat_shortEscape_lt {letter : Char} (h : shortEscape c = some letter) : letter.toNat < 0x80 := by
  unfold shortEscape at h
  split at h <;> cases h <;> decide

theorem isEncoded_quotedChar (c : Char) : IsEncoded (quotedChar c) := by
  have hpair : ∀ {d : Char}, d.toNat < 0x80 → IsEncoded ['\\', d] := fun hd =>
    isEncoded_escape hd 0 0
  unfold quotedChar
  split
  · next h =>
    refine hpair ?_
    rcases Bool.or_eq_true_iff.mp h with h | h
    · rw [beq_iff_eq.mp h]
      decide
    · rw [beq_iff_eq.mp h]
      decide
  split
  · exact ⟨[c], (List.append_nil _).symm⟩
  split
  · next h => exact hpair (toNat_shortEscape_lt h)
  split
  · exact isEncoded_escape (by decide) 2 _
  split
  · exact isEncoded_escape (by decide) 4 _
  · exact isEncoded_escape (by decide) 8 _

theorem isEncoded_quotedGlyphs (gs : List Glyph) : IsEncoded (gs.flatMap quotedGlyph) := by
  induction gs with
  | nil => exact ⟨[], rfl⟩
  | cons g rest ih =>
      refine isEncoded_append ?_ ih
      cases g with
      | char c => exact isEncoded_quotedChar c
      | stray b => exact isEncoded_escape (by decide) 2 _

theorem isUtf8_quoted (t : Text) : (quoted t).isUtf8 = true := by
  have hquote : IsEncoded ['"'] := isEncoded_ascii (List.forall_mem_singleton.mpr (by decide))
  obtain ⟨cs, hcs⟩ := isEncoded_append hquote (isEncoded_append (isEncoded_quotedGlyphs (toGlyphs t)) hquote)
  exact isUtf8_iff.mpr ⟨cs, congrArg String.ofList hcs⟩

end Gradual.Text
