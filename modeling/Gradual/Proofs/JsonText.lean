import Gradual.Json.Number
import Gradual.Json.Reader
import Gradual.Json.Writer
import Gradual.Proofs.Utf8

/-! Reading what was written in JSON: integers, strings, and the steps of the reader. Every lemma about reading
quantifies over what follows the text that is read. -/

namespace Gradual.Json

/-! ### Integers -/

theorem digits_toDigits (n : Nat) : Decimal.digits (Nat.toDigits 10 n) = n :=
  Nat.ofDigitChars_toDigits (by omega) (by omega)

theorem isDigit_of_mem_toDigits {n : Nat} {c : Char} (h : c ∈ Nat.toDigits 10 n) : c.isDigit = true :=
  Nat.isDigit_of_mem_toDigits (by omega) (by omega) h

theorem toDigits_ne_nil (n : Nat) : Nat.toDigits 10 n ≠ [] := by
  rw [Nat.toDigits_eq_if (by omega)]
  split
  · exact List.cons_ne_nil _ _
  · exact List.append_ne_nil_of_right_ne_nil _ (List.cons_ne_nil _ _)

theorem head_toDigits {n : Nat} (h : 0 < n) : (Nat.toDigits 10 n).head? ≠ some '0' := by
  induction n using Nat.strongRecOn with
  | ind n ih =>
      rw [Nat.toDigits_eq_if (by omega)]
      split
      · next hlt =>
        have hdigits : ∀ n < 10, 0 < n → [n.digitChar].head? ≠ some '0' := by decide
        exact hdigits n hlt h
      · next hge =>
        rw [List.head?_append, Option.or_of_isSome (List.isSome_head?.mpr (toDigits_ne_nil (n / 10)))]
        exact ih (n / 10) (by omega) (by omega)

/-- The sign that an integer is written with. -/
def signOf (n : Int) : List Char := if n < 0 then ['-'] else []

theorem toList_toString (n : Int) : (toString n).toList = signOf n ++ Nat.toDigits 10 n.natAbs := by
  cases n with
  | ofNat k =>
      have hsign : ¬Int.ofNat k < 0 := Int.not_lt.mpr (Int.natCast_nonneg k)
      rw [signOf, if_neg hsign]
      exact String.toList_ofList
  | negSucc k =>
      have hlist : (toString (Int.negSucc k)).toList = "-".toList ++ (Nat.repr (k + 1)).toList :=
        String.toList_append
      have hdigits : (Nat.repr (k + 1)).toList = Nat.toDigits 10 (k + 1) := String.toList_ofList
      rw [hlist, hdigits, signOf, if_pos (Int.negSucc_lt_zero k)]
      rfl

theorem sign_signOf (n : Int) {ds : List Char} (h : ∀ c ∈ ds, c.isDigit = true) :
    Decimal.sign (signOf n ++ ds) = (decide (n < 0), ds) := by
  unfold signOf
  split
  · next hneg =>
    rw [decide_eq_true hneg]
    rfl
  · next hneg =>
    rw [decide_eq_false hneg, List.nil_append]
    unfold Decimal.sign
    split
    · next rest => cases h '-' List.mem_cons_self
    · next rest => cases h '+' List.mem_cons_self
    · rfl

theorem readInt_toString (n : Int) : Decimal.readInt (toString n) = Decimal.clamp n := by
  have hdigits : ∀ c ∈ Nat.toDigits 10 n.natAbs, c.isDigit = true := fun c => isDigit_of_mem_toDigits
  rw [Decimal.readInt, toList_toString, sign_signOf n hdigits]
  split
  · next heq => exact absurd (congrArg Prod.snd heq) (toDigits_ne_nil _)
  · next heq =>
    cases heq
    rw [if_pos (List.all_eq_true.mpr hdigits), digits_toDigits, Decimal.signed]
    congr 1
    split
    · next h =>
      have := of_decide_eq_true h
      omega
    · next h =>
      have := of_decide_eq_false (Bool.eq_false_iff.mpr h)
      omega

theorem eq_of_int?_toString {n m : Int} (h : Decimal.int? (toString n) = some m) : m = n := by
  rw [Decimal.int?, readInt_toString, Decimal.clamp] at h
  split at h
  · next hvalue =>
    split at hvalue
    · cases hvalue
    · split at hvalue
      · cases hvalue
      · cases hvalue
        exact (Option.some.inj h).symm
  · cases h

/-- What may follow a number: nothing that would belong to it. -/
def EndsNumber (rest : List Char) : Prop :=
  ∀ c ∈ rest.head?, c.isDigit = false ∧ c ≠ '.' ∧ c ≠ 'e' ∧ c ≠ 'E'

theorem digits1_append {ds rest : List Char} (hds : ∀ c ∈ ds, c.isDigit = true) (hne : ds ≠ [])
    (hrest : EndsNumber rest) : digits1 (ds ++ rest) = some (ds, rest) := by
  have htake : (ds ++ rest).takeWhile Char.isDigit = ds := by
    rw [List.takeWhile_append_of_pos hds]
    cases rest with
    | nil => rw [List.takeWhile_nil, List.append_nil]
    | cons c r => rw [List.takeWhile_cons_of_neg (by simp [(hrest c rfl).1]), List.append_nil]
  have hdrop : (ds ++ rest).dropWhile Char.isDigit = rest := by
    rw [List.dropWhile_append_of_pos hds]
    cases rest with
    | nil => rfl
    | cons c r => rw [List.dropWhile_cons_of_neg (by simp [(hrest c rfl).1])]
  cases ds with
  | nil => exact absurd rfl hne
  | cons d ds => rw [digits1, htake, hdrop]

theorem whole_toDigits (n : Nat) {rest : List Char} (hrest : EndsNumber rest) :
    whole (Nat.toDigits 10 n ++ rest) = some (Nat.toDigits 10 n, rest) := by
  by_cases hn : n = 0
  · subst hn
    rfl
  · have hhead := head_toDigits (Nat.pos_of_ne_zero hn)
    unfold whole
    split
    · next r heq =>
      cases hd : Nat.toDigits 10 n with
      | nil => exact absurd hd (toDigits_ne_nil n)
      | cons d ds =>
          rw [hd] at heq hhead
          cases heq
          exact absurd rfl hhead
    · exact digits1_append (fun c => isDigit_of_mem_toDigits) (toDigits_ne_nil n) hrest

theorem fraction_of_endsNumber {rest : List Char} (hrest : EndsNumber rest) :
    fraction rest = some ([], rest) := by
  unfold fraction
  split
  · exact absurd rfl (hrest '.' rfl).2.1
  · rfl

theorem exponent_of_endsNumber {rest : List Char} (hrest : EndsNumber rest) :
    exponent rest = some ([], rest) := by
  cases rest with
  | nil => rfl
  | cons c r =>
      obtain ⟨-, -, he, hE⟩ := hrest c rfl
      rw [exponent, if_neg (not_or.mpr ⟨he, hE⟩)]

theorem minus_signOf (n : Int) (rest : List Char) :
    minus (signOf n ++ (Nat.toDigits 10 n.natAbs ++ rest)) = (signOf n, Nat.toDigits 10 n.natAbs ++ rest) := by
  unfold signOf
  split
  · rfl
  · rw [List.nil_append]
    unfold minus
    split
    · next r heq =>
      cases hd : Nat.toDigits 10 n.natAbs with
      | nil => exact absurd hd (toDigits_ne_nil _)
      | cons d ds =>
          rw [hd] at heq
          cases heq
          have : Char.isDigit '-' = true := isDigit_of_mem_toDigits (hd ▸ List.mem_cons_self)
          cases this
    · rfl

theorem number_toString (n : Int) {rest : List Char} (hrest : EndsNumber rest) :
    number ((toString n).toList ++ rest) = some ((toString n).toList, rest) := by
  rw [number, toList_toString, List.append_assoc, minus_signOf]
  simp only [whole_toDigits _ hrest, fraction_of_endsNumber hrest, exponent_of_endsNumber hrest, List.append_nil]

/-! ### Strings -/

/-- The reading of a string after some of its bytes. -/
def prepend (bytes : List Char) (read : Option (List Char × List Char)) : Option (List Char × List Char) :=
  read.map fun p => (bytes ++ p.1, p.2)

theorem prepend_append (bytes more : List Char) (read : Option (List Char × List Char)) :
    prepend (bytes ++ more) read = prepend bytes (prepend more read) := by
  cases read with
  | none => rfl
  | some p => simp only [prepend, Option.map_some, List.append_assoc]

theorem stringBody_plain {c : Char} (hctrl : ¬c.toNat < 0x20) (hquote : c ≠ '"') (hback : c ≠ '\\')
    (rest : List Char) : stringBody none (c :: rest) = prepend [c] (stringBody none rest) := by
  rw [stringBody]
  · rw [if_neg (not_or.mpr ⟨hctrl, hback⟩)]
    cases stringBody none rest with
    | none => rfl
    | some p => rfl
  · exact hquote
  · exact fun _ _ _ _ _ h => absurd h hback
  · exact fun _ _ h => absurd h hback

theorem stringBody_escape {letter c : Char} (h : shortEscape? letter = some c) (rest : List Char) :
    stringBody none ('\\' :: letter :: rest) = prepend [c] (stringBody none rest) := by
  rw [stringBody]
  · simp only [h]
    cases stringBody none rest with
    | none => rfl
    | some p => rfl
  · intro a b d e r hu
    rw [hu] at h
    cases h

theorem hexDigit?_digitChar {d : Nat} (h : d < 16) : hexDigit? d.digitChar = some d := by
  revert d
  decide

theorem hexDigits?_hex {n : Nat} (h : n < 65536) :
    hexDigits? (n / 16 / 16 / 16 % 16).digitChar (n / 16 / 16 % 16).digitChar (n / 16 % 16).digitChar
      (n % 16).digitChar = some n := by
  have hdigit : ∀ m, hexDigit? (m % 16).digitChar = some (m % 16) := fun m =>
    hexDigit?_digitChar (Nat.mod_lt m (by omega))
  simp only [hexDigits?, hdigit, Option.bind_eq_bind, Option.bind_some, Option.pure_def]
  congr 1
  omega

theorem stringBody_numberEscape {c : Char} (h : c.toNat < 65536) (rest : List Char) :
    stringBody none (numberEscape c.toNat ++ rest) = prepend (Text.encodeChar c) (stringBody none rest) := by
  have hvalid := Text.toNat_valid c
  have hunit : addUnit none c.toNat = (Text.encodeChar c, none) := by
    rw [addUnit, if_neg (by omega), charBytes, if_neg (by omega), Char.ofNat_toNat]
  show stringBody none ('\\' :: 'u' :: (c.toNat / 16 / 16 / 16 % 16).digitChar ::
    (c.toNat / 16 / 16 % 16).digitChar :: (c.toNat / 16 % 16).digitChar :: (c.toNat % 16).digitChar :: rest) = _
  rw [stringBody]
  simp only [hexDigits?_hex h, hunit]
  cases stringBody none rest with
  | none => rfl
  | some p => rfl

/-- A byte of a character beyond ASCII is neither a control character nor one that is escaped. -/
theorem stringBody_bytes {bytes : List Char}
    (h : ∀ b ∈ bytes, ¬b.toNat < 0x20 ∧ b ≠ '"' ∧ b ≠ '\\') (rest : List Char) :
    stringBody none (bytes ++ rest) = prepend bytes (stringBody none rest) := by
  induction bytes with
  | nil =>
      cases hr : stringBody none rest with
      | none => rw [List.nil_append, hr]; rfl
      | some p => rw [List.nil_append, hr]; rfl
  | cons b bytes ih =>
      obtain ⟨hctrl, hquote, hback⟩ := h b List.mem_cons_self
      rw [List.cons_append, stringBody_plain hctrl hquote hback, ih fun c hc => h c (List.mem_cons_of_mem b hc),
        ← prepend_append]
      rfl

theorem shortEscape?_shortEscape {c letter : Char} (h : shortEscape c = some letter) :
    shortEscape? letter = some c := by
  unfold shortEscape at h
  split at h <;> cases h <;> rfl

theorem solid_of_mem_encodeChar {c b : Char} (hctrl : ¬c.toNat < 0x20) (hquote : c ≠ '"') (hback : c ≠ '\\')
    (hb : b ∈ Text.encodeChar c) : ¬b.toNat < 0x20 ∧ b ≠ '"' ∧ b ≠ '\\' := by
  by_cases hascii : c.toNat < 0x80
  · rw [Text.encodeChar_ascii hascii] at hb
    rw [List.mem_singleton.mp hb]
    exact ⟨hctrl, hquote, hback⟩
  · have hhigh : 0x80 ≤ b.toNat := Text.le_of_mem_encodeChar (by omega) hb
    refine ⟨by omega, ?_, ?_⟩
    · rintro rfl
      revert hhigh
      decide
    · rintro rfl
      revert hhigh
      decide

theorem stringBody_writtenChar (escaping : Escaping) (c : Char) (rest : List Char) :
    stringBody none (writtenChar escaping c ++ rest) = prepend (Text.encodeChar c) (stringBody none rest) := by
  unfold writtenChar
  split
  · next h =>
    have hescape : shortEscape? c = some c ∧ Text.encodeChar c = [c] := by
      rcases Bool.or_eq_true_iff.mp h with h | h
      · rw [beq_iff_eq.mp h]
        exact ⟨rfl, rfl⟩
      · rw [beq_iff_eq.mp h]
        exact ⟨rfl, rfl⟩
    rw [hescape.2]
    exact stringBody_escape hescape.1 rest
  · next hplain =>
    simp only [Bool.or_eq_true, beq_iff_eq, not_or] at hplain
    split
    · next letter h =>
      have hascii : Text.encodeChar c = [c] := by
        unfold shortEscape at h
        split at h <;> first | rfl | cases h
      rw [hascii]
      exact stringBody_escape (shortEscape?_shortEscape h) rest
    · split
      · next h =>
        simp only [Bool.or_eq_true, decide_eq_true_eq, beq_iff_eq] at h
        exact stringBody_numberEscape (by omega) rest
      · next hctrl =>
        simp only [Bool.or_eq_true, decide_eq_true_eq, beq_iff_eq, not_or] at hctrl
        split
        · next h =>
          simp only [Bool.and_eq_true, Bool.or_eq_true, beq_iff_eq] at h
          refine stringBody_numberEscape ?_ rest
          rcases h.2 with (h | h) | h <;> rw [h] <;> decide
        · exact stringBody_bytes (fun b hb => solid_of_mem_encodeChar hctrl.1.1 hplain.1 hplain.2 hb) rest

theorem stringBody_written (escaping : Escaping) (cs rest : List Char) :
    stringBody none ((cs.map Glyph.char).flatMap (writtenGlyph escaping) ++ '"' :: rest)
      = some (cs.flatMap Text.encodeChar, rest) := by
  induction cs with
  | nil => rfl
  | cons c cs ih =>
      rw [List.map_cons, List.flatMap_cons, writtenGlyph, List.append_assoc, stringBody_writtenChar, ih]
      rfl

theorem toList_writtenString (escaping : Escaping) (t : Text) (rest : List Char) :
    (writtenString escaping t).toList ++ rest
      = '"' :: ((Text.toGlyphs t).flatMap (writtenGlyph escaping) ++ '"' :: rest) := by
  rw [writtenString, String.toList_ofList]
  simp only [List.cons_append, List.append_assoc, List.nil_append]

theorem stringBody_writtenString (escaping : Escaping) {t : Text} (ht : t.isUtf8 = true) (rest : List Char) :
    stringBody none ((Text.toGlyphs t).flatMap (writtenGlyph escaping) ++ '"' :: rest)
      = some (t.toList, rest) := by
  obtain ⟨cs, rfl⟩ := Text.isUtf8_iff.mp ht
  rw [Text.toGlyphs_encode, stringBody_written, Text.encode, String.toList_ofList]

/-! ### Blanks -/

theorem skip_solid (dialect : Dialect) {c : Char} (hblank : isBlank c = false) (hslash : c ≠ '/')
    (rest : List Char) : skip dialect .blank (c :: rest) = some (c :: rest) := by
  rw [skip]
  · rw [hblank]
    rfl
  · exact fun _ h => absurd h hslash
  · exact fun _ h => absurd h hslash

/-! ### Steps of the reader -/

/-- What was read, and what follows it. -/
def Gives {α : Type} {s : List Char} (read : Option (α × Rest s)) (a : α) (rest : List Char) : Prop :=
  ∃ h, read = some (a, ⟨rest, h⟩)

section Steps

variable {dialect : Dialect} {s s₁ s₂ s₃ s₄ : List Char} {j : Json}

theorem value_str {body : List Char} (h : stringBody none s₁ = some (body, s₂)) :
    Gives (value dialect ('"' :: s₁)) (.str (Text.repair (String.ofList body))) s₂ := by
  have hlt := length_stringBody_lt h
  refine ⟨by simp only [List.length_cons]; omega, ?_⟩
  rw [value]
  split
  · next h' =>
    rw [h] at h'
    cases h'
  · next h' =>
    rw [h] at h'
    cases h'
    rfl

theorem value_arr_nil (h : skip dialect .blank s₁ = some (']' :: s₂)) :
    Gives (value dialect ('[' :: s₁)) (.arr []) s₂ := by
  have hlt := length_lt_of_skip h
  refine ⟨by simp only [List.length_cons]; omega, ?_⟩
  rw [value]
  split
  · next h' =>
    rw [h] at h'
    cases h'
  · next h' =>
    rw [h] at h'
    cases h'
    rfl
  · next hne h' =>
    rw [h] at h'
    cases h'
    exact absurd rfl (hne _)

theorem value_arr {js : List Json} (h : skip dialect .blank s₁ = some s₂) (hne : ∀ r, s₂ ≠ ']' :: r)
    (hitems : Gives (items dialect s₂) js s₃) : Gives (value dialect ('[' :: s₁)) (.arr js) s₃ := by
  obtain ⟨hlt, hitems⟩ := hitems
  have hle := length_skip_le h
  refine ⟨by simp only [List.length_cons]; omega, ?_⟩
  rw [value]
  split
  · next h' =>
    rw [h] at h'
    cases h'
  · next h' =>
    rw [h] at h'
    cases h'
    exact absurd rfl (hne _)
  · next h' =>
    rw [h] at h'
    cases h'
    simp only [hitems]

theorem value_obj_nil (h : skip dialect .blank s₁ = some ('\x7d' :: s₂)) :
    Gives (value dialect ('\x7b' :: s₁)) (.obj []) s₂ := by
  have hlt := length_lt_of_skip h
  refine ⟨by simp only [List.length_cons]; omega, ?_⟩
  rw [value]
  split
  · next h' =>
    rw [h] at h'
    cases h'
  · next h' =>
    rw [h] at h'
    cases h'
    rfl
  · next hne h' =>
    rw [h] at h'
    cases h'
    exact absurd rfl (hne _)

theorem value_obj {ms : List (Text × Json)} (h : skip dialect .blank s₁ = some s₂)
    (hne : ∀ r, s₂ ≠ '\x7d' :: r) (hmembers : Gives (members dialect s₂) ms s₃) :
    Gives (value dialect ('\x7b' :: s₁)) (.obj ms) s₃ := by
  obtain ⟨hlt, hmembers⟩ := hmembers
  have hle := length_skip_le h
  refine ⟨by simp only [List.length_cons]; omega, ?_⟩
  rw [value]
  split
  · next h' =>
    rw [h] at h'
    cases h'
  · next h' =>
    rw [h] at h'
    cases h'
    exact absurd rfl (hne _)
  · next h' =>
    rw [h] at h'
    cases h'
    simp only [hmembers]

theorem value_num {text : List Char} (hfirst : ∀ c ∈ s.head?, c.isDigit = true ∨ c = '-')
    (h : number s = some (text, s₁)) : Gives (value dialect s) (.num (String.ofList text)) s₁ := by
  refine ⟨length_number_lt h, ?_⟩
  cases s with
  | nil => cases h
  | cons c r =>
      have hc := hfirst c rfl
      rw [value]
      · split
        · next h' =>
          rw [h] at h'
          cases h'
        · next h' =>
          rw [h] at h'
          cases h'
          rfl
      all_goals
        intros
        subst_vars
        revert hc
        decide

/-- What follows an item of a list: the end of the list, or a comma and further items, of which `Read` tells
how they are read. -/
inductive Continues {α : Type} (dialect : Dialect) (close : Char)
    (Read : List Char → List α → List Char → Prop) : List Char → List α → List Char → Prop
  | last {s rest : List Char} (h : skip dialect .blank s = some (close :: rest)) :
      Continues dialect close Read s [] rest
  | more {s s₁ s₂ rest : List Char} {as : List α} (h : skip dialect .blank s = some (',' :: s₁))
      (hblank : skip dialect .blank s₁ = some s₂) (hne : ∀ r, s₂ ≠ close :: r) (hread : Read s₂ as rest) :
      Continues dialect close Read s as rest

theorem not_closes {close : Char} (h : ∀ r, s ≠ close :: r) : ¬(dialect = .relaxed ∧ s.head? = some close) := by
  rintro ⟨-, hhead⟩
  obtain ⟨r, hr⟩ := List.head?_eq_some_iff.mp hhead
  exact h r hr

theorem items_cons {js : List Json} (hvalue : Gives (value dialect s) j s₁)
    (hrest : Continues dialect ']' (fun s => Gives (items dialect s)) s₁ js s₂) :
    Gives (items dialect s) (j :: js) s₂ := by
  obtain ⟨hlt, hvalue⟩ := hvalue
  unfold Gives
  rw [items]
  simp only [hvalue]
  cases hrest with
  | last h =>
      have := length_lt_of_skip h
      refine ⟨by omega, ?_⟩
      split
      · next h' =>
        rw [h] at h'
        cases h'
        rfl
      · next h' =>
        rw [h] at h'
        cases h'
      · next hne _ => exact absurd h (hne _)
  | more h hblank hne hread =>
      obtain ⟨hlt₂, hread⟩ := hread
      have := length_lt_of_skip h
      have := length_skip_le hblank
      refine ⟨by omega, ?_⟩
      split
      · next h' =>
        rw [h] at h'
        cases h'
      · next h' =>
        rw [h] at h'
        cases h'
        split
        · next h' =>
          rw [hblank] at h'
          cases h'
        · next h' =>
          rw [hblank] at h'
          cases h'
          rw [if_neg (not_closes hne)]
          simp only [hread]
      · next _ hne' => exact absurd h (hne' _)

theorem members_cons {body s₅ : List Char} {ms : List (Text × Json)}
    (hname : stringBody none s = some (body, s₁)) (hcolon : skip dialect .blank s₁ = some (':' :: s₂))
    (hblank : skip dialect .blank s₂ = some s₃) (hvalue : Gives (value dialect s₃) j s₄)
    (hrest : Continues dialect '\x7d' (fun s => Gives (members dialect s)) s₄ ms s₅) :
    Gives (members dialect ('"' :: s)) ((Text.repair (String.ofList body), j) :: ms) s₅ := by
  obtain ⟨hlt, hvalue⟩ := hvalue
  have hlt₁ := length_stringBody_lt hname
  have hlt₂ := length_lt_of_skip hcolon
  have hle₃ := length_skip_le hblank
  unfold Gives
  rw [members]
  split
  · next h' =>
    rw [hname] at h'
    cases h'
  · next h' =>
    rw [hname] at h'
    cases h'
    split
    · next h' =>
      rw [hcolon] at h'
      cases h'
      split
      · next h' =>
        rw [hblank] at h'
        cases h'
      · next h' =>
        rw [hblank] at h'
        cases h'
        simp only [hvalue]
        cases hrest with
        | last h =>
            have := length_lt_of_skip h
            refine ⟨by simp only [List.length_cons]; omega, ?_⟩
            split
            · next h' =>
              rw [h] at h'
              cases h'
              rfl
            · next h' =>
              rw [h] at h'
              cases h'
            · next hne _ => exact absurd h (hne _)
        | more h hblank hne hread =>
            obtain ⟨hlt₅, hread⟩ := hread
            have := length_lt_of_skip h
            have := length_skip_le hblank
            refine ⟨by simp only [List.length_cons]; omega, ?_⟩
            split
            · next h' =>
              rw [h] at h'
              cases h'
            · next h' =>
              rw [h] at h'
              cases h'
              split
              · next h' =>
                rw [hblank] at h'
                cases h'
              · next h' =>
                rw [hblank] at h'
                cases h'
                rw [if_neg (not_closes hne)]
                simp only [hread]
            · next _ hne' => exact absurd h (hne' _)
    · next hne => exact absurd hcolon (hne _)

end Steps

end Gradual.Json
