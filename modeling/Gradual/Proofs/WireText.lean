import Gradual.Proofs.DecodedTypes
import Gradual.Proofs.EntryText

/-! Types, signatures and interfaces as JSON texts. What is written is read back as it was. What is read from any
text at all is a type that can be written, since the texts in it were repaired on the way; so a type that was
read once is the same ever after. -/

namespace Gradual

namespace Json

/-! ### Texts that are read -/

section Parsed

variable {dialect : Dialect} {s : List Char}

/-- All texts of what is read from the beginning of `s` are UTF-8. -/
structure ReadsUtf8 (dialect : Dialect) (s : List Char) : Prop where
  value : ∀ {j : Json} {rest : Rest s}, value dialect s = some (j, rest) → j.AllTexts (·.isUtf8 = true)
  items : ∀ {js : List Json} {rest : Rest s}, items dialect s = some (js, rest) →
    ∀ j ∈ js, j.AllTexts (·.isUtf8 = true)
  members : ∀ {ms : List (Text × Json)} {rest : Rest s}, members dialect s = some (ms, rest) →
    ∀ m ∈ ms, m.1.isUtf8 = true ∧ m.2.AllTexts (·.isUtf8 = true)

theorem isUtf8_repair (t : Text) : (Text.repair t).isUtf8 = true := Text.isUtf8_iff.mpr ⟨_, rfl⟩

theorem allTexts_value (ih : ∀ s', s'.length < s.length → ReadsUtf8 dialect s') {j : Json} {rest : Rest s}
    (h : value dialect s = some (j, rest)) : j.AllTexts (·.isUtf8 = true) := by
  rw [value.eq_def] at h
  split at h
  · cases h
  · split at h
    · cases h
    · cases h
      exact .str (isUtf8_repair _)
  · next s₁ =>
    split at h
    · cases h
    · cases h
      exact .arr (List.forall_mem_nil _)
    · next s₂ _ hskip =>
      split at h
      · cases h
      · next hitems =>
        cases h
        exact .arr ((ih s₂ (Nat.lt_succ_of_le (length_skip_le hskip))).items hitems)
  · next s₁ =>
    split at h
    · cases h
    · cases h
      exact .obj (List.forall_mem_nil _) (List.forall_mem_nil _)
    · next s₂ _ hskip =>
      split at h
      · cases h
      · next hmembers =>
        cases h
        have hms := (ih s₂ (Nat.lt_succ_of_le (length_skip_le hskip))).members hmembers
        exact .obj (fun m hm => (hms m hm).1) fun m hm => (hms m hm).2
  · cases h
    exact .null
  · cases h
    exact .bool true
  · cases h
    exact .bool false
  · split at h
    · cases h
    · cases h
      exact .num _

theorem allTexts_items (ih : ∀ s', s'.length < s.length → ReadsUtf8 dialect s')
    (hvalue : ∀ {j : Json} {rest : Rest s}, value dialect s = some (j, rest) → j.AllTexts (·.isUtf8 = true))
    {js : List Json} {rest : Rest s} (h : items dialect s = some (js, rest)) :
    ∀ j ∈ js, j.AllTexts (·.isUtf8 = true) := by
  rw [items] at h
  split at h
  · cases h
  · next j s₁ hlt hread =>
    have hj := hvalue hread
    split at h
    · cases h
      exact List.forall_mem_singleton.mpr hj
    · next s₂ hcomma =>
      have := length_lt_of_skip hcomma
      split at h
      · cases h
      · next s₃ hskip =>
        have := length_skip_le hskip
        dsimp only at h
        split at h
        · cases h
          exact List.forall_mem_singleton.mpr hj
        · split at h
          · cases h
          · next hitems =>
            cases h
            exact List.forall_mem_cons.mpr ⟨hj, (ih _ (by omega)).items hitems⟩
    · cases h

theorem allTexts_members (ih : ∀ s', s'.length < s.length → ReadsUtf8 dialect s') {ms : List (Text × Json)}
    {rest : Rest s} (h : members dialect s = some (ms, rest)) :
    ∀ m ∈ ms, m.1.isUtf8 = true ∧ m.2.AllTexts (·.isUtf8 = true) := by
  rw [members.eq_def] at h
  split at h
  · next s₁ =>
    split at h
    · cases h
    · next body s₂ hbody =>
      have := length_stringBody_lt hbody
      split at h
      · next s₃ hcolon =>
        have := length_lt_of_skip hcolon
        split at h
        · cases h
        · next s₄ hskip =>
          have := length_skip_le hskip
          split at h
          · cases h
          · next j s₅ _ hvalue =>
            have hj := (ih s₄ (by simp only [List.length_cons]; omega)).value hvalue
            have hmember := And.intro (isUtf8_repair (String.ofList body)) hj
            split at h
            · cases h
              exact List.forall_mem_singleton.mpr hmember
            · next s₆ hcomma =>
              have := length_lt_of_skip hcomma
              split at h
              · cases h
              · next s₇ hskip =>
                have := length_skip_le hskip
                dsimp only at h
                split at h
                · cases h
                  exact List.forall_mem_singleton.mpr hmember
                · split at h
                  · cases h
                  · next hmembers =>
                    cases h
                    have hms := (ih _ (by simp only [List.length_cons]; omega)).members hmembers
                    exact List.forall_mem_cons.mpr ⟨hmember, hms⟩
            · cases h
      · cases h
  · cases h

theorem readsUtf8 (dialect : Dialect) (s : List Char) : ReadsUtf8 dialect s := by
  obtain ⟨n, hn⟩ : ∃ n, s.length = n := ⟨_, rfl⟩
  induction n using Nat.strongRecOn generalizing s with
  | ind n ih =>
      subst hn
      have ih : ∀ s', s'.length < s.length → ReadsUtf8 dialect s' := fun s' hlt => ih _ hlt s' rfl
      exact ⟨allTexts_value ih, allTexts_items ih (allTexts_value ih), allTexts_members ih⟩

theorem allTexts_parse {t : Text} {j : Json} (h : parse dialect t = some j) : j.AllTexts (·.isUtf8 = true) := by
  unfold parse at h
  split at h
  · cases h
  · split at h
    · cases h
    · next hvalue =>
      split at h
      · cases h
        exact (readsUtf8 dialect _).value hvalue
      · cases h

end Parsed

section Travels

variable {ε α : Type} {read : Json → Except ε α}

end Travels

end Json

/-! ### Signatures -/

theorem Signature.ofJson_toJson {sig : Signature} (h : ∀ t ∈ (Alt.function (some sig)).parts, Wire.ReadsBack t) :
    Signature.ofJson sig.toJson = .ok sig := by
  have hparams : ∀ p ∈ sig.params, Wire.ReadsBack p.type := fun p hp =>
    h p.type (List.mem_cons_of_mem _ (List.mem_map_of_mem hp))
  have hoptional := Wire.readOptionalSignature_toJson hparams (h sig.result List.mem_cons_self)
  obtain ⟨params, result⟩ := sig
  have htake : (Json.Draft.take (Signature.ofJson (Signature.mk params result).toJson) >>= fun sig =>
      pure (some sig) : Wire.Draft (Option Signature)) = .ok (some ⟨params, result⟩) := hoptional
  cases hread : Signature.ofJson (Signature.mk params result).toJson with
  | error e =>
      rw [hread] at htake
      cases htake
  | ok sig =>
      rw [hread] at htake
      cases htake
      rfl

theorem Ty.Portable.signature {t : Ty} (h : t.Portable) {sig : Signature} (hsig : .function (some sig) ∈ t.alts) :
    sig.toJson.Writable ∧ Signature.ofJson sig.toJson = .ok sig := by
  have hparts := h.alt hsig
  refine ⟨?_, Signature.ofJson_toJson fun u hu => Ty.Portable.ofJson_toJson (hparts u hu)⟩
  have hfunction := Alt.writable_toJson (h.here.2 _ hsig) fun u hu => Ty.Portable.writable (hparts u hu)
  cases hfunction with
  | obj _ hmembers => exact hmembers ("sig", sig.toJson) mem_second

/-! ### Texts of types and interfaces -/

instance : DecidablePred Alt.IsPortable := fun a =>
  match a with
  | .custom name host => inferInstanceAs (Decidable (host.isNone = true ∧ name ≠ "" ∧ name.isUtf8 = true))
  | .struct fields _ => inferInstanceAs (Decidable (∀ f ∈ fields, f.1.isUtf8 = true))
  | .function (some sig) => inferInstanceAs (Decidable (∀ p ∈ sig.params, p.name.isUtf8 = true))
  | .function none | .any | .prim _ | .list _ | .tuple _ | .tupleOf _ | .dict _ _ | .iterable _ => isTrue trivial

end Gradual
