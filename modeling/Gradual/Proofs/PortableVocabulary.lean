import Gradual.Proofs.Operations
import Gradual.Proofs.StrippedTypes
import Gradual.Proofs.WireForm

/-! The vocabulary of what can be stored: names in UTF-8 and portable types. Types that may carry hosts are spoken of
instead, and what is left of them without hosts is portable. The spoken vocabulary is closed, since the texts of its
types are UTF-8 and the operations on types make such types of such types. -/

namespace Gradual

/-- Names in UTF-8 and portable types. -/
def Vocabulary.portable : Vocabulary where
  IsName name := name.isUtf8 = true
  IsType := Ty.Portable

/-! ### The texts of portable types -/

theorem Text.holds_join {P : Text → Prop} (happend : ∀ {s t : Text}, P s → P t → P (s ++ t)) (hempty : P "")
    {separator : Text} {parts : List Text} (hseparator : P separator) (hparts : ∀ t ∈ parts, P t) :
    P (join separator parts) := by
  fun_induction join separator parts with
  | case1 => exact hempty
  | case2 t => exact hparts t List.mem_cons_self
  | case3 t rest _ ih =>
      obtain ⟨ht, hrest⟩ := List.forall_mem_cons.mp hparts
      exact happend (happend ht hseparator) (ih hrest)

theorem Text.isUtf8_join {separator : Text} {parts : List Text} (hseparator : separator.isUtf8 = true)
    (hparts : ∀ t ∈ parts, t.isUtf8 = true) : (join separator parts).isUtf8 = true :=
  holds_join (P := (·.isUtf8 = true)) isUtf8_append rfl hseparator hparts

theorem Text.isUtf8_enclosed {start inside final : Text} (hstart : start.isUtf8 = true)
    (hinside : inside.isUtf8 = true) (hfinal : final.isUtf8 = true) : (start ++ inside ++ final).isUtf8 = true :=
  isUtf8_append (isUtf8_append hstart hinside) hfinal

theorem Ty.isUtf8_texts {ts : List Ty} (h : ∀ t ∈ ts, t.text.isUtf8 = true) : ∀ s ∈ texts ts, s.isUtf8 = true := by
  induction ts with
  | nil => exact List.forall_mem_nil _
  | cons t ts ih =>
      obtain ⟨ht, hts⟩ := List.forall_mem_cons.mp h
      exact List.forall_mem_cons.mpr ⟨ht, ih hts⟩

theorem Ty.isUtf8_fieldTexts {fields : List (Text × Ty)} (hnames : ∀ f ∈ fields, f.1.isUtf8 = true)
    (h : ∀ f ∈ fields, f.2.text.isUtf8 = true) : ∀ s ∈ fieldTexts fields, s.isUtf8 = true := by
  induction fields with
  | nil => exact List.forall_mem_nil _
  | cons f fields ih =>
      obtain ⟨hname, hnames⟩ := List.forall_mem_cons.mp hnames
      obtain ⟨hf, h⟩ := List.forall_mem_cons.mp h
      exact List.forall_mem_cons.mpr ⟨Text.isUtf8_append (Text.isUtf8_append hname rfl) hf, ih hnames h⟩

theorem Param.isUtf8_text {p : Param} (hname : p.name.isUtf8 = true) (htype : p.type.text.isUtf8 = true) :
    p.text.isUtf8 = true := by
  obtain ⟨mode, name, type, optional⟩ := p
  have hstars : mode.stars.isUtf8 = true := by cases mode <;> rfl
  refine Text.isUtf8_append (Text.isUtf8_append (Text.isUtf8_enclosed hstars hname rfl) htype) ?_
  cases optional <;> rfl

theorem Param.isUtf8_parts {params : List Param} (h : ∀ p ∈ params, p.text.isUtf8 = true)
    (afterPosOnly starred : Bool) : ∀ s ∈ parts afterPosOnly starred params, s.isUtf8 = true := by
  have hmark : ∀ (c : Bool) (mark : Text), mark.isUtf8 = true →
      ∀ s ∈ (if c then [mark] else []), s.isUtf8 = true := by
    intro c mark hmark
    split
    · exact List.forall_mem_singleton.mpr hmark
    · exact List.forall_mem_nil _
  induction params generalizing afterPosOnly starred with
  | nil => exact hmark afterPosOnly "/" rfl
  | cons p rest ih =>
      obtain ⟨hp, hrest⟩ := List.forall_mem_cons.mp h
      rw [parts, List.forall_mem_append, List.forall_mem_append, List.forall_mem_cons]
      exact ⟨⟨hmark _ "/" rfl, hmark _ "*" rfl⟩, hp, ih hrest _ _⟩

theorem Alt.isUtf8_text {a : Alt} (h : a.IsPortable) (hparts : ∀ t ∈ a.parts, t.text.isUtf8 = true) :
    a.text.isUtf8 = true := by
  cases a with
  | any => rfl
  | prim p => cases p <;> rfl
  | list elem | tupleOf elem | iterable elem => exact Text.isUtf8_enclosed rfl (hparts elem List.mem_cons_self) rfl
  | tuple elems =>
      rw [text]
      split
      · rfl
      · exact Text.isUtf8_enclosed rfl (Text.isUtf8_join rfl (Ty.isUtf8_texts hparts)) rfl
  | dict key value =>
      have hkey : Text.isUtf8 ("dict[" ++ key.text ++ ", ") = true :=
        Text.isUtf8_enclosed rfl (hparts key List.mem_cons_self) rfl
      exact Text.isUtf8_enclosed hkey (hparts value mem_second) rfl
  | function sig =>
      cases sig with
      | none => rfl
      | some sig =>
          have hparams : ∀ p ∈ sig.params, p.text.isUtf8 = true := fun p hp =>
            p.isUtf8_text (h p hp) (hparts p.type (List.mem_cons_of_mem _ (List.mem_map_of_mem hp)))
          have hresult := hparts sig.result List.mem_cons_self
          obtain ⟨params, result⟩ := sig
          exact Text.isUtf8_append (Text.isUtf8_enclosed rfl
            (Text.isUtf8_join rfl (Param.isUtf8_parts hparams false false)) rfl) hresult
  | struct fields isOpen =>
      have hfields : ∀ f ∈ fields, f.2.text.isUtf8 = true := fun f hf => hparts f.2 (List.mem_map_of_mem hf)
      refine Text.isUtf8_enclosed rfl (Text.isUtf8_join rfl ?_) rfl
      refine List.forall_mem_append.mpr ⟨Ty.isUtf8_fieldTexts h hfields, ?_⟩
      cases isOpen with
      | false => exact List.forall_mem_nil _
      | true => exact List.forall_mem_singleton.mpr rfl
  | custom name host => exact h.2.2

theorem Ty.Portable.isUtf8_text {t : Ty} (h : t.Portable) : t.text.isUtf8 = true := by
  induction h with
  | @intro t here _ ih =>
      obtain ⟨alts⟩ := t
      have htexts : ∀ as : List Alt, (∀ a ∈ as, a ∈ alts) → ∀ s ∈ Alt.texts as, s.isUtf8 = true := by
        intro as has
        induction as with
        | nil => exact List.forall_mem_nil _
        | cons a as ihas =>
            obtain ⟨ha, has⟩ := List.forall_mem_cons.mp has
            exact List.forall_mem_cons.mpr ⟨a.isUtf8_text (here.2 a ha) (ih a ha), ihas has⟩
      rw [text]
      split
      · rfl
      · exact Text.isUtf8_join rfl (htexts alts fun _ ha => ha)

/-! ### Spoken types -/

/-- An alternative whose own names are UTF-8, and which has a host only if `hosted` is set. -/
def Alt.IsSpoken (hosted : Bool) : Alt → Prop
  | .custom name host => (hosted || host.isNone) = true ∧ name ≠ "" ∧ name.isUtf8 = true
  | .struct fields _ => ∀ f ∈ fields, f.1.isUtf8 = true
  | .function (some sig) => ∀ p ∈ sig.params, p.name.isUtf8 = true
  | _ => True

/-- A type that is normal and whose names are UTF-8, with every type inside it and all that its hosts answer. -/
def Ty.Spoken (hosted : Bool) : Ty → Prop :=
  Ty.Throughout fun t => t.IsNormalUnion ∧ ∀ a ∈ t.alts, a.IsSpoken hosted

/-- Names in UTF-8 and spoken types. -/
def Vocabulary.spoken (hosted : Bool) : Vocabulary where
  IsName name := name.isUtf8 = true
  IsType := Ty.Spoken hosted

variable {hosted : Bool}

theorem Alt.IsSpoken.plain {a : Alt} (h : a.IsSpoken hosted) : a.plain.IsPortable := by
  cases a with
  | custom name host => exact ⟨rfl, h.2⟩
  | struct fields isOpen =>
      rw [Alt.plain, strip, Ty.stripFields_eq_map]
      exact List.forall_mem_map.mpr h
  | function sig =>
      cases sig with
      | none => trivial
      | some sig =>
          obtain ⟨params, result⟩ := sig
          show ∀ p ∈ Param.stripEach true params, p.name.isUtf8 = true
          rw [Param.stripEach_eq_map]
          refine List.forall_mem_map.mpr fun p hp => ?_
          have hname := h p hp
          cases p
          exact hname
  | _ => trivial

theorem Ty.Spoken.plain {t : Ty} (h : t.Spoken hosted) : t.plain.Portable := by
  refine Everywhere.plain h.everywhere fun u hu => ⟨hu.1.strip true, ?_⟩
  rw [Ty.alts_strip]
  exact List.forall_mem_map.mpr fun a ha => (hu.2 a ha).plain

theorem Ty.Portable.spoken {t : Ty} (h : t.Portable) : t.Spoken hosted := by
  induction h with
  | @intro t here _ ih =>
      have hname : ∀ a ∈ t.alts, a.IsSpoken hosted := by
        intro a ha
        have hportable := here.2 a ha
        cases a with
        | custom => exact ⟨Bool.or_eq_true_iff.mpr (.inr hportable.1), hportable.2⟩
        | function sig => cases sig <;> exact hportable
        | _ => exact hportable
      refine .intro ⟨here.1, hname⟩ fun a ha u hu => ih a ha u ?_
      have hportable := here.2 a ha
      cases a with
      | custom name host =>
          rw [Option.isNone_iff_eq_none.mp hportable.1] at hu
          exact hu
      | _ => exact hu

theorem Ty.Spoken.plain_eq {t : Ty} (h : t.Spoken false) : t.plain = t := by
  have hportable : t.Portable := by
    refine h.everywhere.mono fun u hu => ⟨hu.1, fun a ha => ?_⟩
    have hspoken := hu.2 a ha
    cases a with
    | function sig => cases sig <;> exact hspoken
    | _ => exact hspoken
  have hread := h.plain.ofJson_toJson
  rw [toJson_strip, hportable.ofJson_toJson] at hread
  exact (Except.ok.inj hread).symm

/-! ### Closure -/

theorem Ty.invariant_spoken : Ty.Invariant (Ty.Spoken hosted) := by
  have hboth : (Ty.Everywhere fun t => t.IsNormalUnion ∧ ∀ a ∈ t.alts, a.IsSpoken hosted) =
      fun t => t.Normal ∧ t.Everywhere fun t => ∀ a ∈ t.alts, a.IsSpoken hosted :=
    funext fun t => propext ⟨fun h => ⟨h.mono fun _ h => h.1, h.mono fun _ h => h.2⟩, fun h => h.1.and h.2⟩
  refine Invariant.throughout (hboth ▸ invariant_normal.and (invariant_everyAlt fun a hcontainer => ?_))
  cases a with
  | list | tuple | tupleOf | dict | iterable => trivial
  | _ => cases hcontainer

theorem Ty.spoken_only_iff {a : Alt} :
    (Ty.only a).Spoken hosted ↔ (a.hasSortedFields = true ∧ a.IsSpoken hosted) ∧
      ∀ t, a.Contains t → t.Spoken hosted := by
  have hsingle : (Ty.only a).IsNormalUnion ↔ a.hasSortedFields = true := by
    rw [isNormalUnion_iff]
    simp [only]
  rw [Spoken, throughout_only_iff, hsingle]
  exact and_congr_left' (and_congr_right' List.forall_mem_singleton)

theorem Vocabulary.closed_spoken : (spoken hosted).Closed where
  toInvariant := Ty.invariant_spoken
  append := Text.isUtf8_append
  ascii := Text.isUtf8_of_isAscii
  quoted := Text.isUtf8_quoted
  number := Text.isUtf8_toString
  text {t} h := by
    rw [← t.text_strip true]
    exact (Ty.Spoken.plain h).isUtf8_text
  any := Ty.spoken_only_iff.mpr ⟨⟨rfl, trivial⟩, List.forall_mem_nil _⟩
  prim _ := Ty.spoken_only_iff.mpr ⟨⟨rfl, trivial⟩, List.forall_mem_nil _⟩
  callable := Ty.spoken_only_iff.mpr ⟨⟨rfl, trivial⟩, List.forall_mem_nil _⟩
  function := by
    intro sig
    refine Iff.trans ?_ Ty.spoken_only_iff.symm
    constructor
    · intro h
      refine ⟨⟨rfl, fun p hp => (h.params p hp).name⟩, List.forall_mem_cons.mpr ⟨h.result, ?_⟩⟩
      exact List.forall_mem_map.mpr fun p hp => (h.params p hp).type
    · rintro ⟨⟨-, hnames⟩, hparts⟩
      obtain ⟨hresult, htypes⟩ := List.forall_mem_cons.mp hparts
      exact ⟨fun p hp => ⟨hnames p hp, htypes p.type (List.mem_map_of_mem hp)⟩, hresult⟩
  record := by
    intro fields isOpen hsorted hfields
    refine Ty.spoken_only_iff.mpr ⟨⟨decide_eq_true hsorted, fun f hf => (hfields f hf).1⟩, ?_⟩
    exact List.forall_mem_map.mpr fun f hf => (hfields f hf).2
  named := by
    intro name hname hfree
    refine Ty.spoken_only_iff.mpr ⟨⟨rfl, Bool.or_true _, ?_, hname⟩, List.forall_mem_nil _⟩
    rintro rfl
    exact absurd hfree (by decide)
  host h := (Ty.spoken_only_iff.mp h).2

theorem Vocabulary.mayBreak_spoken : (spoken hosted).MayBreak :=
  ⟨none, Ty.spoken_only_iff.mpr ⟨⟨rfl, Bool.or_true _, by decide, rfl⟩, List.forall_mem_nil _⟩⟩

theorem Oracle.Within.guarded_spoken {o : Oracle} (h : o.Within (.spoken hosted)) : o.Guarded (.spoken hosted) where
  toWithin := h
  attr_broken _ _ _ := Vocabulary.mayBreak_spoken
  binOp_broken _ _ _ _ := Vocabulary.mayBreak_spoken
  unOp_broken _ _ _ _ := Vocabulary.mayBreak_spoken

end Gradual
