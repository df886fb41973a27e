import Gradual.Proofs.Ensures
import Gradual.Proofs.WireForm

/-! What is read from JSON. Whatever the value, a type that is read from it is normal and carries no host, and
its names are texts of the value. The readers are walked one by one; each of them keeps what is known of the
members that were read before. -/

namespace Gradual

namespace Json

/-- All texts in a value satisfy `S`, the names of members included. -/
inductive AllTexts (S : Text → Prop) : Json → Prop
  | null : AllTexts S .null
  | bool (b : Bool) : AllTexts S (.bool b)
  | num (text : Text) : AllTexts S (.num text)
  | str {text : Text} (h : S text) : AllTexts S (.str text)
  | arr {items : List Json} (h : ∀ j ∈ items, AllTexts S j) : AllTexts S (.arr items)
  | obj {members : List (Text × Json)} (hnames : ∀ m ∈ members, S m.1) (h : ∀ m ∈ members, AllTexts S m.2) :
      AllTexts S (.obj members)

namespace AllTexts

variable {S : Text → Prop}

theorem items {js : List Json} (h : AllTexts S (.arr js)) : ∀ j ∈ js, AllTexts S j := by
  cases h with
  | arr h => exact h

theorem members {ms : List (Text × Json)} (h : AllTexts S (.obj ms)) : ∀ m ∈ ms, AllTexts S m.2 := by
  cases h with
  | obj _ h => exact h

end AllTexts

mutual

theorem allTexts_true : ∀ j : Json, AllTexts (fun _ => True) j
  | .null => .null
  | .bool b => .bool b
  | .num text => .num text
  | .str _ => .str trivial
  | .arr items => .arr (allTexts_true_items items)
  | .obj members => .obj (fun _ _ => trivial) (allTexts_true_members members)

theorem allTexts_true_items : ∀ (items : List Json), ∀ j ∈ items, AllTexts (fun _ => True) j
  | [] => List.forall_mem_nil _
  | j :: rest => List.forall_mem_cons.mpr ⟨allTexts_true j, allTexts_true_items rest⟩

theorem allTexts_true_members : ∀ (members : List (Text × Json)), ∀ m ∈ members, AllTexts (fun _ => True) m.2
  | [] => List.forall_mem_nil _
  | (_, j) :: rest => List.forall_mem_cons.mpr ⟨allTexts_true j, allTexts_true_members rest⟩

end

end Json

/-! ### Readings and what they give -/

theorem Ensures.readText {ε : Type} {S : Text → Prop} {current : Text} {j : Json} (hcurrent : S current)
    (hj : j.AllTexts S) : Ensures (Json.readText current j : Json.Draft ε Text) S := by
  cases hj with
  | str h => exact ok h
  | null => exact ok hcurrent
  | _ => exact error _

theorem Json.Items.all_shift {α : Type} {P : α → Prop} {items : Json.Items α} (hitems : ∀ a ∈ items.all, P a)
    {shown : List α} (hshown : ∀ a ∈ shown, P a) : ∀ a ∈ (items.shift shown).all, P a := by
  rw [shift]
  split
  · exact List.forall_mem_nil _
  · exact List.forall_mem_append.mpr ⟨hshown, fun a ha => hitems a (List.mem_of_mem_drop ha)⟩

/-! ### Types without hosts -/

namespace Ty

variable {S : Text → Prop}

theorem sent_only_iff {a : Alt} :
    (Ty.only a).Sent S ↔ (a.hasSortedFields = true ∧ a.IsSent S) ∧ ∀ t ∈ a.parts, t.Sent S := by
  have hsingle : (Ty.only a).IsNormalUnion ↔ a.hasSortedFields = true := by
    rw [isNormalUnion_iff]
    simp [only]
  rw [Sent, everywhere_only_iff, hsingle]
  exact and_congr_left' (and_congr_right' List.forall_mem_singleton)

theorem Sent.normal {t : Ty} (h : t.Sent S) : t.Normal := h.mono fun _ h => h.1

theorem sent_never : Ty.never.Sent S :=
  .intro ⟨⟨List.Pairwise.nil, fun h => absurd h List.not_mem_nil, fun _ _ h => absurd h List.not_mem_nil⟩,
    List.forall_mem_nil _⟩ (List.forall_mem_nil _)

theorem sent_any : Ty.any.Sent S := sent_only_iff.mpr ⟨⟨rfl, trivial⟩, List.forall_mem_nil _⟩

theorem sent_ofAlts {alts : List Alt} (h : ∀ a ∈ alts, (Ty.only a).Sent S) : (Ty.ofAlts alts).Sent S := by
  refine everywhere_ofAlts ⟨isNormalUnion_ofAlts fun fields isOpen hmem => ?_, fun a ha => ?_⟩ fun a ha =>
    (everywhere_only_iff.mp (h a ha)).2
  · exact (h _ hmem).here.1.fields fields isOpen List.mem_cons_self
  · exact (h a (mem_of_mem_ofAlts ha)).here.2 a List.mem_cons_self

end Ty

/-- The types of a signature are without hosts, and the names in it satisfy `S`. -/
structure Signature.Sent (S : Text → Prop) (sig : Signature) : Prop where
  params : ∀ p ∈ sig.params, S p.name ∧ p.type.Sent S
  result : sig.result.Sent S

namespace Wire

variable {S : Text → Prop}

/-- What is known of the members of an alternative that were read so far. -/
structure RawAlt.Sound (S : Text → Prop) (r : RawAlt) : Prop where
  name : S r.name
  elem : ∀ t, r.elem = some t → t.Sent S
  elems : ∀ t ∈ r.elems, t.Sent S
  key : ∀ t, r.key = some t → t.Sent S
  value : ∀ t, r.value = some t → t.Sent S
  sig : ∀ sig, r.sig = some sig → sig.Sent S
  fields : ∀ f ∈ r.fields.all, S f.1 ∧ f.2.Sent S

theorem RawAlt.sound_blank (hblank : S "") : RawAlt.Sound S {} where
  name := hblank
  elem _ h := nomatch h
  elems _ h := absurd h List.not_mem_nil
  key _ h := nomatch h
  value _ h := nomatch h
  sig _ h := nomatch h
  fields _ h := absurd h List.not_mem_nil

theorem sent_getD_any {o : Option Ty} (h : ∀ t, o = some t → t.Sent S) : (o.getD .any).Sent S := by
  cases o with
  | none => exact Ty.sent_any
  | some t => exact h t rfl

theorem RawAlt.Sound.toAlt {r : RawAlt} (h : r.Sound S) : Ensures r.toAlt fun a => (Ty.only a).Sent S := by
  have hleaf : ∀ {a : Alt}, a.hasSortedFields = true → a.IsSent S → a.parts = [] → (Ty.only a).Sent S :=
    fun hfields ha hparts => Ty.sent_only_iff.mpr ⟨⟨hfields, ha⟩, hparts ▸ List.forall_mem_nil _⟩
  have helem : ∀ {a : Alt}, a.hasSortedFields = true → a.IsSent S → a.parts = [r.elem.getD .any] →
      (Ty.only a).Sent S := fun hfields ha hparts =>
    Ty.sent_only_iff.mpr ⟨⟨hfields, ha⟩, hparts ▸ List.forall_mem_singleton.mpr (sent_getD_any h.elem)⟩
  unfold RawAlt.toAlt
  split
  iterate 5 exact .ok (hleaf rfl trivial rfl)
  · exact .ok (helem rfl trivial rfl)
  · refine .ok ?_
    split
    · exact helem rfl trivial rfl
    · exact Ty.sent_only_iff.mpr ⟨⟨rfl, trivial⟩, h.elems⟩
  · exact .ok (Ty.sent_only_iff.mpr ⟨⟨rfl, trivial⟩, List.forall_mem_cons.mpr
      ⟨sent_getD_any h.key, List.forall_mem_singleton.mpr (sent_getD_any h.value)⟩⟩)
  · exact .ok (helem rfl trivial rfl)
  · refine .ok ?_
    cases hsig : r.sig with
    | none => exact hleaf rfl trivial rfl
    | some sig =>
        have hsent := h.sig sig hsig
        refine Ty.sent_only_iff.mpr ⟨⟨rfl, fun p hp => (hsent.params p hp).1⟩, ?_⟩
        refine List.forall_mem_cons.mpr ⟨hsent.result, fun t ht => ?_⟩
        obtain ⟨p, hp, rfl⟩ := List.mem_map.mp ht
        exact (hsent.params p hp).2
  · -- The fields of a struct are put in order, and of several of one name one is kept.
    have hshown : ∀ f ∈ r.fields.shown, S f.1 ∧ f.2.Sent S := fun f hf =>
      h.fields f (List.mem_append_left _ hf)
    have hfields := NameMap.all_ofList (R := fun name (t : Ty) => S name ∧ t.Sent S) hshown
    refine .ok (Ty.sent_only_iff.mpr ⟨⟨decide_eq_true (NameMap.isSorted_ofList _), fun f hf =>
      (hfields f hf).1⟩, fun t ht => ?_⟩)
    obtain ⟨f, hf, rfl⟩ := List.mem_map.mp ht
    exact (hfields f hf).2
  · split
    · exact .error _
    · next hname => exact .ok (hleaf rfl ⟨rfl, hname, h.name⟩ rfl)
  · exact .ok Ty.sent_any
  · exact .error _

theorem ensures_finishType {alts : Draft (List RawAlt)} (h : Ensures alts fun rs => ∀ r ∈ rs, r.Sound S) :
    Ensures (finishType alts) (Ty.Sent S) :=
  ((h.mapError _).mapError _).bind fun _ hrs =>
    (Ensures.mapM fun r hr => (hrs r hr).toAlt).bind fun _ halts => .pure (Ty.sent_ofAlts halts)

/-- What is known of the members of a parameter that were read so far. -/
def RawParam.Sound (S : Text → Prop) (p : RawParam) : Prop := S p.name ∧ p.type.Sent S

/-- What is known of the members of a signature that were read so far. -/
structure RawSignature.Sound (S : Text → Prop) (r : RawSignature) : Prop where
  params : ∀ p ∈ r.params.all, p.Sound S
  result : r.result.Sent S

theorem RawSignature.sound_blank : RawSignature.Sound S {} where
  params _ h := absurd h List.not_mem_nil
  result := Ty.sent_never

theorem RawParam.Sound.toParam {r : RawParam} (h : r.Sound S) :
    Ensures r.toParam fun p => S p.name ∧ p.type.Sent S := by
  unfold RawParam.toParam
  split
  · exact .ok h
  · exact .error _

theorem ensures_finishSignature {sig : Draft RawSignature} (h : Ensures sig (RawSignature.Sound S)) :
    Ensures (finishSignature sig) (Signature.Sent S) :=
  ((h.mapError _).mapError _).bind fun _ hr =>
    (Ensures.mapM fun p hp => (hr.params p (List.mem_append_left _ hp)).toParam).bind fun _ hparams =>
      .pure ⟨hparams, hr.result⟩

/-! ### The readers -/

mutual

theorem ensures_readTy (hblank : S "") : ∀ j : Json, j.AllTexts S → Ensures (readTy j) (Ty.Sent S)
  | .arr items, h => by
      rw [readTy]
      exact ensures_finishType (ensures_readAlts hblank items h.items)
  | .null, _ => .ok Ty.sent_never
  | .bool _, _ | .num _, _ | .str _, _ | .obj _, _ => .error _

theorem ensures_readAlts (hblank : S "") : ∀ items : List Json, (∀ j ∈ items, j.AllTexts S) →
    Ensures (readAlts items) fun rs => ∀ r ∈ rs, r.Sound S
  | [], _ => .ok (List.forall_mem_nil _)
  | j :: rest, h => by
      obtain ⟨hj, hrest⟩ := List.forall_mem_cons.mp h
      rw [readAlts]
      exact (ensures_readAlt hblank j hj).bind fun r hr => (ensures_readAlts hblank rest hrest).bind fun rs hrs =>
        .pure (List.forall_mem_cons.mpr ⟨hr, hrs⟩)

theorem ensures_readAlt (hblank : S "") : ∀ j : Json, j.AllTexts S → Ensures (readAlt j) (RawAlt.Sound S)
  | .obj members, h => by
      rw [readAlt]
      exact ensures_readAltMembers hblank members {} (RawAlt.sound_blank hblank) h.members
  | .null, _ => .ok (RawAlt.sound_blank hblank)
  | .bool _, _ | .num _, _ | .str _, _ | .arr _, _ => .error _

theorem ensures_readAltMembers (hblank : S "") : ∀ (members : List (Text × Json)) (r : RawAlt), r.Sound S →
    (∀ m ∈ members, m.2.AllTexts S) → Ensures (readAltMembers r members) (RawAlt.Sound S)
  | [], _, hr, _ => .ok hr
  | (name, j) :: rest, r, hr, h => by
      obtain ⟨hj, hrest⟩ := List.forall_mem_cons.mp h
      have hmore : ∀ r : RawAlt, r.Sound S → Ensures (readAltMembers r rest) (RawAlt.Sound S) := fun r hr =>
        ensures_readAltMembers hblank rest r hr hrest
      have hkeep : ∀ {α : Type} (read : Draft α) (f : α → RawAlt), (∀ a, (f a).Sound S) →
          Ensures (read >>= fun a => readAltMembers (f a) rest) (RawAlt.Sound S) := fun _ _ hf =>
        Ensures.bind (P := fun _ => True) (fun _ _ => trivial) fun a _ => hmore _ (hf a)
      unfold readAltMembers
      split
      · exact hkeep _ _ fun _ => { hr with }
      · exact (Ensures.readText hr.name hj).bind fun _ ht => hmore _ { hr with name := ht }
      · exact (ensures_readOptional hblank j hj).bind fun _ ht => hmore _ { hr with elem := ht }
      · exact (ensures_readTyList hblank j hj).bind fun _ hts => hmore _ { hr with elems := hts }
      · exact hkeep _ _ fun _ => { hr with }
      · exact (ensures_readOptional hblank j hj).bind fun _ ht => hmore _ { hr with key := ht }
      · exact (ensures_readOptional hblank j hj).bind fun _ ht => hmore _ { hr with value := ht }
      · exact (ensures_readOptionalSignature hblank j hj).bind fun _ hsig => hmore _ { hr with sig := hsig }
      · exact (ensures_readFieldList hblank j _ hr.fields hj).bind fun _ hfs => hmore _ { hr with fields := hfs }
      · exact hkeep _ _ fun _ => { hr with }
      · exact hmore r hr

theorem ensures_readOptional (hblank : S "") : ∀ j : Json, j.AllTexts S →
    Ensures (readOptional j) fun o => ∀ t, o = some t → t.Sent S
  | .null, _ => .ok fun _ h => nomatch h
  | .arr items, h => by
      rw [readOptional]
      refine ((ensures_finishType (ensures_readAlts hblank items h.items)).mapError _).bind fun t ht => .pure ?_
      rintro _ ⟨⟩
      exact ht
  | .bool _, _ | .num _, _ | .str _, _ | .obj _, _ => .error _

theorem ensures_readOptionalSignature (hblank : S "") : ∀ j : Json, j.AllTexts S →
    Ensures (readOptionalSignature j) fun o => ∀ sig, o = some sig → sig.Sent S
  | .null, _ => .ok fun _ h => nomatch h
  | .obj members, h => by
      rw [readOptionalSignature]
      refine ((ensures_finishSignature (ensures_readSignatureMembers hblank members {} RawSignature.sound_blank
        h.members)).mapError _).bind fun sig hsig => .pure ?_
      rintro _ ⟨⟩
      exact hsig
  | .bool _, _ | .num _, _ | .str _, _ | .arr _, _ => .error _

theorem ensures_readTyList (hblank : S "") : ∀ j : Json, j.AllTexts S →
    Ensures (readTyList j) fun ts => ∀ t ∈ ts, t.Sent S
  | .arr items, h => by
      rw [readTyList]
      exact ensures_readTys hblank items h.items
  | .null, _ => .ok (List.forall_mem_nil _)
  | .bool _, _ | .num _, _ | .str _, _ | .obj _, _ => .error _

theorem ensures_readTys (hblank : S "") : ∀ items : List Json, (∀ j ∈ items, j.AllTexts S) →
    Ensures (readTys items) fun ts => ∀ t ∈ ts, t.Sent S
  | [], _ => .ok (List.forall_mem_nil _)
  | j :: rest, h => by
      obtain ⟨hj, hrest⟩ := List.forall_mem_cons.mp h
      rw [readTys]
      exact ((ensures_readTy hblank j hj).mapError _).bind fun t ht =>
        (ensures_readTys hblank rest hrest).bind fun ts hts => .pure (List.forall_mem_cons.mpr ⟨ht, hts⟩)

theorem ensures_readFieldList (hblank : S "") : ∀ (j : Json) (current : Json.Items (Text × Ty)),
    (∀ f ∈ current.all, S f.1 ∧ f.2.Sent S) → j.AllTexts S →
    Ensures (readFieldList current j) fun fs => ∀ f ∈ fs.all, S f.1 ∧ f.2.Sent S
  | .arr items, current, hcurrent, h => by
      rw [readFieldList]
      exact (ensures_readFields hblank items current.all hcurrent h.items).bind fun fs hfs =>
        .pure (Json.Items.all_shift hcurrent hfs)
  | .null, _, _, _ => .ok (List.forall_mem_nil _)
  | .bool _, _, _, _ | .num _, _, _, _ | .str _, _, _, _ | .obj _, _, _, _ => .error _

theorem ensures_readFields (hblank : S "") : ∀ (items : List Json) (old : List (Text × Ty)),
    (∀ f ∈ old, S f.1 ∧ f.2.Sent S) → (∀ j ∈ items, j.AllTexts S) →
    Ensures (readFields old items) fun fs => ∀ f ∈ fs, S f.1 ∧ f.2.Sent S
  | [], _, _, _ => .ok (List.forall_mem_nil _)
  | j :: rest, old, hold, h => by
      obtain ⟨hj, hrest⟩ := List.forall_mem_cons.mp h
      have hhead : S (old.headD ("", .never)).1 ∧ (old.headD ("", .never)).2.Sent S := by
        cases old with
        | nil => exact ⟨hblank, Ty.sent_never⟩
        | cons f old => exact hold f List.mem_cons_self
      have htail : ∀ f ∈ old.tail, S f.1 ∧ f.2.Sent S := fun f hf => hold f (List.mem_of_mem_tail hf)
      rw [readFields]
      exact (ensures_readField hblank j _ hhead hj).bind fun f hf =>
        (ensures_readFields hblank rest old.tail htail hrest).bind fun fs hfs =>
          .pure (List.forall_mem_cons.mpr ⟨hf, hfs⟩)

theorem ensures_readField (hblank : S "") : ∀ (j : Json) (current : Text × Ty), S current.1 ∧ current.2.Sent S →
    j.AllTexts S → Ensures (readField current j) fun f => S f.1 ∧ f.2.Sent S
  | .obj members, current, hcurrent, h => by
      rw [readField]
      exact ensures_readFieldMembers hblank members current hcurrent h.members
  | .null, _, hcurrent, _ => .ok hcurrent
  | .bool _, _, _, _ | .num _, _, _, _ | .str _, _, _, _ | .arr _, _, _, _ => .error _

theorem ensures_readFieldMembers (hblank : S "") : ∀ (members : List (Text × Json)) (field : Text × Ty),
    S field.1 ∧ field.2.Sent S → (∀ m ∈ members, m.2.AllTexts S) →
    Ensures (readFieldMembers field members) fun f => S f.1 ∧ f.2.Sent S
  | [], _, hfield, _ => .ok hfield
  | (name, j) :: rest, field, hfield, h => by
      obtain ⟨hj, hrest⟩ := List.forall_mem_cons.mp h
      unfold readFieldMembers
      split
      · exact (Ensures.readText hfield.1 hj).bind fun _ ht =>
          ensures_readFieldMembers hblank rest _ ⟨ht, hfield.2⟩ hrest
      · exact ((ensures_readTy hblank j hj).mapError _).bind fun _ ht =>
          ensures_readFieldMembers hblank rest _ ⟨hfield.1, ht⟩ hrest
      · exact ensures_readFieldMembers hblank rest field hfield hrest

theorem ensures_readSignatureMembers (hblank : S "") : ∀ (members : List (Text × Json)) (r : RawSignature),
    r.Sound S → (∀ m ∈ members, m.2.AllTexts S) → Ensures (readSignatureMembers r members) (RawSignature.Sound S)
  | [], _, hr, _ => .ok hr
  | (name, j) :: rest, r, hr, h => by
      obtain ⟨hj, hrest⟩ := List.forall_mem_cons.mp h
      unfold readSignatureMembers
      split
      · exact (ensures_readParamList hblank j _ hr.params hj).bind fun _ hps =>
          ensures_readSignatureMembers hblank rest _ { hr with params := hps } hrest
      · exact ((ensures_readTy hblank j hj).mapError _).bind fun _ ht =>
          ensures_readSignatureMembers hblank rest _ { hr with result := ht } hrest
      · exact ensures_readSignatureMembers hblank rest r hr hrest

theorem ensures_readParamList (hblank : S "") : ∀ (j : Json) (current : Json.Items RawParam),
    (∀ p ∈ current.all, p.Sound S) → j.AllTexts S → Ensures (readParamList current j) fun ps => ∀ p ∈ ps.all, p.Sound S
  | .arr items, current, hcurrent, h => by
      rw [readParamList]
      exact (ensures_readParams hblank items current.all hcurrent h.items).bind fun ps hps =>
        .pure (Json.Items.all_shift hcurrent hps)
  | .null, _, _, _ => .ok (List.forall_mem_nil _)
  | .bool _, _, _, _ | .num _, _, _, _ | .str _, _, _, _ | .obj _, _, _, _ => .error _

theorem ensures_readParams (hblank : S "") : ∀ (items : List Json) (old : List RawParam), (∀ p ∈ old, p.Sound S) →
    (∀ j ∈ items, j.AllTexts S) → Ensures (readParams old items) fun ps => ∀ p ∈ ps, p.Sound S
  | [], _, _, _ => .ok (List.forall_mem_nil _)
  | j :: rest, old, hold, h => by
      obtain ⟨hj, hrest⟩ := List.forall_mem_cons.mp h
      have hhead : (old.headD {}).Sound S := by
        cases old with
        | nil => exact ⟨hblank, Ty.sent_never⟩
        | cons p old => exact hold p List.mem_cons_self
      have htail : ∀ p ∈ old.tail, p.Sound S := fun p hp => hold p (List.mem_of_mem_tail hp)
      rw [readParams]
      exact (ensures_readParam hblank j _ hhead hj).bind fun p hp =>
        (ensures_readParams hblank rest old.tail htail hrest).bind fun ps hps =>
          .pure (List.forall_mem_cons.mpr ⟨hp, hps⟩)

theorem ensures_readParam (hblank : S "") : ∀ (j : Json) (current : RawParam), current.Sound S → j.AllTexts S →
    Ensures (readParam current j) (RawParam.Sound S)
  | .obj members, current, hcurrent, h => by
      rw [readParam]
      exact ensures_readParamMembers hblank members current hcurrent h.members
  | .null, _, hcurrent, _ => .ok hcurrent
  | .bool _, _, _, _ | .num _, _, _, _ | .str _, _, _, _ | .arr _, _, _, _ => .error _

theorem ensures_readParamMembers (hblank : S "") : ∀ (members : List (Text × Json)) (p : RawParam), p.Sound S →
    (∀ m ∈ members, m.2.AllTexts S) → Ensures (readParamMembers p members) (RawParam.Sound S)
  | [], _, hp, _ => .ok hp
  | (name, j) :: rest, p, hp, h => by
      obtain ⟨hj, hrest⟩ := List.forall_mem_cons.mp h
      have hmore : ∀ p : RawParam, p.Sound S → Ensures (readParamMembers p rest) (RawParam.Sound S) := fun p hp =>
        ensures_readParamMembers hblank rest p hp hrest
      unfold readParamMembers
      split
      · exact Ensures.bind (P := fun _ => True) (fun _ _ => trivial) fun _ _ => hmore _ hp
      · exact (Ensures.readText hp.1 hj).bind fun _ ht => hmore _ ⟨ht, hp.2⟩
      · exact ((ensures_readTy hblank j hj).mapError _).bind fun _ ht => hmore _ ⟨hp.1, ht⟩
      · exact Ensures.bind (P := fun _ => True) (fun _ _ => trivial) fun _ _ => hmore _ hp
      · exact hmore p hp

end

end Wire

section

variable {S : Text → Prop} (hblank : S "") {j : Json}

include hblank

theorem Ty.sent_ofJson {t : Ty} (hj : j.AllTexts S) (h : Ty.ofJson j = .ok t) : t.Sent S :=
  Wire.ensures_readTy hblank j hj t h

theorem Signature.sent_ofJson {sig : Signature} (hj : j.AllTexts S) (h : Signature.ofJson j = .ok sig) :
    sig.Sent S := by
  cases j with
  | obj members =>
      exact Wire.ensures_finishSignature
        (Wire.ensures_readSignatureMembers hblank members {} Wire.RawSignature.sound_blank hj.members) sig h
  | null =>
      cases h
      exact ⟨List.forall_mem_nil _, Ty.sent_never⟩
  | _ => cases h

end

end Gradual
