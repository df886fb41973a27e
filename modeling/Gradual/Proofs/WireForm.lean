import Gradual.Proofs.JsonLayouts
import Gradual.Proofs.NameMaps
import Gradual.Proofs.TypeInvariant
import Gradual.Ty.Wire

/-! Types travel as JSON. A portable type is normal, carries no host, and its names are UTF-8; it is read
back from its JSON form. -/

namespace Gradual

/-- An alternative without a host, whose own names are UTF-8. -/
def Alt.IsPortable : Alt → Prop
  | .custom name host => host.isNone = true ∧ name ≠ "" ∧ name.isUtf8 = true
  | .struct fields _ => ∀ f ∈ fields, f.1.isUtf8 = true
  | .function (some sig) => ∀ p ∈ sig.params, p.name.isUtf8 = true
  | _ => True

/-- A type that is normal and carries no host, and whose names are UTF-8, with every type inside it. -/
def Ty.Portable : Ty → Prop := Ty.Everywhere fun t => t.IsNormalUnion ∧ ∀ a ∈ t.alts, a.IsPortable

/-- An alternative without a host, whose own names satisfy `S`. -/
def Alt.IsSent (S : Text → Prop) : Alt → Prop
  | .custom name host => host.isNone = true ∧ name ≠ "" ∧ S name
  | .struct fields _ => ∀ f ∈ fields, S f.1
  | .function (some sig) => ∀ p ∈ sig.params, S p.name
  | _ => True

/-- A type that is normal and carries no host, and whose names satisfy `S`, with every type inside it. -/
def Ty.Sent (S : Text → Prop) : Ty → Prop :=
  Ty.Everywhere fun t => t.IsNormalUnion ∧ ∀ a ∈ t.alts, a.IsSent S

theorem Ty.portable_eq_sent : Ty.Portable = Ty.Sent fun name => name.isUtf8 = true := by
  have halt : ∀ a : Alt, a.IsPortable = a.IsSent fun name => name.isUtf8 = true := by
    intro a
    cases a with
    | function sig => cases sig <;> rfl
    | _ => rfl
  unfold Portable Sent
  simp only [halt]

namespace Wire

/-! ### Members of an object

The readers of members are opened by computation: a member's name is known wherever it is written. -/

section Members

variable (r : RawAlt) {j : Json} (rest : List (Text × Json))

theorem readAltMembers_elem {t : Option Ty} (h : readOptional j = .ok t) :
    readAltMembers r (("elem", j) :: rest) = readAltMembers { r with elem := t } rest := by
  show (readOptional j >>= fun t => readAltMembers { r with elem := t } rest) = _
  rw [h]
  rfl

theorem readAltMembers_elems {ts : List Ty} (h : readTyList j = .ok ts) :
    readAltMembers r (("elems", j) :: rest) = readAltMembers { r with elems := ts } rest := by
  show (readTyList j >>= fun ts => readAltMembers { r with elems := ts } rest) = _
  rw [h]
  rfl

theorem readAltMembers_key {t : Option Ty} (h : readOptional j = .ok t) :
    readAltMembers r (("key", j) :: rest) = readAltMembers { r with key := t } rest := by
  show (readOptional j >>= fun t => readAltMembers { r with key := t } rest) = _
  rw [h]
  rfl

theorem readAltMembers_value {t : Option Ty} (h : readOptional j = .ok t) :
    readAltMembers r (("value", j) :: rest) = readAltMembers { r with value := t } rest := by
  show (readOptional j >>= fun t => readAltMembers { r with value := t } rest) = _
  rw [h]
  rfl

theorem readAltMembers_sig {sig : Option Signature} (h : readOptionalSignature j = .ok sig) :
    readAltMembers r (("sig", j) :: rest) = readAltMembers { r with sig := sig } rest := by
  show (readOptionalSignature j >>= fun sig => readAltMembers { r with sig := sig } rest) = _
  rw [h]
  rfl

theorem readAltMembers_fields {fields : Json.Items (Text × Ty)} (h : readFieldList r.fields j = .ok fields) :
    readAltMembers r (("fields", j) :: rest) = readAltMembers { r with fields := fields } rest := by
  show (readFieldList r.fields j >>= fun fields => readAltMembers { r with fields := fields } rest) = _
  rw [h]
  rfl

end Members

/-! ### Types inside -/

/-- A type is read back from its JSON form. -/
def ReadsBack (t : Ty) : Prop := readTy t.toJson = .ok t

theorem readOptional_arr {items : List Json} {t : Ty} (h : readTy (.arr items) = .ok t) :
    readOptional (.arr items) = .ok (some t) := by
  have h : finishType (readAlts items) = .ok t := h
  show (Json.Draft.take (finishType (readAlts items)) >>= fun t => pure (some t)) = _
  rw [h]
  rfl

theorem readOptional_toJson {t : Ty} (h : ReadsBack t) : readOptional t.toJson = .ok (some t) := by
  obtain ⟨alts⟩ := t
  exact readOptional_arr h

theorem readTys_toJsons {ts : List Ty} (h : ∀ t ∈ ts, ReadsBack t) : readTys (Ty.toJsons ts) = .ok ts := by
  induction ts with
  | nil => rfl
  | cons t ts ih =>
      have ht : readTy t.toJson = .ok t := h t List.mem_cons_self
      show (Json.Draft.take (readTy t.toJson) >>= fun t =>
        readTys (Ty.toJsons ts) >>= fun ts => pure (t :: ts)) = _
      rw [ht, ih fun u hu => h u (List.mem_cons_of_mem t hu)]
      rfl

theorem readFields_toJson {fields : List (Text × Ty)} (h : ∀ f ∈ fields, ReadsBack f.2) :
    readFields [] (Ty.fieldsToJson fields) = .ok fields := by
  induction fields with
  | nil => rfl
  | cons f fields ih =>
      obtain ⟨name, t⟩ := f
      have ht : readTy t.toJson = .ok t := h (name, t) List.mem_cons_self
      have hfield : readField ("", .never) (.obj [("name", .str name), ("type", t.toJson)]) = .ok (name, t) := by
        show (Json.Draft.take (readTy t.toJson) >>= fun t => pure (name, t)) = _
        rw [ht]
        rfl
      show (readField ("", .never) (.obj [("name", .str name), ("type", t.toJson)]) >>= fun f =>
        readFields [] (Ty.fieldsToJson fields) >>= fun fields => pure (f :: fields)) = _
      rw [hfield, ih fun g hg => h g (List.mem_cons_of_mem _ hg)]
      rfl

theorem shift_nil {α : Type} (as : List α) : ({} : Json.Items α).shift as = ⟨as, []⟩ := by
  cases as with
  | nil => rfl
  | cons a as => rfl

theorem readFieldList_toJson {fields : List (Text × Ty)} (h : ∀ f ∈ fields, ReadsBack f.2) :
    readFieldList {} (.arr (Ty.fieldsToJson fields)) = .ok ⟨fields, []⟩ := by
  show (readFields [] (Ty.fieldsToJson fields) >>= fun fields =>
    pure (({} : Json.Items (Text × Ty)).shift fields)) = _
  rw [readFields_toJson h, ← shift_nil fields]
  rfl

/-! ### Signatures -/

/-- What the members of a parameter's object are read into. -/
def rawParam (p : Param) : RawParam := ⟨p.mode.name, p.name, p.type, p.optional⟩

theorem toParam_rawParam (p : Param) : (rawParam p).toParam = .ok p := by
  obtain ⟨mode, name, type, optional⟩ := p
  cases mode <;> rfl

theorem readParam_toJson {p : Param} (h : ReadsBack p.type) : readParam {} p.toJson = .ok (rawParam p) := by
  obtain ⟨mode, name, type, optional⟩ := p
  have h : readTy type.toJson = .ok type := h
  cases optional with
  | false =>
      show (Json.Draft.take (readTy type.toJson) >>= fun t => pure (⟨mode.name, name, t, false⟩ : RawParam)) = _
      rw [h]
      rfl
  | true =>
      show (Json.Draft.take (readTy type.toJson) >>= fun t => pure (⟨mode.name, name, t, true⟩ : RawParam)) = _
      rw [h]
      rfl

theorem readParams_toJsons {params : List Param} (h : ∀ p ∈ params, ReadsBack p.type) :
    readParams [] (Param.toJsons params) = .ok (params.map rawParam) := by
  induction params with
  | nil => rfl
  | cons p params ih =>
      show (readParam {} p.toJson >>= fun p =>
        readParams [] (Param.toJsons params) >>= fun ps => pure (p :: ps)) = _
      rw [readParam_toJson (h p List.mem_cons_self), ih fun q hq => h q (List.mem_cons_of_mem p hq)]
      rfl

theorem mapM_toParam (params : List Param) : (params.map rawParam).mapM RawParam.toParam = .ok params := by
  induction params with
  | nil => rfl
  | cons p params ih =>
      rw [List.map_cons, List.mapM_cons, toParam_rawParam, ih]
      rfl

theorem readOptionalSignature_toJson {sig : Signature} (hparams : ∀ p ∈ sig.params, ReadsBack p.type)
    (hresult : ReadsBack sig.result) : readOptionalSignature sig.toJson = .ok (some sig) := by
  obtain ⟨params, result⟩ := sig
  have hresult : readTy result.toJson = .ok result := hresult
  have hlist : readParamList {} (.arr (Param.toJsons params)) = .ok ⟨params.map rawParam, []⟩ := by
    show (readParams [] (Param.toJsons params) >>= fun ps => pure (({} : Json.Items RawParam).shift ps)) = _
    rw [readParams_toJsons hparams, ← shift_nil (params.map rawParam)]
    rfl
  have hmembers : readSignatureMembers {} [("params", .arr (Param.toJsons params)), ("result", result.toJson)] =
      .ok ⟨⟨params.map rawParam, []⟩, result⟩ := by
    show (readParamList {} (.arr (Param.toJsons params)) >>= fun ps =>
      Json.Draft.take (readTy result.toJson) >>= fun t => pure (⟨ps, t⟩ : RawSignature)) = _
    rw [hlist, hresult]
    rfl
  show (Json.Draft.take (finishSignature (readSignatureMembers {}
    [("params", .arr (Param.toJsons params)), ("result", result.toJson)])) >>= fun sig => pure (some sig)) = _
  rw [hmembers]
  show (Json.Draft.take ((params.map rawParam).mapM RawParam.toParam >>= fun ps =>
    pure (⟨ps, result⟩ : Signature)) >>= fun sig => pure (some sig)) = _
  rw [mapM_toParam]
  rfl

/-! ### Alternatives -/

/-- What the members of an alternative's object are read into. -/
def rawOf : Alt → RawAlt
  | .any => { kind := "any" }
  | .prim p => { kind := p.text }
  | .list elem => { kind := "list", elem := some elem }
  | .tuple elems => { kind := "tuple", elems := elems }
  | .tupleOf elem => { kind := "tuple", elem := some elem, variadic := true }
  | .dict key value => { kind := "dict", key := some key, value := some value }
  | .iterable elem => { kind := "iterable", elem := some elem }
  | .function sig => { kind := "function", sig := sig }
  | .struct fields isOpen => { kind := "struct", fields := ⟨fields, []⟩, extra := isOpen }
  | .custom name _ => { kind := "custom", name := name }

theorem readAlt_toJson {a : Alt} (h : ∀ t ∈ a.parts, ReadsBack t) : readAlt a.toJson = .ok (rawOf a) := by
  cases a with
  | any => rfl
  | prim p => rfl
  | list elem =>
      exact readAltMembers_elem { kind := "list" } [] (readOptional_toJson (h elem List.mem_cons_self))
  | iterable elem =>
      exact readAltMembers_elem { kind := "iterable" } [] (readOptional_toJson (h elem List.mem_cons_self))
  | tupleOf elem =>
      exact readAltMembers_elem { kind := "tuple" } _ (readOptional_toJson (h elem List.mem_cons_self))
  | tuple elems =>
      cases elems with
      | nil => rfl
      | cons t ts =>
          have hread : readTyList (.arr (Ty.toJsons (t :: ts))) = .ok (t :: ts) := readTys_toJsons h
          exact readAltMembers_elems { kind := "tuple" } [] hread
  | dict key value =>
      have hkey := readOptional_toJson (h key List.mem_cons_self)
      have hvalue := readOptional_toJson (h value mem_second)
      exact (readAltMembers_key { kind := "dict" } _ hkey).trans (readAltMembers_value _ [] hvalue)
  | function sig =>
      cases sig with
      | none => rfl
      | some sig =>
          have hparams : ∀ p ∈ sig.params, ReadsBack p.type := fun p hp =>
            h p.type (List.mem_cons_of_mem _ (List.mem_map_of_mem hp))
          exact readAltMembers_sig { kind := "function" } []
            (readOptionalSignature_toJson hparams (h sig.result List.mem_cons_self))
  | struct fields isOpen =>
      have hfields : ∀ f ∈ fields, ReadsBack f.2 := fun f hf => h f.2 (List.mem_map_of_mem hf)
      cases fields with
      | nil => cases isOpen <;> rfl
      | cons f fields =>
          cases isOpen with
          | false => exact readAltMembers_fields { kind := "struct" } _ (readFieldList_toJson hfields)
          | true => exact readAltMembers_fields { kind := "struct" } _ (readFieldList_toJson hfields)
  | custom name host =>
      rw [Alt.toJson]
      split
      · next hname =>
        subst hname
        rfl
      · rfl

theorem toAlt_rawOf {S : Text → Prop} {a : Alt} (h : a.IsSent S) (hfields : a.hasSortedFields = true) :
    (rawOf a).toAlt = .ok a := by
  cases a with
  | any => rfl
  | prim p => cases p <;> rfl
  | list elem => rfl
  | tuple elems => rfl
  | tupleOf elem => rfl
  | dict key value => rfl
  | iterable elem => rfl
  | function sig => rfl
  | struct fields isOpen =>
      have hsorted : fields.Pairwise fun f g => f.1 < g.1 := of_decide_eq_true hfields
      show Except.ok (Alt.struct (NameMap.ofList fields).entries isOpen) = _
      rw [NameMap.ofList_of_sorted hsorted]
  | custom name host =>
      obtain ⟨hhost, hname, -⟩ := h
      rw [Option.isNone_iff_eq_none.mp hhost]
      exact if_neg hname

theorem readAlts_toJsons {alts : List Alt} (h : ∀ a ∈ alts, ∀ t ∈ a.parts, ReadsBack t) :
    readAlts (Alt.toJsons alts) = .ok (alts.map rawOf) := by
  induction alts with
  | nil => rfl
  | cons a alts ih =>
      show (readAlt a.toJson >>= fun a => readAlts (Alt.toJsons alts) >>= fun alts => pure (a :: alts)) = _
      rw [readAlt_toJson (h a List.mem_cons_self), ih fun b hb => h b (List.mem_cons_of_mem a hb)]
      rfl

theorem mapM_toAlt {S : Text → Prop} {alts : List Alt} (h : ∀ a ∈ alts, a.IsSent S)
    (hfields : ∀ a ∈ alts, a.hasSortedFields = true) : (alts.map rawOf).mapM RawAlt.toAlt = .ok alts := by
  induction alts with
  | nil => rfl
  | cons a alts ih =>
      rw [List.map_cons, List.mapM_cons, toAlt_rawOf (h a List.mem_cons_self) (hfields a List.mem_cons_self),
        ih (fun b hb => h b (List.mem_cons_of_mem a hb)) fun b hb => hfields b (List.mem_cons_of_mem a hb)]
      rfl

end Wire

theorem Ty.Sent.ofJson_toJson {S : Text → Prop} {t : Ty} (h : t.Sent S) : Ty.ofJson t.toJson = .ok t := by
  induction h with
  | @intro t here _ ih =>
      obtain ⟨alts⟩ := t
      have hfields := (Ty.isNormalUnion_iff.mp here.1).2.2
      have hread : Wire.readAlts (Alt.toJsons alts) = .ok (alts.map Wire.rawOf) := Wire.readAlts_toJsons ih
      show Wire.finishType (Wire.readAlts (Alt.toJsons alts)) = _
      rw [hread]
      show ((alts.map Wire.rawOf).mapM Wire.RawAlt.toAlt >>= fun alts => pure (Ty.ofAlts alts)) = _
      rw [Wire.mapM_toAlt here.2 (List.all_eq_true.mp hfields)]
      show Except.ok (Ty.ofAlts (Ty.mk alts).alts) = _
      rw [Ty.ofAlts_alts here.1]

theorem Ty.Portable.ofJson_toJson {t : Ty} (h : t.Portable) : Ty.ofJson t.toJson = .ok t :=
  (Ty.portable_eq_sent ▸ h : t.Sent _).ofJson_toJson

/-! ### The texts inside -/

namespace Json

theorem writable_obj_nil : Writable (.obj []) :=
  .obj (List.forall_mem_nil _) (List.forall_mem_nil _)

theorem writable_obj_cons {name : Text} {j : Json} {ms : List (Text × Json)} (hname : name.isUtf8 = true)
    (hj : Writable j) (h : Writable (.obj ms)) : Writable (.obj ((name, j) :: ms)) := by
  cases h with
  | obj hnames hms =>
      exact .obj (List.forall_mem_cons.mpr ⟨hname, hnames⟩) (List.forall_mem_cons.mpr ⟨hj, hms⟩)

theorem writable_arr_nil : Writable (.arr []) := .arr (List.forall_mem_nil _)

theorem writable_arr_cons {j : Json} {js : List Json} (hj : Writable j) (h : Writable (.arr js)) :
    Writable (.arr (j :: js)) := by
  cases h with
  | arr hjs => exact .arr (List.forall_mem_cons.mpr ⟨hj, hjs⟩)

end Json

open Json in
theorem Ty.writable_toJsons {ts : List Ty} (h : ∀ t ∈ ts, t.toJson.Writable) :
    (Json.arr (toJsons ts)).Writable := by
  induction ts with
  | nil => exact writable_arr_nil
  | cons t ts ih =>
      exact writable_arr_cons (h t List.mem_cons_self) (ih fun u hu => h u (List.mem_cons_of_mem t hu))

open Json in
theorem Ty.writable_fieldsToJson {fields : List (Text × Ty)} (hnames : ∀ f ∈ fields, f.1.isUtf8 = true)
    (h : ∀ f ∈ fields, f.2.toJson.Writable) : (Json.arr (fieldsToJson fields)).Writable := by
  induction fields with
  | nil => exact writable_arr_nil
  | cons f fields ih =>
      refine writable_arr_cons ?_
        (ih (fun g hg => hnames g (List.mem_cons_of_mem f hg)) fun g hg => h g (List.mem_cons_of_mem f hg))
      exact writable_obj_cons rfl (.str (hnames f List.mem_cons_self))
        (writable_obj_cons rfl (h f List.mem_cons_self) writable_obj_nil)

open Json in
theorem Param.writable_toJsons {params : List Param} (hnames : ∀ p ∈ params, p.name.isUtf8 = true)
    (h : ∀ p ∈ params, p.type.toJson.Writable) : (Json.arr (toJsons params)).Writable := by
  induction params with
  | nil => exact writable_arr_nil
  | cons p params ih =>
      refine writable_arr_cons ?_
        (ih (fun q hq => hnames q (List.mem_cons_of_mem p hq)) fun q hq => h q (List.mem_cons_of_mem p hq))
      have hname := hnames p List.mem_cons_self
      have htype := h p List.mem_cons_self
      obtain ⟨mode, name, type, optional⟩ := p
      have hmode : mode.name.isUtf8 = true := by cases mode <;> rfl
      refine writable_obj_cons rfl (.str hmode)
        (writable_obj_cons rfl (.str hname) (writable_obj_cons rfl htype ?_))
      cases optional with
      | false => exact writable_obj_nil
      | true => exact writable_obj_cons rfl (.bool true) writable_obj_nil

open Json in
theorem Alt.writable_toJson {a : Alt} (h : a.IsPortable) (hparts : ∀ t ∈ a.parts, t.toJson.Writable) :
    a.toJson.Writable := by
  have hkind : ∀ {kind : Text} {ms : List (Text × Json)}, kind.isUtf8 = true → (Json.obj ms).Writable →
      (Json.obj (("kind", .str kind) :: ms)).Writable := fun hkind hms => writable_obj_cons rfl (.str hkind) hms
  cases a with
  | any => exact hkind rfl writable_obj_nil
  | prim p => exact hkind (by cases p <;> rfl) writable_obj_nil
  | list elem => exact hkind rfl (writable_obj_cons rfl (hparts elem List.mem_cons_self) writable_obj_nil)
  | iterable elem => exact hkind rfl (writable_obj_cons rfl (hparts elem List.mem_cons_self) writable_obj_nil)
  | tupleOf elem =>
      exact hkind rfl (writable_obj_cons rfl (hparts elem List.mem_cons_self)
        (writable_obj_cons rfl (.bool true) writable_obj_nil))
  | tuple elems =>
      refine hkind rfl ?_
      split
      · exact writable_obj_nil
      · exact writable_obj_cons rfl (Ty.writable_toJsons hparts) writable_obj_nil
  | dict key value =>
      exact hkind rfl (writable_obj_cons rfl (hparts key List.mem_cons_self)
        (writable_obj_cons rfl (hparts value mem_second) writable_obj_nil))
  | function sig =>
      cases sig with
      | none => exact hkind rfl writable_obj_nil
      | some sig =>
          have htypes : ∀ p ∈ sig.params, p.type.toJson.Writable := fun p hp =>
            hparts p.type (List.mem_cons_of_mem _ (List.mem_map_of_mem hp))
          have hresult := hparts sig.result List.mem_cons_self
          obtain ⟨params, result⟩ := sig
          refine hkind rfl (writable_obj_cons rfl ?_ writable_obj_nil)
          exact writable_obj_cons rfl (Param.writable_toJsons h htypes)
            (writable_obj_cons rfl hresult writable_obj_nil)
  | struct fields isOpen =>
      have hfields : ∀ f ∈ fields, f.2.toJson.Writable := fun f hf => hparts f.2 (List.mem_map_of_mem hf)
      have hopen : (Json.obj (if isOpen then [("extra", .bool true)] else [])).Writable := by
        cases isOpen with
        | false => exact writable_obj_nil
        | true => exact writable_obj_cons rfl (.bool true) writable_obj_nil
      refine hkind rfl ?_
      split
      · exact hopen
      · have hname : Text.isUtf8 "fields" = true := rfl
        exact writable_obj_cons hname (Ty.writable_fieldsToJson h hfields) hopen
  | custom name host =>
      refine hkind rfl ?_
      split
      · exact writable_obj_nil
      · exact writable_obj_cons rfl (.str h.2.2) writable_obj_nil

theorem Ty.Portable.writable {t : Ty} (h : t.Portable) : t.toJson.Writable := by
  induction h with
  | @intro t here _ ih =>
      obtain ⟨alts⟩ := t
      have hall : ∀ as : List Alt, (∀ a ∈ as, a ∈ alts) → (Json.arr (Alt.toJsons as)).Writable := by
        intro as has
        induction as with
        | nil => exact Json.writable_arr_nil
        | cons a as ihas =>
            have ha := has a List.mem_cons_self
            exact Json.writable_arr_cons (Alt.writable_toJson (here.2 a ha) (ih a ha))
              (ihas fun b hb => has b (List.mem_cons_of_mem a hb))
      exact hall alts fun _ ha => ha

end Gradual
