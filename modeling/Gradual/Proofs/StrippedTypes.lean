import Gradual.Proofs.NormalForm
import Gradual.Ty.Wire

/-! Types without their hosts. Neither the text of a type nor its JSON form tells hosts, so that a type in normal form
keeps its order when it loses them. -/

namespace Gradual

mutual

/-- The type by names only, without its hosts; those inside signatures stay unless `deep` is set. -/
def Ty.strip (deep : Bool) : Ty → Ty
  | ⟨alts⟩ => ⟨Alt.stripEach deep alts⟩

def Alt.stripEach (deep : Bool) : List Alt → List Alt
  | [] => []
  | a :: rest => a.strip deep :: Alt.stripEach deep rest

def Alt.strip (deep : Bool) : Alt → Alt
  | .list elem => .list (elem.strip deep)
  | .tuple elems => .tuple (Ty.stripEach deep elems)
  | .tupleOf elem => .tupleOf (elem.strip deep)
  | .dict key value => .dict (key.strip deep) (value.strip deep)
  | .iterable elem => .iterable (elem.strip deep)
  | .struct fields isOpen => .struct (Ty.stripFields deep fields) isOpen
  | .custom name _ => .custom name none
  | .function (some sig) => .function (some (bif deep then sig.strip deep else sig))
  | .function none => .function none
  | .any => .any
  | .prim p => .prim p

def Ty.stripEach (deep : Bool) : List Ty → List Ty
  | [] => []
  | t :: rest => t.strip deep :: Ty.stripEach deep rest

def Ty.stripFields (deep : Bool) : List (Text × Ty) → List (Text × Ty)
  | [] => []
  | (name, t) :: rest => (name, t.strip deep) :: Ty.stripFields deep rest

def Signature.strip (deep : Bool) : Signature → Signature
  | ⟨params, result⟩ => ⟨Param.stripEach deep params, result.strip deep⟩

def Param.stripEach (deep : Bool) : List Param → List Param
  | [] => []
  | p :: rest => p.strip deep :: Param.stripEach deep rest

def Param.strip (deep : Bool) : Param → Param
  | ⟨mode, name, type, optional⟩ => ⟨mode, name, type.strip deep, optional⟩

end

/-- The type without the hosts outside signatures. -/
abbrev Ty.bare : Ty → Ty := Ty.strip false

abbrev Alt.bare : Alt → Alt := Alt.strip false

/-- The type without any host. -/
abbrev Ty.plain : Ty → Ty := Ty.strip true

abbrev Alt.plain : Alt → Alt := Alt.strip true

variable (deep : Bool)

theorem Alt.stripEach_eq_map (alts : List Alt) : Alt.stripEach deep alts = alts.map (Alt.strip deep) := by
  induction alts with
  | nil => rfl
  | cons a rest ih => rw [Alt.stripEach, ih, List.map_cons]

theorem Ty.stripEach_eq_map (ts : List Ty) : Ty.stripEach deep ts = ts.map (Ty.strip deep) := by
  induction ts with
  | nil => rfl
  | cons t rest ih => rw [Ty.stripEach, ih, List.map_cons]

theorem Ty.stripFields_eq_map (fields : List (Text × Ty)) :
    Ty.stripFields deep fields = fields.map fun f => (f.1, f.2.strip deep) := by
  induction fields with
  | nil => rfl
  | cons f rest ih => rw [Ty.stripFields, ih, List.map_cons]

theorem Param.stripEach_eq_map (params : List Param) : Param.stripEach deep params = params.map (Param.strip deep) := by
  induction params with
  | nil => rfl
  | cons p rest ih => rw [Param.stripEach, ih, List.map_cons]

theorem Ty.alts_strip (t : Ty) : (t.strip deep).alts = t.alts.map (Alt.strip deep) := by
  obtain ⟨alts⟩ := t
  rw [Ty.strip, Alt.stripEach_eq_map]

/-! ### What does not tell hosts -/

mutual

theorem Ty.text_strip : (t : Ty) → (t.strip deep).text = t.text
  | ⟨alts⟩ => by
      have hempty : (Alt.stripEach deep alts).isEmpty = alts.isEmpty := by cases alts <;> rfl
      rw [Ty.strip, Ty.text, Ty.text, Alt.texts_stripEach alts, hempty]

theorem Alt.texts_stripEach : (alts : List Alt) → Alt.texts (Alt.stripEach deep alts) = Alt.texts alts
  | [] => rfl
  | a :: rest => by rw [Alt.stripEach, Alt.texts, Alt.texts, Alt.text_strip a, Alt.texts_stripEach rest]

theorem Alt.text_strip : (a : Alt) → (a.strip deep).text = a.text
  | .any | .prim _ | .custom _ _ | .function none => by simp only [Alt.strip, Alt.text]
  | .list elem | .tupleOf elem | .iterable elem => by simp only [Alt.strip, Alt.text, Ty.text_strip elem]
  | .dict key value => by simp only [Alt.strip, Alt.text, Ty.text_strip key, Ty.text_strip value]
  | .tuple elems => by
      have hempty : (Ty.stripEach deep elems).isEmpty = elems.isEmpty := by cases elems <;> rfl
      simp only [Alt.strip, Alt.text, Ty.texts_stripEach elems, hempty]
  | .struct fields isOpen => by simp only [Alt.strip, Alt.text, Ty.fieldTexts_stripFields fields]
  | .function (some sig) => by
      have hsig := Signature.text_strip sig
      cases deep with
      | false => rfl
      | true => simp only [Alt.strip, Alt.text, cond_true, hsig]

theorem Ty.texts_stripEach : (ts : List Ty) → Ty.texts (Ty.stripEach deep ts) = Ty.texts ts
  | [] => rfl
  | t :: rest => by rw [Ty.stripEach, Ty.texts, Ty.texts, Ty.text_strip t, Ty.texts_stripEach rest]

theorem Ty.fieldTexts_stripFields : (fields : List (Text × Ty)) →
    Ty.fieldTexts (Ty.stripFields deep fields) = Ty.fieldTexts fields
  | [] => rfl
  | (name, t) :: rest => by
      rw [Ty.stripFields, Ty.fieldTexts, Ty.fieldTexts, Ty.text_strip t, Ty.fieldTexts_stripFields rest]

theorem Signature.text_strip : (sig : Signature) → (sig.strip deep).text = sig.text
  | ⟨params, result⟩ => by
      simp only [Signature.strip, Signature.text, Param.parts_stripEach params, Ty.text_strip result]

theorem Param.parts_stripEach : (params : List Param) → ∀ afterPosOnly starred,
    Param.parts afterPosOnly starred (Param.stripEach deep params) = Param.parts afterPosOnly starred params
  | [], _, _ => rfl
  | ⟨mode, name, type, optional⟩ :: rest, _, _ => by
      simp only [Param.stripEach, Param.strip, Param.parts, Param.text, Ty.text_strip type, Param.parts_stripEach rest]

end

mutual

theorem Ty.toJson_strip : (t : Ty) → (t.strip deep).toJson = t.toJson
  | ⟨alts⟩ => by rw [Ty.strip, Ty.toJson, Ty.toJson, Alt.toJsons_stripEach alts]

theorem Alt.toJsons_stripEach : (alts : List Alt) → Alt.toJsons (Alt.stripEach deep alts) = Alt.toJsons alts
  | [] => rfl
  | a :: rest => by rw [Alt.stripEach, Alt.toJsons, Alt.toJsons, Alt.toJson_strip a, Alt.toJsons_stripEach rest]

theorem Alt.toJson_strip : (a : Alt) → (a.strip deep).toJson = a.toJson
  | .any | .prim _ | .custom _ _ | .function none => by simp only [Alt.strip, Alt.toJson]
  | .list elem | .tupleOf elem | .iterable elem => by simp only [Alt.strip, Alt.toJson, Ty.toJson_strip elem]
  | .dict key value => by simp only [Alt.strip, Alt.toJson, Ty.toJson_strip key, Ty.toJson_strip value]
  | .tuple elems => by
      have hempty : (Ty.stripEach deep elems).isEmpty = elems.isEmpty := by cases elems <;> rfl
      simp only [Alt.strip, Alt.toJson, Ty.toJsons_stripEach elems, hempty]
  | .struct fields isOpen => by
      have hempty : (Ty.stripFields deep fields).isEmpty = fields.isEmpty := by cases fields <;> rfl
      simp only [Alt.strip, Alt.toJson, Ty.fieldsToJson_stripFields fields, hempty]
  | .function (some sig) => by
      have hsig := Signature.toJson_strip sig
      cases deep with
      | false => rfl
      | true => simp only [Alt.strip, Alt.toJson, cond_true, hsig]

theorem Ty.toJsons_stripEach : (ts : List Ty) → Ty.toJsons (Ty.stripEach deep ts) = Ty.toJsons ts
  | [] => rfl
  | t :: rest => by rw [Ty.stripEach, Ty.toJsons, Ty.toJsons, Ty.toJson_strip t, Ty.toJsons_stripEach rest]

theorem Ty.fieldsToJson_stripFields : (fields : List (Text × Ty)) →
    Ty.fieldsToJson (Ty.stripFields deep fields) = Ty.fieldsToJson fields
  | [] => rfl
  | (name, t) :: rest => by
      rw [Ty.stripFields, Ty.fieldsToJson, Ty.fieldsToJson, Ty.toJson_strip t, Ty.fieldsToJson_stripFields rest]

theorem Signature.toJson_strip : (sig : Signature) → (sig.strip deep).toJson = sig.toJson
  | ⟨params, result⟩ => by
      simp only [Signature.strip, Signature.toJson, Param.toJsons_stripEach params, Ty.toJson_strip result]

theorem Param.toJsons_stripEach : (params : List Param) →
    Param.toJsons (Param.stripEach deep params) = Param.toJsons params
  | [] => rfl
  | ⟨mode, name, type, optional⟩ :: rest => by
      simp only [Param.stripEach, Param.strip, Param.toJsons, Param.toJson, Ty.toJson_strip type,
        Param.toJsons_stripEach rest]

end

/-! ### Parts -/

theorem Ty.IsNormalUnion.strip {t : Ty} (h : t.IsNormalUnion) : (t.strip deep).IsNormalUnion := by
  obtain ⟨alts⟩ := t
  rw [Ty.strip, Alt.stripEach_eq_map]
  refine h.map (fun a _ => Alt.text_strip deep a) (fun a => ?_) fun a ha => ?_
  · cases a with
    | function sig => cases sig <;> rfl
    | _ => rfl
  · cases a with
    | struct fields isOpen =>
        rw [Alt.strip, Ty.stripFields_eq_map]
        exact decide_eq_true (List.pairwise_map.mpr (of_decide_eq_true ha))
    | function sig => cases sig <;> rfl
    | _ => rfl

theorem Alt.parts_plain (a : Alt) : a.plain.parts = a.parts.map Ty.plain := by
  cases a with
  | tuple elems => exact Ty.stripEach_eq_map true elems
  | struct fields isOpen =>
      rw [Alt.plain, Alt.strip, Alt.parts, Ty.stripFields_eq_map, Alt.parts, List.map_map, List.map_map]
      rfl
  | function sig =>
      cases sig with
      | none => rfl
      | some sig =>
          obtain ⟨params, result⟩ := sig
          show result.plain :: (Param.stripEach true params).map Param.type = result.plain :: _
          rw [Param.stripEach_eq_map, List.map_map, List.map_map]
          refine congrArg _ (List.map_congr_left fun p _ => ?_)
          cases p
          rfl
  | _ => rfl

theorem Ty.Everywhere.plain {P Q : Ty → Prop} {t : Ty} (h : t.Everywhere P) (hPQ : ∀ u, P u → Q u.plain) :
    t.plain.Everywhere Q := by
  induction h with
  | @intro t here inside ih =>
      refine .intro (hPQ t here) fun a ha u hu => ?_
      rw [Ty.alts_strip] at ha
      obtain ⟨b, hb, rfl⟩ := List.mem_map.mp ha
      rw [Alt.parts_plain] at hu
      obtain ⟨v, hv, rfl⟩ := List.mem_map.mp hu
      exact ih b hb v hv

end Gradual
