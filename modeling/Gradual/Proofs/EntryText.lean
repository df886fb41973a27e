import Gradual.Program.Cache
import Gradual.Proofs.PortableVocabulary

/-! What is kept of a checked module survives its file, apart from hosts. Interfaces, errors and approximations whose
types are portable and whose texts are UTF-8 are read back as they were written, or not at all: a place whose numbers
have no room in 64 bits makes the file unreadable. Types with hosts are written as if they had none. -/

namespace Gradual

/-- If something is read, it is `a`. -/
def Yields {ε α : Type} (read : Except ε α) (a : α) : Prop := ∀ b, read = .ok b → b = a

namespace Yields

variable {ε α β : Type}

theorem ok (a : α) : Yields (.ok a : Except ε α) a := by
  intro b h
  cases h
  rfl

theorem pure (a : α) : Yields (Pure.pure a : Except ε α) a := ok a

theorem of_eq {read : Except ε α} {a : α} (h : read = .ok a) : Yields read a := h ▸ ok a

theorem bind {read : Except ε α} {next : α → Except ε β} {a : α} {b : β} (hread : Yields read a)
    (hnext : Yields (next a) b) : Yields (read >>= next) b := by
  intro c h
  cases read with
  | error e => cases h
  | ok a' =>
      rw [hread a' rfl] at h
      exact hnext c h

theorem member {read : Text → Json → α → Json.Draft ε α} {name : Text} {j : Json} {ms : List (Text × Json)}
    {current a b : α} (hread : Yields (read (Json.foldName name) j current) b)
    (hrest : Yields (Json.readMembers read b (.obj ms)) a) :
    Yields (Json.readMembers read current (.obj ((name, j) :: ms))) a := by
  rw [Json.readMembers, List.foldlM_cons]
  exact hread.bind hrest

theorem noMember {read : Text → Json → α → Json.Draft ε α} (a : α) :
    Yields (Json.readMembers read a (.obj [])) a := ok a

theorem readOver {blank : α} {item : α → Json → Json.Draft ε α} {toJson : α → Json} {as : List α}
    (h : ∀ a ∈ as, Yields (item blank (toJson a)) a) :
    Yields (Json.readOver blank item [] (as.map toJson)) as := by
  induction as with
  | nil => exact ok []
  | cons a as ih =>
      exact (h a List.mem_cons_self).bind
        ((ih fun b hb => h b (List.mem_cons_of_mem a hb)).bind (ok (a :: as)))

theorem readItems {blank : α} {item : α → Json → Json.Draft ε α} {toJson : α → Json} {as : List α}
    (h : ∀ a ∈ as, Yields (item blank (toJson a)) a) :
    Yields (Json.readItems blank item none (.arr (as.map toJson))) (some ⟨as, []⟩) :=
  (readOver h).bind (of_eq (congrArg (fun items => Except.ok (some items)) (Wire.shift_nil as)))

end Yields

/-! ### Errors and approximations -/

namespace Report

theorem yields_readInt (current n : Int) : Yields (Json.readInt current (.int n) : Draft Int) n := by
  intro m h
  unfold Json.readInt at h
  dsimp only [Json.int] at h
  split at h
  · next hint =>
    cases h
    exact Json.eq_of_int?_toString hint
  · cases h

theorem yields_readPosition (current p : Position) : Yields (readPosition current p.toJson) p := by
  refine .member (b := { current with line := p.line }) ?_ (.member (b := p) ?_ (.noMember p))
  · exact (yields_readInt current.line p.line).bind (.pure _)
  · exact (yields_readInt current.column p.column).bind (.pure _)

theorem yields_readSpan (current s : Span) : Yields (readSpan current s.toJson) s := by
  refine .member (b := { current with start := s.start }) ?_ (.member (b := s) ?_ (.noMember s))
  · exact (yields_readPosition current.start s.start).bind (.pure _)
  · exact (yields_readPosition current.stop s.stop).bind (.pure _)

theorem yields_readKind (current k : ErrorKind) : Yields (readKind current (.str k.name)) k := by
  intro k' h
  cases k <;> cases h <;> rfl

theorem yields_readType {t : Ty} (h : t.Portable) : Yields (readType t.toJson) t := by
  have hread : readType t.toJson = .ok t := by
    rw [readType, h.ofJson_toJson]
    rfl
  exact .of_eq hread

theorem yields_readError {e : TypingError} (h : e.Within .portable) :
    Yields (readError blankError e.toJson) e := by
  obtain ⟨kind, span, message, param, expected, found⟩ := e
  have hrest : ∀ current : TypingError, Yields (readError current
      (.obj [("expected", expected.toJson), ("found", found.toJson)]))
      { current with expected := expected, found := found } := by
    intro current
    refine .member (b := { current with expected := expected }) ?_ (.member ?_ (.noMember _))
    · exact (yields_readType h.expected).bind (.pure _)
    · exact (yields_readType h.found).bind (.pure _)
  refine .member (b := { blankError with kind := kind }) ?_
    (.member (b := { blankError with kind := kind, span := span }) ?_
      (.member (b := { blankError with kind := kind, span := span, message := message }) (.ok _) ?_))
  · exact (yields_readKind .unset kind).bind (.pure _)
  · exact (yields_readSpan {} span).bind (.pure _)
  · by_cases hparam : param = ""
    · subst hparam
      exact hrest { kind := kind, span := span, message := message }
    · simp only [if_neg hparam]
      exact .member (b := { kind := kind, span := span, message := message, param := param }) (.ok _) (hrest _)

theorem yields_readApproximation (a : Approximation) :
    Yields (readApproximation CacheEntry.blankApproximation a.toJson) a := by
  refine .member (b := ⟨a.category, "", {}⟩) (.ok _)
    (.member (b := ⟨a.category, a.message, {}⟩) (.ok _) (.member (b := a) ?_ (.noMember a)))
  exact (yields_readSpan {} a.span).bind (.pure _)

end Report

/-! ### Interfaces -/

namespace Interface

theorem readExports_toJson {entries : List (Text × Ty)} (h : ∀ e ∈ entries, e.2.Portable) (current : NameMap Ty) :
    readExports current (.obj (entries.map fun e => (e.1, e.2.toJson)))
      = .ok (entries.foldl (fun m e => m.insert e.1 e.2) current) := by
  induction entries generalizing current with
  | nil => rfl
  | cons e rest ih =>
      obtain ⟨he, hrest⟩ := List.forall_mem_cons.mp h
      have hread : Json.Draft.take (Ty.ofJson e.2.toJson) = .ok e.2 := by
        rw [he.ofJson_toJson]
        rfl
      rw [readExports, List.map_cons, List.foldlM_cons]
      show ((Json.Draft.take (Ty.ofJson e.2.toJson) >>= fun t => pure (current.insert e.1 t)) >>= fun m =>
        readExports m (.obj (rest.map fun e => (e.1, e.2.toJson)))) = _
      rw [hread]
      exact ih hrest (current.insert e.1 e.2)

theorem ofJson_toJson {i : Interface} (h : i.Within .portable) : ofJson i.toJson = .ok i := by
  obtain ⟨⟨entries⟩⟩ := i
  have hread : readExports .empty (.obj (entries.map fun e => (e.1, e.2.toJson))) = .ok ⟨entries⟩ := by
    rw [readExports_toJson (fun e he => (h.exports e he).2)]
    exact congrArg Except.ok (NameMap.ofList_of_sorted h.sorted)
  show (((readExports .empty (.obj (entries.map fun e => (e.1, e.2.toJson))) >>= fun m =>
    pure (Interface.mk m)) >>= pure).finish .shape) = _
  rw [hread]
  rfl

open Json in
theorem writable_toJson {i : Interface} (h : i.Within .portable) : i.toJson.Writable := by
  have hexports : ∀ entries : List (Text × Ty), (∀ e ∈ entries, e.1.isUtf8 = true ∧ e.2.Portable) →
      (Json.obj (entries.map fun e => (e.1, e.2.toJson))).Writable := by
    intro entries hentries
    induction entries with
    | nil => exact writable_obj_nil
    | cons e rest ih =>
        obtain ⟨he, hrest⟩ := List.forall_mem_cons.mp hentries
        exact writable_obj_cons he.1 he.2.writable (ih hrest)
  exact writable_obj_cons rfl (hexports _ h.exports) writable_obj_nil

end Interface

/-! ### Entries -/

namespace CacheEntry

structure Within (v : Vocabulary) (e : CacheEntry) : Prop where
  key : v.IsName e.key
  interface : ∀ i, e.interface = some i → i.Within v
  errors : ∀ es, e.errors = some es → ∀ error ∈ es, error.Within v
  approximations : ∀ a ∈ e.approximations, a.Within v

theorem yields_readInterface {i : Interface} (h : i.Within .portable) :
    Yields (readInterface i.toJson) (some i) := by
  have hread : readInterface i.toJson = .ok (some i) := by
    show (Json.Draft.take ((Interface.ofJson i.toJson).mapError ReportError.exports) >>= fun i =>
      pure (some i)) = _
    rw [Interface.ofJson_toJson h]
    rfl
  exact .of_eq hread

theorem yields_readErrors {errors : Option (List TypingError)}
    (h : ∀ es, errors = some es → ∀ error ∈ es, error.Within .portable) :
    Yields (Json.readItems Report.blankError Report.readError none
      ((errors.map fun es => Json.arr (es.map TypingError.toJson)).getD .null))
      (errors.map fun es => ⟨es, []⟩) := by
  cases errors with
  | none => exact .ok none
  | some es => exact .readItems fun e he => Report.yields_readError (h es rfl e he)

theorem yields_readInterface_getD {interface : Option Interface}
    (h : ∀ i, interface = some i → i.Within .portable) :
    Yields (readInterface ((interface.map Interface.toJson).getD .null)) interface := by
  cases interface with
  | none => exact .ok none
  | some i => exact yields_readInterface (h i rfl)

theorem yields_ofJson {e : CacheEntry} (h : e.Within .portable) : Yields (ofJson e.toJson) e := by
  obtain ⟨key, interface, errors, approximations⟩ := e
  have hraw : Yields (read (toJson ⟨key, interface, errors, approximations⟩))
      ⟨key, interface, errors.map fun es => ⟨es, []⟩,
        if approximations.isEmpty then none else some ⟨approximations, []⟩⟩ := by
    refine .member (b := { key := key }) (.ok _) (.member (b := { key := key, interface := interface }) ?_
      (.member (b := { key := key, interface := interface, errors := errors.map fun es => ⟨es, []⟩ }) ?_ ?_))
    · exact (yields_readInterface_getD h.interface).bind (.pure _)
    · exact (yields_readErrors h.errors).bind (.pure _)
    · split
      · exact .noMember _
      · refine .member ?_ (.noMember _)
        exact (Yields.readItems fun a ha => Report.yields_readApproximation a).bind (.pure _)
  intro e' h'
  cases hread : read (toJson ⟨key, interface, errors, approximations⟩) with
  | error fault =>
      rw [ofJson, hread] at h'
      cases h'
  | ok raw =>
      rw [ofJson, hread] at h'
      cases h'
      rw [hraw raw hread]
      cases errors <;> cases approximations <;> rfl

/-! ### Files -/

open Json in
theorem writable_position (p : Position) : p.toJson.Writable :=
  writable_obj_cons rfl (.int p.line) (writable_obj_cons rfl (.int p.column) writable_obj_nil)

open Json in
theorem writable_span (s : Span) : s.toJson.Writable :=
  writable_obj_cons rfl (writable_position s.start)
    (writable_obj_cons rfl (writable_position s.stop) writable_obj_nil)

open Json in
theorem writable_error {e : TypingError} (h : e.Within .portable) : e.toJson.Writable := by
  obtain ⟨kind, span, message, param, expected, found⟩ := e
  have hkind : kind.name.isUtf8 = true := by cases kind <;> rfl
  have htypes : (Json.obj [("expected", expected.toJson), ("found", found.toJson)]).Writable :=
    writable_obj_cons rfl h.expected.writable (writable_obj_cons rfl h.found.writable writable_obj_nil)
  refine writable_obj_cons rfl (.str hkind) (writable_obj_cons rfl (writable_span span)
    (writable_obj_cons rfl (.str h.message) ?_))
  by_cases hparam : param = ""
  · simp only [if_pos hparam]
    exact htypes
  · simp only [if_neg hparam]
    exact writable_obj_cons rfl (.str h.param) htypes

open Json in
theorem writable_approximation {a : Approximation} (h : a.Within .portable) : a.toJson.Writable :=
  writable_obj_cons rfl (.str h.category)
    (writable_obj_cons rfl (.str h.message) (writable_obj_cons rfl (writable_span a.span) writable_obj_nil))

open Json in
theorem writable_items {α : Type} {toJson : α → Json} {as : List α} (h : ∀ a ∈ as, (toJson a).Writable) :
    (Json.arr (as.map toJson)).Writable := by
  induction as with
  | nil => exact writable_arr_nil
  | cons a as ih =>
      obtain ⟨ha, has⟩ := List.forall_mem_cons.mp h
      exact writable_arr_cons ha (ih has)

open Json in
theorem writable_toJson {e : CacheEntry} (h : e.Within .portable) : e.toJson.Writable := by
  obtain ⟨key, interface, errors, approximations⟩ := e
  have hinterface : ((interface.map Interface.toJson).getD .null).Writable := by
    cases interface with
    | none => exact .null
    | some i => exact Interface.writable_toJson (h.interface i rfl)
  have herrors : ((errors.map fun es => Json.arr (es.map TypingError.toJson)).getD .null).Writable := by
    cases errors with
    | none => exact .null
    | some es => exact writable_items fun e he => writable_error (h.errors es rfl e he)
  refine writable_obj_cons rfl (.str h.key) (writable_obj_cons rfl hinterface (writable_obj_cons rfl herrors ?_))
  split
  · exact writable_obj_nil
  · exact writable_obj_cons rfl (writable_items fun a ha => writable_approximation (h.approximations a ha))
      writable_obj_nil

theorem eq_of_ofFileText {e e' : CacheEntry} (h : e.Within .portable) (hread : ofFileText e.fileText = some e') :
    e' = e := by
  rw [ofFileText, fileText, Json.decode_of_parse (Json.parse_renderIndented _ _ (writable_toJson h))] at hread
  split at hread
  · cases hread
  · cases hjson : ofJson e.toJson with
    | error fault =>
        rw [hjson] at hread
        cases hread
    | ok e'' =>
        rw [hjson] at hread
        cases hread
        exact yields_ofJson h _ hjson

end CacheEntry

/-! ### Without hosts -/

variable {hosted : Bool}

namespace Interface

def plain (i : Interface) : Interface := ⟨i.exports.map Ty.plain⟩

theorem toJson_plain (i : Interface) : i.plain.toJson = i.toJson := by
  simp only [toJson, plain, NameMap.map, List.map_map, Function.comp_def, Ty.toJson_strip]

theorem Within.plain {i : Interface} (h : i.Within (.spoken hosted)) : i.plain.Within .portable where
  sorted := NameMap.isSorted_map_iff.mpr h.sorted
  exports := List.forall_mem_map.mpr fun e he => ⟨(h.exports e he).1, (h.exports e he).2.plain⟩

theorem Within.spoken {i : Interface} (h : i.Within .portable) : i.Within (.spoken hosted) :=
  ⟨h.sorted, fun e he => ⟨(h.exports e he).1, (h.exports e he).2.spoken⟩⟩

theorem Within.plain_eq {i : Interface} (h : i.Within (.spoken false)) : i.plain = i := by
  have hentry : ∀ e ∈ i.exports.entries, (e.1, e.2.plain) = id e := fun e he =>
    Prod.ext rfl (h.exports e he).2.plain_eq
  rw [Interface.plain, NameMap.map, List.map_congr_left hentry, List.map_id]

end Interface

namespace TypingError

def plain (e : TypingError) : TypingError := { e with expected := e.expected.plain, found := e.found.plain }

theorem toJson_plain (e : TypingError) : e.plain.toJson = e.toJson := by
  simp only [toJson, plain, Ty.toJson_strip]
  rfl

theorem Within.plain {e : TypingError} (h : e.Within (.spoken hosted)) : e.plain.Within .portable :=
  ⟨h.message, h.param, h.expected.plain, h.found.plain⟩

theorem Within.plain_eq {e : TypingError} (h : e.Within (.spoken false)) : e.plain = e := by
  rw [TypingError.plain, h.expected.plain_eq, h.found.plain_eq]

end TypingError

namespace CacheEntry

def plain (e : CacheEntry) : CacheEntry :=
  { e with interface := e.interface.map Interface.plain, errors := e.errors.map (List.map TypingError.plain) }

theorem fileText_plain (e : CacheEntry) : e.plain.fileText = e.fileText := by
  have hjson : e.plain.toJson = e.toJson := by
    simp only [toJson, plain, Option.map_map, Function.comp_def, List.map_map, Interface.toJson_plain,
      TypingError.toJson_plain]
    rfl
  rw [fileText, hjson, fileText]

theorem Within.plain {e : CacheEntry} (h : e.Within (.spoken hosted)) : e.plain.Within .portable where
  key := h.key
  interface := by
    intro i hi
    obtain ⟨i, hi', rfl⟩ := Option.map_eq_some_iff.mp hi
    exact (h.interface i hi').plain
  errors := by
    intro es hes
    obtain ⟨es, hes', rfl⟩ := Option.map_eq_some_iff.mp hes
    exact List.forall_mem_map.mpr fun e he => (h.errors es hes' e he).plain
  approximations a ha := ⟨(h.approximations a ha).category, (h.approximations a ha).message⟩

/-- An entry is read back from its file without its hosts, or not at all. -/
theorem eq_plain_of_ofFileText {e e' : CacheEntry} (h : e.Within (.spoken hosted))
    (hread : ofFileText e.fileText = some e') : e' = e.plain := by
  rw [← fileText_plain] at hread
  exact eq_of_ofFileText h.plain hread

end CacheEntry

end Gradual
