import Gradual.Proofs.NormalOperations

/-! What attaching hosts does to a type. Texts and JSON forms do not tell hosts, so a type in normal form keeps its
order and stays as it is by names. Every custom type that stands outside of signatures gets the host of its name.
Signatures are not entered: what stands in them carries the right hosts afterwards only if it did before. -/

namespace Gradual

/-! ### What stands outside of signatures -/

/-- The types that an alternative is directly made of, unless they belong to a signature. -/
def Alt.openParts : Alt → List Ty
  | .function _ => []
  | a => a.parts

/-- An alternative stands in a type outside of signatures, at whatever depth. -/
inductive Ty.Shows : Ty → Alt → Prop
  | here {t : Ty} {a : Alt} (ha : a ∈ t.alts) : t.Shows a
  | inside {t u : Ty} {a b : Alt} (hb : b ∈ t.alts) (hu : u ∈ b.openParts) (h : u.Shows a) : t.Shows a

/-- The custom types among the alternatives of a type have the hosts that are known for their names. -/
def Ty.Carries (lookup : Text → Option Host) (t : Ty) : Prop :=
  ∀ name host found, .custom name host ∈ t.alts → lookup name = some found → host = some found

section Parts

variable {a : Alt} {u : Ty}

theorem Alt.mem_parts_of_mem_openParts (h : u ∈ a.openParts) : u ∈ a.parts := by
  cases a with
  | function sig => cases h
  | _ => exact h

theorem Alt.openParts_or_function (h : u ∈ a.parts) : u ∈ a.openParts ∨ ∃ sig, a = .function sig := by
  cases a with
  | function sig => exact Or.inr ⟨sig, rfl⟩
  | _ => exact Or.inl h

theorem Ty.Shows.everywhere {P : Ty → Prop} {t : Ty} (h : t.Shows a) (ht : t.Everywhere P) : a.Everywhere P := by
  induction h with
  | here ha => exact ht.alt ha
  | inside hb hu _ ih => exact ih (ht.alt hb _ (Alt.mem_parts_of_mem_openParts hu))

end Parts

/-! ### Attaching hosts -/

section Attach

variable (lookup : Text → Option Host) {t : Ty} {a : Alt}

theorem Alt.openParts_attach (a : Alt) : (a.attach lookup).openParts = a.openParts.map (·.attach lookup) := by
  cases a with
  | tuple elems => exact Ty.attachAll_eq_map lookup elems
  | struct fields isOpen =>
      show (Ty.attachFields lookup fields).map (·.2) = (fields.map (·.2)).map (·.attach lookup)
      rw [Ty.attachFields_eq_map, List.map_map, List.map_map]
      rfl
  | _ => rfl

theorem Alt.bare_attach (h : ∀ u ∈ a.openParts, (u.attach lookup).strip false = u.strip false) :
    (a.attach lookup).strip false = a.strip false := by
  cases a with
  | list elem | tupleOf elem | iterable elem => rw [attach, strip, strip, h elem List.mem_cons_self]
  | dict key value =>
      rw [attach, strip, strip, h key List.mem_cons_self, h value mem_second]
  | tuple elems =>
      rw [attach, strip, strip, Ty.attachAll_eq_map, Ty.stripEach_eq_map, Ty.stripEach_eq_map, List.map_map]
      exact congrArg Alt.tuple (List.map_congr_left h)
  | struct fields isOpen =>
      rw [attach, strip, strip, Ty.attachFields_eq_map, Ty.stripFields_eq_map, Ty.stripFields_eq_map, List.map_map]
      refine congrArg (Alt.struct · isOpen) (List.map_congr_left fun f hf => ?_)
      exact congrArg (Prod.mk f.1) (h f.2 (List.mem_map_of_mem hf))
  | function sig => cases sig <;> rfl
  | any | prim | custom => rfl

theorem Alt.isAny_attach (a : Alt) : (a.attach lookup).isAny = a.isAny := by
  cases a <;> rfl

/-- Where the texts of its alternatives stay, a normal union keeps their order. -/
theorem Ty.IsNormalUnion.attach_eq (h : t.IsNormalUnion) (htext : ∀ a ∈ t.alts, (a.attach lookup).text = a.text) :
    t.attach lookup = ⟨t.alts.map (·.attach lookup)⟩ := by
  obtain ⟨alts⟩ := t
  have hattached := h.map htext (Alt.isAny_attach lookup) fun _ => Alt.hasSortedFields_attach lookup
  rw [Ty.attach, Alt.attachAll_eq_map]
  exact Ty.ofAlts_alts hattached

theorem Ty.Normal.bare_attach (h : t.Normal) : (t.attach lookup).strip false = t.strip false := by
  induction h with
  | @intro t here inside ih =>
      have hbare : ∀ a ∈ t.alts, (a.attach lookup).strip false = a.strip false := fun a ha =>
        Alt.bare_attach lookup fun u hu => ih a ha u (Alt.mem_parts_of_mem_openParts hu)
      have htext : ∀ a ∈ t.alts, (a.attach lookup).text = a.text := by
        intro a ha
        rw [← Alt.text_strip false, hbare a ha, Alt.text_strip]
      apply Ty.eq_of_alts_eq
      rw [here.attach_eq lookup htext, Ty.alts_strip, Ty.alts_strip, List.map_map]
      exact List.map_congr_left hbare

theorem Ty.Normal.part (h : t.Normal) (ha : a ∈ t.alts) {u : Ty} (hu : u ∈ a.openParts) : u.Normal :=
  h.alt ha u (Alt.mem_parts_of_mem_openParts hu)

theorem Ty.Normal.text_attach (h : t.Normal) (ha : a ∈ t.alts) : (a.attach lookup).text = a.text := by
  rw [← Alt.text_strip false, Alt.bare_attach lookup fun u hu => (h.part ha hu).bare_attach lookup, Alt.text_strip]

theorem Ty.Normal.alts_attach (h : t.Normal) : (t.attach lookup).alts = t.alts.map (·.attach lookup) := by
  rw [h.here.attach_eq lookup fun a ha => h.text_attach lookup ha]

theorem Ty.Normal.equal_attach (h : t.Normal) : (t.attach lookup).equal t = true := by
  rw [Ty.equal, h.alts_attach lookup, List.map_map, beq_iff_eq]
  exact List.map_congr_left fun a ha => h.text_attach lookup ha

theorem Ty.Normal.toJson_attach (h : t.Normal) : (t.attach lookup).toJson = t.toJson := by
  rw [← Ty.toJson_strip false, h.bare_attach lookup, Ty.toJson_strip]

theorem Ty.Normal.shows_attach_iff (h : t.Normal) {b : Alt} :
    (t.attach lookup).Shows b ↔ ∃ a, t.Shows a ∧ b = a.attach lookup := by
  constructor
  · intro hb
    induction h with
    | @intro t here inside ih =>
        have halts := Ty.Normal.alts_attach lookup (.intro here inside)
        cases hb with
        | here hb =>
            rw [halts] at hb
            obtain ⟨a, ha, rfl⟩ := List.mem_map.mp hb
            exact ⟨a, .here ha, rfl⟩
        | inside hc hu hb =>
            rw [halts] at hc
            obtain ⟨c, hcmem, rfl⟩ := List.mem_map.mp hc
            rw [Alt.openParts_attach] at hu
            obtain ⟨u, humem, rfl⟩ := List.mem_map.mp hu
            obtain ⟨a, ha, rfl⟩ := ih c hcmem u (Alt.mem_parts_of_mem_openParts humem) hb
            exact ⟨a, .inside hcmem humem ha, rfl⟩
  · rintro ⟨a, ha, rfl⟩
    induction ha with
    | here ha =>
        refine .here ?_
        rw [h.alts_attach]
        exact List.mem_map_of_mem ha
    | @inside t u a b hb hu _ ih =>
        have hattached : b.attach lookup ∈ (t.attach lookup).alts := by
          rw [h.alts_attach]
          exact List.mem_map_of_mem hb
        refine .inside hattached ?_ (ih (h.part hb hu))
        rw [Alt.openParts_attach]
        exact List.mem_map_of_mem hu

theorem Ty.Normal.shows_custom_attach_iff (h : t.Normal) {name : Text} {host : Option Host} :
    (t.attach lookup).Shows (.custom name host) ↔
      ∃ before, t.Shows (.custom name before) ∧ host = (lookup name <|> before) := by
  rw [h.shows_attach_iff]
  constructor
  · rintro ⟨a, ha, heq⟩
    cases a with
    | custom name' before =>
        cases heq
        exact ⟨before, ha, rfl⟩
    | _ => cases heq
  · rintro ⟨before, hbefore, rfl⟩
    exact ⟨_, hbefore, rfl⟩

theorem Ty.Normal.shows_function_attach_iff (h : t.Normal) {sig : Option Signature} :
    (t.attach lookup).Shows (.function sig) ↔ t.Shows (.function sig) := by
  rw [h.shows_attach_iff]
  constructor
  · rintro ⟨a, ha, heq⟩
    cases a with
    | function sig' =>
        cases heq
        exact ha
    | _ => cases heq
  · exact fun hsig => ⟨_, hsig, rfl⟩

/-- If the types in signatures carry the right hosts, all types do once hosts are attached. -/
theorem Ty.Normal.everywhere_carries_attach (h : t.Normal)
    (hsigs : ∀ sig, t.Shows (.function sig) → (Alt.function sig).Everywhere (Ty.Carries lookup)) :
    (t.attach lookup).Everywhere (Ty.Carries lookup) := by
  induction h with
  | @intro t here inside ih =>
      have ht : t.Normal := .intro here inside
      refine .intro (fun name host found hcustom hfound => ?_) fun b hb u hu => ?_
      · obtain ⟨before, -, rfl⟩ := (ht.shows_custom_attach_iff lookup).mp (.here hcustom)
        rw [hfound]
        rfl
      · rcases Alt.openParts_or_function hu with hopen | ⟨sig, rfl⟩
        · rw [ht.alts_attach] at hb
          obtain ⟨a, ha, rfl⟩ := List.mem_map.mp hb
          rw [Alt.openParts_attach] at hopen
          obtain ⟨v, hv, rfl⟩ := List.mem_map.mp hopen
          exact ih a ha v (Alt.mem_parts_of_mem_openParts hv) fun sig hsig => hsigs sig (.inside ha hv hsig)
        · exact hsigs sig ((ht.shows_function_attach_iff lookup).mp (.here hb)) u hu

end Attach

/-- Attaching hosts changes nothing of a type but hosts: the types are equal, have the same JSON form and are the
same by names. Outside of signatures each custom type gets the host of its name, and keeps its own where none is
known. Signatures stay as they are, and so all custom types carry the hosts of their names exactly if those in the
signatures did so before. -/
theorem Ty.attach_reaches_outside_signatures {t : Ty} (h : t.Normal) (lookup : Text → Option Host) :
    (t.attach lookup).equal t = true ∧ (t.attach lookup).toJson = t.toJson ∧ (t.attach lookup).bare = t.bare ∧
    (∀ name host, (t.attach lookup).Shows (.custom name host) ↔
      ∃ before, t.Shows (.custom name before) ∧ host = (lookup name <|> before)) ∧
    (∀ sig, (t.attach lookup).Shows (.function sig) ↔ t.Shows (.function sig)) ∧
    ((t.attach lookup).Everywhere (Ty.Carries lookup) ↔
      ∀ sig, t.Shows (.function sig) → (Alt.function sig).Everywhere (Ty.Carries lookup)) := by
  refine ⟨h.equal_attach lookup, h.toJson_attach lookup, h.bare_attach lookup,
    fun _ _ => h.shows_custom_attach_iff lookup, fun _ => h.shows_function_attach_iff lookup, ?_⟩
  constructor
  · intro hall sig hsig
    exact ((h.shows_function_attach_iff lookup).mpr hsig).everywhere hall
  · exact h.everywhere_carries_attach lookup

/-- The host of the custom type `Label`, whose values have an attribute `x`. -/
def labelHost : Host := .having "x" .int

/-- The hosts that are known: one for the name `Label`. -/
def knownHosts (name : Text) : Option Host := if name = "Label" then some labelHost else none

/-- Lists of labels and of numbers under labels, and callables that take a label. -/
def labels : Ty :=
  ⟨[.function (some ⟨[.required "l" (.named "Label")], .int⟩), .list (.named "Label"),
    .list (.dict (.named "Label") .int)]⟩

/-- The keys in a list get a host. The parameter of the callable does not. -/
theorem Ty.attach_reaches_outside_signatures_labels :
    labels.Normal ∧ (labels.attach knownHosts).Shows (.custom "Label" (some labelHost)) ∧
      ¬(labels.attach knownHosts).Everywhere (Ty.Carries knownHosts) := by
  have hnormal : labels.Normal := Ty.everywhere_of_holdsInside 4 (by decide +kernel)
  obtain ⟨-, -, -, hcustom, -, hcarries⟩ := Ty.attach_reaches_outside_signatures hnormal knownHosts
  refine ⟨hnormal, (hcustom "Label" _).mpr ⟨Option.none, ?_, rfl⟩, fun hall => ?_⟩
  · refine .inside (b := .list (.dict (.named "Label") .int)) (by simp [labels]) List.mem_cons_self ?_
    refine .inside (b := .dict (.named "Label") .int) List.mem_cons_self List.mem_cons_self ?_
    exact .here List.mem_cons_self
  · have hsig := hcarries.mp hall _ (.here List.mem_cons_self) (.named "Label")
      (List.mem_cons_of_mem _ List.mem_cons_self)
    cases hsig.here "Label" Option.none labelHost List.mem_cons_self rfl

/-- A callable that gives a label is left as it is, although a host is known for its result. -/
theorem Ty.attach_misses_results :
    let t : Ty := .function (some ⟨[], .named "Label"⟩)
    t.Normal ∧ t.attach knownHosts = t ∧ ¬(t.attach knownHosts).Everywhere (Ty.Carries knownHosts) := by
  intro t
  have hattach : t.attach knownHosts = t := rfl
  refine ⟨Ty.everywhere_of_holdsInside 3 (by decide +kernel), hattach, fun hall => ?_⟩
  rw [hattach] at hall
  cases (hall.alt List.mem_cons_self (.named "Label") List.mem_cons_self).here "Label" Option.none labelHost
    List.mem_cons_self rfl

end Gradual
