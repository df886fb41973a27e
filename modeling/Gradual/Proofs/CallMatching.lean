import Gradual.Call
import Gradual.Proofs.NameMaps
import Mathlib.Data.List.Induction

/-! Call matching accepts exactly the well-bound calls. The definition of a well-bound call sends each
argument to the place of a parameter, without a word on the order in which places are filled. Matching
walks over the arguments instead. The slots that it goes through are described by what each place has
received so far, and each step by what it adds to that. -/

namespace Gradual

/-- The arguments that an argument stands for once spread sequences of known length are written out. -/
def Arg.expand : Arg → List Arg
  | .splat t => (t.fixedTuple?.getD []).map .positional
  | a => [a]

namespace Call

variable {params : List Param} {i : Nat} {named : List (Text × Ty)} {a : Text × Ty}

/-- The place of the parameter that a named argument goes to. -/
def placeOf? (params : List Param) (name : Text) : Option Nat :=
  params.findIdx? fun p => p.mode.takesNamed && p.name == name

/-- Whether a named argument goes to a place. -/
def isNamedAt (params : List Param) (named : List (Text × Ty)) (i : Nat) : Bool :=
  named.any fun a => placeOf? params a.1 == some i

/-- Whether the parameter at a place satisfies `p`. -/
def paramAt (params : List Param) (p : Param → Bool) (i : Nat) : Bool := params[i]?.any p

/-- The places of the parameters that take positional arguments and are not given by name, in order. -/
def openPlaces (params : List Param) (named : List (Text × Ty)) : List Nat :=
  (List.range params.length).filter fun i =>
    paramAt params (·.mode.takesPositional) i && !isNamedAt params named i

/-- No two named arguments go to one place. -/
def NamedOnce (params : List Param) (named : List (Text × Ty)) : Prop :=
  named.Pairwise fun a b => (placeOf? params a.1).isSome = true → a.1 ≠ b.1

/-- Where the arguments of a call are sent: a named one to the parameter of its name or else to the
collector of named arguments, the positional ones to the open places in order, and those beyond to the
collector of positional arguments. -/
inductive Sent (params : List Param) (named : List (Text × Ty)) (positional : List Ty) : Nat → Ty → Prop
  | named {name : Text} {t : Ty} {i : Nat} (ht : (name, t) ∈ named) (hplace : placeOf? params name = some i) :
      Sent params named positional i t
  | positional {k i : Nat} {t : Ty} (ht : positional[k]? = some t)
      (hplace : (openPlaces params named)[k]? = some i) : Sent params named positional i t
  | surplus {k i : Nat} {t : Ty} (ht : positional[k]? = some t) (hk : (openPlaces params named).length ≤ k)
      (hplace : paramAt params (·.mode == .args) i = true) : Sent params named positional i t
  | stray {name : Text} {t : Ty} {i : Nat} (ht : (name, t) ∈ named) (hname : placeOf? params name = none)
      (hplace : paramAt params (·.mode == .kwargs) i = true) : Sent params named positional i t

/-- The named and positional arguments of a call are well bound: no parameter is named twice, no name is
unknown, no positional argument is in excess, every parameter that must receive an argument does, and
every argument is of the type of the parameter that it is sent to. -/
structure WellBound (params : List Param) (named : List (Text × Ty)) (positional : List Ty) : Prop where
  unique : NamedOnce params named
  known : ∀ a ∈ named, placeOf? params a.1 = none → hasMode params .kwargs = true
  fitting : positional.length ≤ (openPlaces params named).length ∨ hasMode params .args = true
  complete : ∀ i p, params[i]? = some p → p.optional = false → p.mode.isVariadic = false →
    ∃ t, Sent params named positional i t
  typed : ∀ i p t, params[i]? = some p → Sent params named positional i t → t.subtype p.type = true

theorem paramAt_iff {q : Param → Bool} : paramAt params q i = true ↔ ∃ p, params[i]? = some p ∧ q p = true := by
  rw [paramAt]
  cases params[i]? <;> simp

/-! ### Slots -/

/-- The slots of parameters of which each place has received what `given` says. -/
def slotsOf (params : List Param) (given : Nat → Option Ty) : List Slot :=
  params.mapIdx fun i p => ⟨p, given i⟩

theorem slotsOf_cons (p : Param) (params : List Param) (given : Nat → Option Ty) :
    slotsOf (p :: params) given = ⟨p, given 0⟩ :: slotsOf params fun i => given (i + 1) := by
  rw [slotsOf, List.mapIdx_cons]
  rfl

theorem mem_slotsOf {given : Nat → Option Ty} {s : Slot} :
    s ∈ slotsOf params given ↔ ∃ i p, params[i]? = some p ∧ s = ⟨p, given i⟩ := by
  rw [slotsOf, List.mem_iff_getElem?]
  simp only [List.getElem?_mapIdx, Option.map_eq_some_iff]
  constructor
  · rintro ⟨i, p, hp, rfl⟩
    exact ⟨i, p, hp, rfl⟩
  · rintro ⟨i, p, hp, rfl⟩
    exact ⟨i, p, hp, rfl⟩

theorem slotsOf_none (params : List Param) : slotsOf params (fun _ => none) = params.map fun p => ⟨p, none⟩ := by
  induction params with
  | nil => rfl
  | cons p params ih => rw [slotsOf_cons, ih, List.map_cons]

/-- What places have received once something is given at place `i`. -/
def giveAt (given : Nat → Option Ty) (i : Nat) (t : Ty) (j : Nat) : Option Ty := if j = i then some t else given j

/-! ### Named arguments -/

theorem placeOf?_cons (p : Param) (params : List Param) (name : Text) :
    placeOf? (p :: params) name =
      if p.name = name ∧ p.mode.takesNamed then some 0 else (placeOf? params name).map (· + 1) := by
  rw [placeOf?, List.findIdx?_cons]
  by_cases h : p.name = name ∧ p.mode.takesNamed = true
  · rw [if_pos h, if_pos (by simp [h])]
  · rw [if_neg h, if_neg (by simpa [and_comm] using h)]
    rfl

theorem landNamed_slotsOf (name : Text) (t : Ty) (params : List Param) (given : Nat → Option Ty) :
    landNamed name t (slotsOf params given) =
      match placeOf? params name with
      | none => .nowhere
      | some i =>
        match given i with
        | some _ => .taken
        | none => .bound (slotsOf params (giveAt given i t)) := by
  induction params generalizing given with
  | nil => rfl
  | cons p params ih =>
      rw [slotsOf_cons, landNamed, placeOf?_cons]
      by_cases h : p.name = name ∧ p.mode.takesNamed = true
      · rw [if_pos h, if_pos h]
        cases hgiven : given 0 with
        | some u => simp [hgiven]
        | none => simp [hgiven, slotsOf_cons, giveAt]
      · rw [if_neg h, if_neg h, ih]
        cases placeOf? params name with
        | none => rfl
        | some i =>
            have hshift : (fun j => giveAt given (i + 1) t (j + 1)) = giveAt (fun j => given (j + 1)) i t := by
              funext j
              simp [giveAt]
            have hfirst : giveAt given (i + 1) t 0 = given 0 := if_neg (Nat.succ_ne_zero i).symm
            cases hgiven : given (i + 1) with
            | some u => simp [hgiven]
            | none => simp only [hgiven, Option.map_some, slotsOf_cons, hfirst, hshift]

theorem name_of_placeOf? {name : Text} (h : placeOf? params name = some i) :
    ∃ p, params[i]? = some p ∧ p.mode.takesNamed = true ∧ p.name = name := by
  obtain ⟨hi, hp, -⟩ := List.findIdx?_eq_some_iff_getElem.mp h
  rw [Bool.and_eq_true, beq_iff_eq] at hp
  exact ⟨params[i], List.getElem?_eq_getElem hi, hp⟩

theorem eq_of_placeOf? {name name' : Text} (h : placeOf? params name = some i) (h' : placeOf? params name' = some i) :
    name = name' := by
  obtain ⟨p, hp, -, rfl⟩ := name_of_placeOf? h
  obtain ⟨p', hp', -, rfl⟩ := name_of_placeOf? h'
  cases hp.symm.trans hp'
  rfl

/-- What a place receives from the named arguments: the first one that goes there. -/
def namedGiven (params : List Param) (named : List (Text × Ty)) (i : Nat) : Option Ty :=
  (named.find? fun a => placeOf? params a.1 == some i).map (·.2)

theorem namedGiven_append_of_none (h : placeOf? params a.1 = none) :
    namedGiven params (named ++ [a]) = namedGiven params named := by
  funext i
  simp [namedGiven, List.find?_append, h]

theorem namedGiven_append_of_taken {t : Ty} (h : placeOf? params a.1 = some i)
    (htaken : namedGiven params named i = some t) : namedGiven params (named ++ [a]) = namedGiven params named := by
  funext j
  by_cases hj : j = i
  · subst hj
    obtain ⟨b, hfind, -⟩ := Option.map_eq_some_iff.mp htaken
    simp [namedGiven, List.find?_append, hfind]
  · simp [namedGiven, List.find?_append, h, Ne.symm hj]

theorem namedGiven_append_of_free (h : placeOf? params a.1 = some i) (hfree : namedGiven params named i = none) :
    namedGiven params (named ++ [a]) = giveAt (namedGiven params named) i a.2 := by
  funext j
  rw [namedGiven, Option.map_eq_none_iff] at hfree
  by_cases hj : j = i
  · subst hj
    simp [namedGiven, List.find?_append, h, hfree, giveAt]
  · simp [namedGiven, List.find?_append, h, hj, giveAt, Ne.symm hj]

/-- The binding after the named arguments of a call. -/
structure NamedBound (params : List Param) (named : List (Text × Ty)) (b : Binding) : Prop where
  slots : b.slots = slotsOf params (namedGiven params named)
  stray : b.strayNamed = named.filter fun a => (placeOf? params a.1).isNone
  repeated : b.repeated = [] ↔ NamedOnce params named

theorem namedBound_nil (params : List Param) :
    NamedBound params [] ⟨params.map fun p => ⟨p, none⟩, [], [], []⟩ where
  slots := (slotsOf_none params).symm
  stray := rfl
  repeated := ⟨fun _ => List.Pairwise.nil, fun _ => rfl⟩

theorem namedGiven_eq_some {t : Ty} (h : namedGiven params named i = some t) :
    ∃ name, (name, t) ∈ named ∧ placeOf? params name = some i := by
  obtain ⟨⟨name, u⟩, hfind, rfl⟩ := Option.map_eq_some_iff.mp h
  exact ⟨name, List.mem_of_find?_eq_some hfind, by simpa using List.find?_some hfind⟩

theorem namedGiven_eq_none (h : namedGiven params named i = none) (ha : a ∈ named) :
    placeOf? params a.1 ≠ some i := by
  rw [namedGiven, Option.map_eq_none_iff, List.find?_eq_none] at h
  simpa using h a ha

theorem namedOnce_append_singleton : NamedOnce params (named ++ [a]) ↔ NamedOnce params named ∧
      ∀ c ∈ named, (placeOf? params c.1).isSome = true → c.1 ≠ a.1 := by
  simp [NamedOnce, List.pairwise_append]

theorem NamedBound.step {b : Binding} (h : NamedBound params named b) (a : Text × Ty) :
    NamedBound params (named ++ [a]) (bindNamed b a) := by
  have hland := landNamed_slotsOf a.1 a.2 params (namedGiven params named)
  rw [← h.slots] at hland
  cases hplace : placeOf? params a.1 with
  | none =>
      rw [hplace] at hland
      rw [bindNamed, hland]
      refine ⟨?_, ?_, ?_⟩
      · rw [namedGiven_append_of_none hplace]
        exact h.slots
      · simp [h.stray, hplace]
      · have hne : ∀ c ∈ named, (placeOf? params c.1).isSome = true → c.1 ≠ a.1 := by
          intro c _ hc heq
          rw [heq, hplace] at hc
          cases hc
        rw [namedOnce_append_singleton, h.repeated]
        exact (and_iff_left hne).symm
  | some i =>
      rw [hplace] at hland
      cases hgiven : namedGiven params named i with
      | some u =>
          simp only [hgiven] at hland
          rw [bindNamed, hland]
          obtain ⟨name, hmem, hname⟩ := namedGiven_eq_some hgiven
          refine ⟨?_, ?_, ?_⟩
          · rw [namedGiven_append_of_taken hplace hgiven]
            exact h.slots
          · simp [h.stray, hplace]
          · refine ⟨fun hnil => by simp at hnil, fun honce => ?_⟩
            have hne := (namedOnce_append_singleton.mp honce).2 (name, u) hmem
            exact absurd (eq_of_placeOf? hname hplace) (hne (by rw [hname]; rfl))
      | none =>
          simp only [hgiven] at hland
          rw [bindNamed, hland]
          refine ⟨?_, ?_, ?_⟩
          · rw [namedGiven_append_of_free hplace hgiven]
          · simp [h.stray, hplace]
          · have hne : ∀ c ∈ named, (placeOf? params c.1).isSome = true → c.1 ≠ a.1 := by
              intro c hc _ heq
              exact namedGiven_eq_none hgiven hc (heq ▸ hplace)
            rw [namedOnce_append_singleton, h.repeated]
            exact (and_iff_left hne).symm

theorem namedBound_foldl (params : List Param) (named : List (Text × Ty)) :
    NamedBound params named (named.foldl bindNamed ⟨params.map fun p => ⟨p, none⟩, [], [], []⟩) := by
  induction named using List.reverseRecOn with
  | nil => exact namedBound_nil params
  | append_singleton named a ih =>
      rw [List.foldl_append]
      exact ih.step a

/-! ### Positional arguments -/

/-- The parameters that take positional arguments come before those that do not. -/
def PositionalFirst (params : List Param) : Prop :=
  params.Pairwise fun p q => q.mode.takesPositional = true → p.mode.takesPositional = true

/-- Whether the parameter at a place takes a positional argument and has not received anything. -/
def isOpenAt (params : List Param) (given : Nat → Option Ty) (i : Nat) : Bool :=
  paramAt params (·.mode.takesPositional) i && (given i).isNone

/-- The number of open places before a place. -/
def openBefore (params : List Param) (given : Nat → Option Ty) (i : Nat) : Nat :=
  ((List.range i).filter (isOpenAt params given)).length

/-- What a place has received once positional arguments have filled the open places in order. -/
def filled (params : List Param) (given : Nat → Option Ty) (positional : List Ty) (i : Nat) : Option Ty :=
  if isOpenAt params given i then positional[openBefore params given i]? else given i

theorem openBefore_cons (p : Param) (params : List Param) (given : Nat → Option Ty) (i : Nat) :
    openBefore (p :: params) given (i + 1) =
      openBefore params (fun j => given (j + 1)) i + if isOpenAt (p :: params) given 0 then 1 else 0 := by
  have hshift : isOpenAt (p :: params) given ∘ Nat.succ = isOpenAt params fun j => given (j + 1) := by
    funext j
    rfl
  rw [openBefore, List.range_succ_eq_map, List.filter_cons, List.filter_map, hshift]
  split <;> simp [openBefore]

theorem filled_nil (params : List Param) (given : Nat → Option Ty) : filled params given [] = given := by
  funext i
  rw [filled]
  split
  · next h =>
    rw [isOpenAt, Bool.and_eq_true, Option.isNone_iff_eq_none] at h
    rw [h.2]
    rfl
  · rfl

theorem filled_succ (p : Param) (params : List Param) (given : Nat → Option Ty) (positional : List Ty) (i : Nat) :
    filled (p :: params) given positional (i + 1) =
      filled params (fun j => given (j + 1))
        (positional.drop (if isOpenAt (p :: params) given 0 then 1 else 0)) i := by
  have hopen : isOpenAt (p :: params) given (i + 1) = isOpenAt params (fun j => given (j + 1)) i := rfl
  rw [filled, filled, hopen, openBefore_cons, List.getElem?_drop, Nat.add_comm]

theorem fillPositional_nil (slots : List Slot) : fillPositional slots [] = (slots, []) := by
  cases slots <;> rfl

/-- Positional arguments fill the open places in order, if the parameters that take them come first. -/
theorem fillPositional_slotsOf (horder : PositionalFirst params) (given : Nat → Option Ty) (positional : List Ty) :
    fillPositional (slotsOf params given) positional =
      (slotsOf params (filled params given positional),
        positional.drop (openBefore params given params.length)) := by
  induction params generalizing given positional with
  | nil => cases positional <;> rfl
  | cons p params ih =>
      obtain ⟨hfirst, hrest⟩ := List.pairwise_cons.mp horder
      cases positional with
      | nil => rw [filled_nil, List.drop_nil, fillPositional_nil]
      | cons t ts =>
          by_cases hp : p.mode.takesPositional = true
          · have hopen : isOpenAt (p :: params) given 0 = (given 0).isNone := by
              show (p.mode.takesPositional && (given 0).isNone) = _
              rw [hp, Bool.true_and]
            rw [slotsOf_cons, slotsOf_cons, fillPositional, if_pos hp, List.length_cons, openBefore_cons]
            simp only [filled_succ]
            cases hgiven : given 0 with
            | some u =>
                have hopen : isOpenAt (p :: params) given 0 = false := by rw [hopen, hgiven]; rfl
                have hzero : filled (p :: params) given (t :: ts) 0 = some u := by
                  rw [filled, hopen, hgiven]
                  rfl
                simp [ih hrest, hopen, hzero]
            | none =>
                have hopen : isOpenAt (p :: params) given 0 = true := by rw [hopen, hgiven]; rfl
                have hzero : filled (p :: params) given (t :: ts) 0 = some t := by
                  rw [filled, hopen]
                  rfl
                simp [ih hrest, hopen, hzero]
          · have hclosed : ∀ i, isOpenAt (p :: params) given i = false := by
              intro i
              rw [isOpenAt, Bool.and_eq_false_iff, paramAt]
              left
              cases i with
              | zero => simpa using hp
              | succ i =>
                  rw [List.getElem?_cons_succ]
                  cases hq : params[i]? with
                  | none => rfl
                  | some q => exact Bool.eq_false_iff.mpr fun h => hp (hfirst q (List.mem_of_getElem? hq) h)
            have hfilled : filled (p :: params) given (t :: ts) = given := by
              funext i
              rw [filled, hclosed i]
              rfl
            have hnone : openBefore (p :: params) given (p :: params).length = 0 := by
              rw [openBefore, List.length_eq_zero_iff, List.filter_eq_nil_iff]
              intro i _
              simp [hclosed i]
            rw [hfilled, hnone, slotsOf_cons, fillPositional, if_neg hp]
            rfl

/-! ### The complaints -/

theorem getElem?_filter_range {p : Nat → Bool} {n k : Nat} :
    ((List.range n).filter p)[k]? = some i ↔ i < n ∧ p i = true ∧ ((List.range i).filter p).length = k := by
  induction n generalizing k with
  | zero => simp
  | succ n ih =>
      have hlast : ∀ j, ((List.range n).filter p)[j]? = some i → j < ((List.range n).filter p).length :=
        fun j hj => (List.getElem?_eq_some_iff.mp hj).1
      rw [List.range_succ, List.filter_append, List.getElem?_append]
      split
      · next hk =>
        rw [ih]
        constructor
        · rintro ⟨hi, hp, hlen⟩
          exact ⟨by omega, hp, hlen⟩
        · rintro ⟨hi, hp, hlen⟩
          refine ⟨?_, hp, hlen⟩
          by_contra hn
          obtain rfl : i = n := by omega
          omega
      · next hk =>
        have hsingle : ([n].filter p)[k - ((List.range n).filter p).length]? = some i ↔
            p n = true ∧ i = n ∧ k = ((List.range n).filter p).length := by
          by_cases hp : p n = true
          · simp only [List.filter_cons_of_pos hp, List.filter_nil, List.getElem?_singleton]
            split
            · simp only [Option.some.injEq, hp, true_and]
              omega
            · simp
              omega
          · simp [hp]
        rw [hsingle]
        constructor
        · rintro ⟨hp, rfl, hlen⟩
          exact ⟨Nat.lt_succ_self _, hp, hlen.symm⟩
        · rintro ⟨hi, hp, hlen⟩
          by_cases hn : i = n
          · subst hn
            exact ⟨hp, rfl, hlen.symm⟩
          · have := hlast k (ih.mpr ⟨by omega, hp, hlen⟩)
            omega

theorem isOpenAt_namedGiven (params : List Param) (named : List (Text × Ty)) (i : Nat) :
    isOpenAt params (namedGiven params named) i =
      (paramAt params (·.mode.takesPositional) i && !isNamedAt params named i) := by
  rw [isOpenAt, namedGiven, isNamedAt, Option.isNone_map]
  congr 1
  rw [Bool.eq_iff_iff]
  simp

theorem openPlaces_eq (params : List Param) (named : List (Text × Ty)) :
    openPlaces params named = (List.range params.length).filter (isOpenAt params (namedGiven params named)) := by
  rw [openPlaces]
  congr 1
  funext i
  rw [isOpenAt_namedGiven]

theorem getElem?_openPlaces {k : Nat} : (openPlaces params named)[k]? = some i ↔
      isOpenAt params (namedGiven params named) i = true ∧ openBefore params (namedGiven params named) i = k := by
  rw [openPlaces_eq, getElem?_filter_range]
  constructor
  · exact And.right
  · intro h
    refine ⟨?_, h⟩
    obtain ⟨p, hp, -⟩ := paramAt_iff.mp (Bool.and_eq_true_iff.mp h.1).1
    exact (List.getElem?_eq_some_iff.mp hp).1

/-! ### What is received and what is sent -/

section

variable {params : List Param} {named : List (Text × Ty)} {positional : List Ty} {i : Nat} {t : Ty} {p : Param}

/-- What a place has received at the end. -/
def received (params : List Param) (named : List (Text × Ty)) (positional : List Ty) : Nat → Option Ty :=
  filled params (namedGiven params named) positional

theorem sent_of_received (h : received params named positional i = some t) : Sent params named positional i t := by
  rw [received, filled] at h
  split at h
  · next hopen => exact .positional h (getElem?_openPlaces.mpr ⟨hopen, rfl⟩)
  · obtain ⟨name, hmem, hplace⟩ := namedGiven_eq_some h
    exact .named hmem hplace

theorem namedGiven_of_mem (hunique : NamedOnce params named)
    {name : Text} (ht : (name, t) ∈ named) (hplace : placeOf? params name = some i) :
    namedGiven params named i = some t := by
  induction named with
  | nil => cases ht
  | cons a named ih =>
      obtain ⟨hfirst, hrest⟩ := List.pairwise_cons.mp hunique
      rw [namedGiven, List.find?_cons]
      rcases List.mem_cons.mp ht with rfl | ht
      · simp [hplace]
      · have hne : placeOf? params a.1 ≠ some i := by
          intro h
          exact hfirst (name, t) ht (by rw [h]; rfl) (eq_of_placeOf? h hplace)
        rw [beq_false_of_ne hne]
        exact ih hrest ht

theorem received_of_namedGiven (h : namedGiven params named i = some t) :
    received params named positional i = some t := by
  rw [received, filled, isOpenAt, h]
  simp

theorem received_of_sent (hunique : NamedOnce params named)
    (hp : params[i]? = some p) (hvariadic : p.mode.isVariadic = false)
    (h : Sent params named positional i t) : received params named positional i = some t := by
  cases h with
  | named ht hplace => exact received_of_namedGiven (namedGiven_of_mem hunique ht hplace)
  | positional ht hplace =>
      obtain ⟨hopen, rfl⟩ := getElem?_openPlaces.mp hplace
      rw [received, filled, if_pos hopen]
      exact ht
  | surplus _ _ hplace =>
      obtain ⟨q, hq, hmode⟩ := paramAt_iff.mp hplace
      cases hp.symm.trans hq
      rw [eq_of_beq hmode] at hvariadic
      cases hvariadic
  | stray _ _ hplace =>
      obtain ⟨q, hq, hmode⟩ := paramAt_iff.mp hplace
      cases hp.symm.trans hq
      rw [eq_of_beq hmode] at hvariadic
      cases hvariadic

theorem received_variadic (hp : params[i]? = some p) (hvariadic : p.mode.isVariadic = true) :
    received params named positional i = none := by
  have hopen : isOpenAt params (namedGiven params named) i = false := by
    rw [Bool.eq_false_iff]
    intro h
    obtain ⟨q, hq, hmode⟩ := paramAt_iff.mp (Bool.and_eq_true_iff.mp h).1
    cases hp.symm.trans hq
    cases hmode' : p.mode <;> simp [hmode', ParamMode.isVariadic, ParamMode.takesPositional] at hvariadic hmode
  rw [received, filled, hopen]
  cases hgiven : namedGiven params named i with
  | none => simp
  | some t =>
      obtain ⟨name, -, hplace⟩ := namedGiven_eq_some hgiven
      obtain ⟨q, hq, hmode, -⟩ := name_of_placeOf? hplace
      cases hp.symm.trans hq
      cases hmode' : p.mode <;> simp [hmode', ParamMode.isVariadic, ParamMode.takesNamed] at hvariadic hmode

end

/-- The binding of all arguments of a call. -/
theorem bind_spec {params : List Param} (args : List Arg)
    (horder : PositionalFirst params) :
    (bind params args).slots =
      slotsOf params (received params (args.filterMap Arg.named?) (args.flatMap Arg.positionals)) ∧
    (bind params args).surplus =
      (args.flatMap Arg.positionals).drop (openPlaces params (args.filterMap Arg.named?)).length ∧
    (bind params args).strayNamed =
      (args.filterMap Arg.named?).filter (fun a => (placeOf? params a.1).isNone) ∧
    ((bind params args).repeated = [] ↔ NamedOnce params (args.filterMap Arg.named?)) := by
  have hnamed := namedBound_foldl params (args.filterMap Arg.named?)
  have hfill := fillPositional_slotsOf horder (namedGiven params (args.filterMap Arg.named?))
    (args.flatMap Arg.positionals)
  rw [← hnamed.slots] at hfill
  simp only [bind, hfill]
  refine ⟨rfl, ?_, hnamed.stray, hnamed.repeated⟩
  rw [openPlaces_eq]
  rfl

/-! ### The complaints -/

theorem sortedDistinct_eq_nil_iff {names : List Text} : sortedDistinct names = [] ↔ names = [] := by
  constructor
  · intro h
    rcases List.eq_nil_or_concat names with rfl | ⟨names, name, rfl⟩
    · rfl
    · simp only [sortedDistinct, NameSet.ofList, NameMap.ofList, List.concat_eq_append, List.map_append,
        List.map_cons, List.map_nil, List.foldl_append, List.foldl_cons, List.foldl_nil, NameMap.names,
        NameMap.insert, List.map_eq_nil_iff] at h
      unfold NameMap.insertEntry at h
      split at h
      · cases h
      · split at h
        · cases h
        · split at h <;> cases h
  · rintro rfl
    rfl

theorem checkArg_eq_nil_iff {p : Param} {t : Ty} : checkArg p t = [] ↔ t.subtype p.type = true := by
  rw [checkArg]
  split <;> simp_all

theorem mem_drop_iff {α : Type} {xs : List α} {n : Nat} {x : α} :
    x ∈ xs.drop n ↔ ∃ k, n ≤ k ∧ xs[k]? = some x := by
  rw [List.mem_iff_getElem?]
  simp only [List.getElem?_drop]
  constructor
  · rintro ⟨k, hk⟩
    exact ⟨n + k, Nat.le_add_right n k, hk⟩
  · rintro ⟨k, hn, hk⟩
    exact ⟨k - n, by rwa [Nat.add_sub_cancel' hn]⟩

section

variable {params : List Param} {named : List (Text × Ty)} {positional : List Ty}

theorem filter_isMissing_eq_nil_iff
    (hunique : NamedOnce params named) :
    (slotsOf params (received params named positional)).filter (isMissing false false) = [] ↔
      ∀ i p, params[i]? = some p → p.optional = false → p.mode.isVariadic = false →
        ∃ t, Sent params named positional i t := by
  rw [List.filter_eq_nil_iff]
  constructor
  · intro h i p hp hoptional hvariadic
    have hslot := h ⟨p, received params named positional i⟩ (mem_slotsOf.mpr ⟨i, p, hp, rfl⟩)
    cases hreceived : received params named positional i with
    | none => simp [isMissing, hreceived, hoptional, hvariadic] at hslot
    | some t => exact ⟨t, sent_of_received hreceived⟩
  · intro h s hs hmissing
    obtain ⟨i, p, hp, rfl⟩ := mem_slotsOf.mp hs
    simp only [isMissing, Bool.and_eq_true, Bool.not_eq_true', Option.isNone_iff_eq_none, Bool.false_and,
      Bool.not_false, and_true] at hmissing
    obtain ⟨t, ht⟩ := h i p hp hmissing.1.2 hmissing.2
    have := received_of_sent hunique hp hmissing.2 ht
    rw [hmissing.1.1] at this
    cases this

theorem Sent.variadic {i : Nat} {p : Param} {t : Ty} (h : Sent params named positional i t)
    (hp : params[i]? = some p) (hvariadic : p.mode.isVariadic = true) :
    p.mode = .args ∧ t ∈ positional.drop (openPlaces params named).length ∨
      p.mode = .kwargs ∧ ∃ name, (name, t) ∈ named.filter fun a => (placeOf? params a.1).isNone := by
  cases h with
  | named ht hplace =>
      obtain ⟨q, hq, hmode, -⟩ := name_of_placeOf? hplace
      cases hp.symm.trans hq
      cases hmode' : p.mode <;> simp [hmode', ParamMode.isVariadic, ParamMode.takesNamed] at hvariadic hmode
  | positional ht hplace =>
      obtain ⟨q, hq, hmode⟩ := paramAt_iff.mp (Bool.and_eq_true_iff.mp (getElem?_openPlaces.mp hplace).1).1
      cases hp.symm.trans hq
      cases hmode' : p.mode <;> simp [hmode', ParamMode.isVariadic, ParamMode.takesPositional] at hvariadic hmode
  | @surplus k _ _ ht hk hplace =>
      obtain ⟨q, hq, hmode⟩ := paramAt_iff.mp hplace
      cases hp.symm.trans hq
      exact Or.inl ⟨eq_of_beq hmode, mem_drop_iff.mpr ⟨k, hk, ht⟩⟩
  | @stray name _ _ ht hname hplace =>
      obtain ⟨q, hq, hmode⟩ := paramAt_iff.mp hplace
      cases hp.symm.trans hq
      exact Or.inr ⟨eq_of_beq hmode, name, List.mem_filter.mpr ⟨ht, by rw [hname]; rfl⟩⟩

theorem checkSlot_eq_nil_iff (hunique : NamedOnce params named)
    {b : Binding} (hsurplus : b.surplus = positional.drop (openPlaces params named).length)
    (hstray : b.strayNamed = named.filter fun a => (placeOf? params a.1).isNone) {i : Nat} {p : Param}
    (hp : params[i]? = some p) :
    checkSlot b ⟨p, received params named positional i⟩ = [] ↔
      ∀ t, Sent params named positional i t → t.subtype p.type = true := by
  cases hvariadic : p.mode.isVariadic with
  | false =>
      have hsent : ∀ t, Sent params named positional i t ↔ received params named positional i = some t :=
        fun t => ⟨received_of_sent hunique hp hvariadic, sent_of_received⟩
      simp only [hsent]
      cases hreceived : received params named positional i with
      | some t => simp [checkSlot, checkArg_eq_nil_iff]
      | none => cases hmode : p.mode <;> simp [hmode, checkSlot, ParamMode.isVariadic] at hvariadic ⊢
  | true =>
      rw [received_variadic hp hvariadic]
      have hplace : ∀ mode, p.mode = mode → paramAt params (·.mode == mode) i = true := fun mode hmode =>
        paramAt_iff.mpr ⟨p, hp, beq_iff_eq.mpr hmode⟩
      cases hmode : p.mode with
      | args =>
          simp only [checkSlot, hmode, hsurplus, List.flatMap_eq_nil_iff, checkArg_eq_nil_iff]
          constructor
          · intro h t ht
            rcases ht.variadic hp hvariadic with ⟨-, ht⟩ | ⟨hkwargs, -⟩
            · exact h t ht
            · rw [hmode] at hkwargs
              cases hkwargs
          · intro h t ht
            obtain ⟨k, hk, ht⟩ := mem_drop_iff.mp ht
            exact h t (.surplus ht hk (hplace _ hmode))
      | kwargs =>
          simp only [checkSlot, hmode, hstray, List.flatMap_eq_nil_iff, checkArg_eq_nil_iff, mem_sortByName]
          constructor
          · intro h t ht
            rcases ht.variadic hp hvariadic with ⟨hargs, -⟩ | ⟨-, name, ht⟩
            · rw [hmode] at hargs
              cases hargs
            · exact h (name, t) ht
          · rintro h ⟨name, t⟩ ht
            obtain ⟨ht, hname⟩ := List.mem_filter.mp ht
            exact h t (.stray ht (Option.isNone_iff_eq_none.mp hname) (hplace _ hmode))
      | posOnly | posOrNamed | namedOnly => simp [hmode, ParamMode.isVariadic] at hvariadic

end

theorem ite_singleton_eq_nil_iff {c : Bool} {e : TypingError} : (if c then [e] else []) = [] ↔ c = false := by
  cases c <;> simp

/-- There is nothing to say about a call without spread dictionaries and spread sequences of unknown length
if and only if it is well bound. -/
theorem problems_eq_nil_iff {params : List Param} {args : List Arg}
    (horder : PositionalFirst params)
    (hsplat : args.any Arg.isOpenSplat = false) (hdouble : args.any Arg.isDoubleSplat = false) :
    problems params args = [] ↔
      WellBound params (args.filterMap Arg.named?) (args.flatMap Arg.positionals) := by
  obtain ⟨hslots, hsurplus, hstray, hrepeated⟩ := bind_spec args horder
  have hstrayed : ∀ c : Bool, (if c then [] else (sortedDistinct ((bind params args).strayNamed.map (·.1))).map
      unexpected) = [] ↔ ∀ a ∈ args.filterMap Arg.named?, placeOf? params a.1 = none → c = true := by
    intro c
    cases c with
    | true => simp
    | false =>
        rw [if_neg Bool.false_ne_true, List.map_eq_nil_iff, sortedDistinct_eq_nil_iff, List.map_eq_nil_iff, hstray,
          List.filter_eq_nil_iff]
        simp
  simp only [problems, hsplat, hdouble, List.append_eq_nil_iff, ite_singleton_eq_nil_iff, hstrayed,
    List.map_eq_nil_iff, sortedDistinct_eq_nil_iff]
  have hoverflow : (!(bind params args).surplus.isEmpty && !hasMode params .args && !false) = false ↔
      (args.flatMap Arg.positionals).length ≤ (openPlaces params (args.filterMap Arg.named?)).length ∨
        hasMode params .args = true := by
    rw [hsurplus]
    cases hasMode params .args <;> simp
  have htyped : (bind params args).repeated = [] →
      ((bind params args).slots.flatMap (checkSlot (bind params args)) = [] ↔ ∀ i p t, params[i]? = some p →
        Sent params (args.filterMap Arg.named?) (args.flatMap Arg.positionals) i t → t.subtype p.type = true) := by
    intro hunique
    rw [hslots, List.flatMap_eq_nil_iff]
    have hslot := fun i p (hp : params[i]? = some p) =>
      checkSlot_eq_nil_iff (hrepeated.mp hunique) hsurplus hstray hp
    constructor
    · intro h i p t hp
      exact (hslot i p hp).mp (h _ (mem_slotsOf.mpr ⟨i, p, hp, rfl⟩)) t
    · intro h s hs
      obtain ⟨i, p, hp, rfl⟩ := mem_slotsOf.mp hs
      exact (hslot i p hp).mpr fun t => h i p t hp
  rw [hoverflow]
  constructor
  · rintro ⟨⟨⟨⟨hfitting, hknown⟩, hunique⟩, hcomplete⟩, hslots'⟩
    rw [hslots] at hcomplete
    exact ⟨hrepeated.mp hunique, hknown, hfitting,
      (filter_isMissing_eq_nil_iff (hrepeated.mp hunique)).mp hcomplete, (htyped hunique).mp hslots'⟩
  · intro h
    have hunique := hrepeated.mpr h.unique
    refine ⟨⟨⟨⟨h.fitting, h.known⟩, hunique⟩, ?_⟩, (htyped hunique).mpr h.typed⟩
    rw [hslots]
    exact (filter_isMissing_eq_nil_iff h.unique).mpr h.complete

end Call

/-! ### Signatures -/

namespace Signature

theorem rank_le_of_firstFault {params : List Param} {last : ParamMode} {seen : List Text}
    (h : firstFault last seen params = none) :
    (∀ p ∈ params, last.rank ≤ p.mode.rank) ∧ params.Pairwise fun p q => p.mode.rank ≤ q.mode.rank := by
  induction params generalizing last seen with
  | nil => exact ⟨fun _ hp => (List.not_mem_nil hp).elim, List.Pairwise.nil⟩
  | cons p params ih =>
      rw [firstFault] at h
      cases hfault : faultOf last seen p with
      | some e => rw [hfault] at h; cases h
      | none =>
          rw [hfault] at h
          obtain ⟨hall, hpairwise⟩ := ih h
          have hle : last.rank ≤ p.mode.rank := by
            unfold faultOf at hfault
            split at hfault
            · cases hfault
            · omega
          refine ⟨List.forall_mem_cons.mpr ⟨hle, fun q hq => ?_⟩, List.pairwise_cons.mpr ⟨hall, hpairwise⟩⟩
          exact Nat.le_trans hle (hall q hq)

theorem takesPositional_iff {m : ParamMode} : m.takesPositional = true ↔ m.rank ≤ 1 := by
  cases m <;> decide

theorem order_of_make {params : List Param} {result : Ty} {sig : Signature} (h : make params result = .ok sig) :
    sig.result = result ∧ Call.PositionalFirst sig.params := by
  rw [make] at h
  split at h
  · cases h
  · next hfault =>
    cases h
    refine ⟨rfl, List.pairwise_map.mpr ?_⟩
    refine (rank_le_of_firstFault hfault).2.imp fun hle hq => ?_
    exact takesPositional_iff.mpr (Nat.le_trans hle (takesPositional_iff.mp hq))

theorem filterMap_named_expand (args : List Arg) :
    (args.flatMap Arg.expand).filterMap Arg.named? = args.filterMap Arg.named? := by
  induction args with
  | nil => rfl
  | cons a args ih =>
      rw [List.flatMap_cons, List.filterMap_append, ih]
      cases a with
      | splat t =>
          have hnone : ((t.fixedTuple?.getD []).map Arg.positional).filterMap Arg.named? = [] := by
            simp [List.filterMap_map, Function.comp_def, Arg.named?]
          simp [Arg.expand, hnone, List.filterMap_cons, Arg.named?]
      | positional | named | doubleSplat => simp [Arg.expand, List.filterMap_cons, Arg.named?]

theorem filterMap_positional_expand (args : List Arg) :
    (args.flatMap Arg.expand).filterMap Arg.positional? = args.flatMap Arg.positionals := by
  induction args with
  | nil => rfl
  | cons a args ih =>
      rw [List.flatMap_cons, List.filterMap_append, ih, List.flatMap_cons]
      cases a with
      | splat t =>
          have hall : ((t.fixedTuple?.getD []).map Arg.positional).filterMap Arg.positional? =
              t.fixedTuple?.getD [] := by
            simp [List.filterMap_map, Function.comp_def, Arg.positional?]
          simp [Arg.expand, hall, Arg.positionals]
      | positional | named | doubleSplat => simp [Arg.expand, Arg.positional?, Arg.positionals]

/-- Matching a call gives the declared result, and it gives no problems if and only if the call is well
bound, as far as it spreads no dictionaries and only sequences of known length. -/
theorem matchCall_wellBound {params : List Param} {result : Ty} {sig : Signature}
    (hsig : make params result = .ok sig) (args : List Arg) :
    (matchCall (some sig) args).1 = result ∧
    ((∀ t, .doubleSplat t ∉ args) → (∀ t, .splat t ∈ args → t.fixedTuple?.isSome = true) →
      ((matchCall (some sig) args).2 = [] ↔
        Call.WellBound sig.params ((args.flatMap Arg.expand).filterMap Arg.named?)
          ((args.flatMap Arg.expand).filterMap Arg.positional?))) := by
  obtain ⟨hresult, horder⟩ := order_of_make hsig
  refine ⟨hresult, fun hdouble hsplat => ?_⟩
  rw [filterMap_named_expand, filterMap_positional_expand]
  refine Call.problems_eq_nil_iff horder (List.any_eq_false.mpr fun a ha => ?_)
    (List.any_eq_false.mpr fun a ha => ?_)
  · cases a with
    | splat t => simp [Arg.isOpenSplat, Option.isSome_iff_ne_none.mp (hsplat t ha)]
    | positional | named | doubleSplat => exact Bool.false_ne_true
  · cases a with
    | doubleSplat t => exact absurd ha (hdouble t)
    | positional | named | splat => exact Bool.false_ne_true

/-- A call that spreads a pair and names a parameter out of turn: the named one is passed over, and the
rest goes to the collectors. -/
theorem matchCall_wellBound_spread :
    Call.WellBound
      [.required "a" .int, .required "b" .str, .optionally "c" .any, .args "rest" .int, .namedOnly "k" .bool false,
        .kwargs "more" .str]
      [("b", .str), ("z", .str), ("k", .bool)] [.int, .none, .int] := by
  have hsig : make [.required "a" .int, .required "b" .str, .optionally "c" .any, .args "rest" .int,
      .namedOnly "k" .bool false, .kwargs "more" .str] .none = .ok ⟨_, .none⟩ := rfl
  refine ((matchCall_wellBound hsig
    [.named "b" .str, .splat (.tuple [.int, .none]), .named "z" .str, .positional .int, .named "k" .bool]).2
    ?_ ?_).mp ?_
  · intro t ht
    simp at ht
  · intro t ht
    simp only [List.mem_cons, reduceCtorEq, Arg.splat.injEq, false_or, List.not_mem_nil, or_false] at ht
    rw [ht]
    rfl
  · exact List.isEmpty_iff.mp (by decide +kernel)

end Signature

end Gradual
