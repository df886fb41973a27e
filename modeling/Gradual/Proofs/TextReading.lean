import Gradual.Text.Bytes

/-! Reading texts from their beginning. Two texts with something after them can be equal only if they are
equal up to there, provided that what comes after cannot be a part of them. Names, joined lists and
bracketed lists are read in this way. -/

namespace Gradual

namespace Text

variable {stop : Char → Bool} {c : Char} {r : List Char} {x y : Text}

/-- Whether a character can stand in a name. -/
def isNameChar (c : Char) : Bool := c.isAlphanum || c == '_'

/-- Whether a text is a name: a non-empty run of ASCII letters, digits and underscores. -/
def isName (t : Text) : Bool := !t.toList.isEmpty && t.toList.all isNameChar

/-- What is left of a text ends here, or goes on with a character of `stop`. -/
def Follows (stop : Char → Bool) (r : List Char) : Prop := ∀ c ∈ r.head?, stop c = true

/-- Two texts that come before the end or a character of `stop` are told apart by what stands there. -/
def Separable (stop : Char → Bool) (x y : Text) : Prop :=
  ∀ r s : List Char, Follows stop r → Follows stop s → x.toList ++ r = y.toList ++ s → x = y ∧ r = s

theorem follows_nil (stop : Char → Bool) : Follows stop [] := by
  intro c hc
  cases hc

theorem follows_cons (h : stop c = true) : Follows stop (c :: r) := by
  intro d hd
  cases hd
  exact h

theorem Follows.mono {stop' : Char → Bool} (hstop : ∀ c, stop c = true → stop' c = true) (h : Follows stop r) :
    Follows stop' r :=
  fun c hc => hstop c (h c hc)

theorem run_append_inj {p : Char → Bool} {n m s : List Char} (hn : n.all p = true) (hm : m.all p = true)
    (hr : Follows (fun c => !p c) r) (hs : Follows (fun c => !p c) s) (h : n ++ r = m ++ s) : n = m ∧ r = s := by
  induction n generalizing m with
  | nil =>
      cases m with
      | nil => exact ⟨rfl, h⟩
      | cons c m =>
          simp only [List.nil_append, List.cons_append] at h
          have hc : (!p c) = true := hr c (by rw [h]; rfl)
          rw [List.all_cons, Bool.and_eq_true] at hm
          rw [hm.1] at hc
          cases hc
  | cons c n ih =>
      rw [List.all_cons, Bool.and_eq_true] at hn
      cases m with
      | nil =>
          simp only [List.nil_append, List.cons_append] at h
          have hc : (!p c) = true := hs c (by rw [← h]; rfl)
          rw [hn.1] at hc
          cases hc
      | cons d m =>
          rw [List.all_cons, Bool.and_eq_true] at hm
          simp only [List.cons_append, List.cons.injEq] at h
          obtain ⟨rfl, h⟩ := h
          obtain ⟨rfl, hrest⟩ := ih hn.2 hm.2 h
          exact ⟨rfl, hrest⟩

theorem toList_join_cons_cons (separator x y : Text) (rest : List Text) :
    (join separator (x :: y :: rest)).toList =
      x.toList ++ separator.toList ++ (join separator (y :: rest)).toList := by
  rw [join, String.toList_append, String.toList_append]
  simp

theorem join_append_inj {separator : Text} {tail : List Char} (hseparator : separator.toList = c :: tail)
    (hc : stop c = true) {xs ys : List Text} {s : List Char} (hitems : ∀ x ∈ xs, ∀ y ∈ ys, Separable stop x y)
    (hxs : xs ≠ []) (hys : ys ≠ []) (hr : Follows stop r) (hs : Follows stop s) (hr' : ¬separator.toList <+: r)
    (hs' : ¬separator.toList <+: s) (h : (join separator xs).toList ++ r = (join separator ys).toList ++ s) :
    xs = ys ∧ r = s := by
  have hsep : ∀ q : List Char, Follows stop (separator.toList ++ q) := by
    intro q
    rw [hseparator]
    exact follows_cons hc
  induction xs generalizing ys with
  | nil => exact absurd rfl hxs
  | cons x xs ih =>
      cases ys with
      | nil => exact absurd rfl hys
      | cons y ys =>
          have hxy := hitems x List.mem_cons_self y List.mem_cons_self
          cases xs with
          | nil =>
              cases ys with
              | nil =>
                  obtain ⟨heq, hrest⟩ := hxy r s hr hs h
                  exact ⟨by rw [heq], hrest⟩
              | cons y' ys =>
                  rw [toList_join_cons_cons] at h
                  simp only [join, List.append_assoc] at h
                  exact absurd ⟨_, (hxy r _ hr (hsep _) h).2.symm⟩ hr'
          | cons x' xs =>
              cases ys with
              | nil =>
                  rw [toList_join_cons_cons] at h
                  simp only [join, List.append_assoc] at h
                  exact absurd ⟨_, (hxy _ s (hsep _) hs h).2⟩ hs'
              | cons y' ys =>
                  simp only [toList_join_cons_cons, List.append_assoc] at h
                  obtain ⟨heq, htail⟩ := hxy _ _ (hsep _) (hsep _) h
                  obtain ⟨hrest, hend⟩ := @ih (y' :: ys)
                    (fun z hz w hw => hitems z (List.mem_cons_of_mem x hz) w (List.mem_cons_of_mem y hw))
                    (List.cons_ne_nil _ _) (List.cons_ne_nil _ _) (List.append_cancel_left htail)
                  exact ⟨by rw [heq, hrest], hend⟩

theorem separable_refl (stop : Char → Bool) (x : Text) : Separable stop x x :=
  fun _ _ _ _ h => ⟨rfl, List.append_cancel_left h⟩

theorem Separable.symm (h : Separable stop x y) : Separable stop y x := by
  intro r s hr hs heq
  obtain ⟨hxy, hrest⟩ := h s r hs hr heq.symm
  exact ⟨hxy.symm, hrest.symm⟩

theorem separable_of_head_ne {d : Char} {x' y' : List Char} (hx : x.toList = c :: x') (hy : y.toList = d :: y')
    (hne : c ≠ d) : Separable stop x y := by
  intro r s _ _ h
  rw [hx, hy] at h
  exact absurd (List.cons.inj h).1 hne

/-- What ends the text of an alternative. -/
def afterAlt (c : Char) : Bool := c == ' ' || c == ',' || c == ']' || c == ')'

/-- What ends the text of a type. -/
def afterTy (c : Char) : Bool := c == ',' || c == ']' || c == ')'

theorem afterAlt_of_afterTy (h : afterTy c = true) : afterAlt c = true ∧ c ≠ ' ' := by
  simp only [afterTy, Bool.or_eq_true, beq_iff_eq] at h
  rcases h with (rfl | rfl) | rfl <;> decide

theorem not_isNameChar_of_afterAlt (h : afterAlt c = true) : (!isNameChar c) = true := by
  simp only [afterAlt, Bool.or_eq_true, beq_iff_eq] at h
  rcases h with ((rfl | rfl) | rfl) | rfl <;> decide

/-- What ends the text of a type: something that ends an alternative, and no bar with another one. -/
structure EndsTy (r : List Char) : Prop where
  follows : Follows afterAlt r
  no_bar : ¬" | ".toList <+: r

theorem endsTy_of_follows (h : Follows afterTy r) : EndsTy r where
  follows := h.mono fun _ hc => (afterAlt_of_afterTy hc).1
  no_bar := by
    rintro ⟨q, rfl⟩
    exact (afterAlt_of_afterTy (h ' ' rfl)).2 rfl

/-- A text that begins like a name. -/
def StartsName (x : Text) : Prop := ∃ c r, x.toList = c :: r ∧ isNameChar c = true

theorem StartsName.separable (hx : StartsName x) (hy : y.toList = c :: r) (hc : isNameChar c = false) :
    Separable stop x y := by
  obtain ⟨d, q, hd, hname⟩ := hx
  refine separable_of_head_ne hd hy ?_
  rintro rfl
  rw [hc] at hname
  cases hname

theorem toList_of_isName (h : isName x = true) : x.toList ≠ [] ∧ x.toList.all isNameChar = true := by
  rw [isName, Bool.and_eq_true, Bool.not_eq_true', List.isEmpty_eq_false_iff] at h
  exact h

theorem startsName_of_isName (h : isName x = true) : StartsName x := by
  obtain ⟨hne, hall⟩ := toList_of_isName h
  obtain ⟨c, r, hx⟩ := List.exists_cons_of_ne_nil hne
  rw [hx, List.all_cons, Bool.and_eq_true] at hall
  exact ⟨c, r, hx, hall.1⟩

theorem StartsName.append (h : StartsName x) (hy : y.toList = x.toList ++ r) : StartsName y := by
  obtain ⟨c, q, hx, hc⟩ := h
  exact ⟨c, q ++ r, by rw [hy, hx, List.cons_append], hc⟩

/-- A text that begins, and not with a given character. -/
def BeginsOtherThan (close : Char) (x : Text) : Prop := ∃ c r, x.toList = c :: r ∧ c ≠ close

theorem StartsName.beginsOtherThan {close : Char} (h : StartsName x) (hclose : isNameChar close = false) :
    BeginsOtherThan close x := by
  obtain ⟨c, r, hx, hc⟩ := h
  refine ⟨c, r, hx, ?_⟩
  rintro rfl
  rw [hclose] at hc
  cases hc

theorem bracketed_append_inj {close : Char} (hclose : close = ']' ∨ close = ')') {xs ys : List Text}
    (hitems : ∀ x ∈ xs, ∀ y ∈ ys, Separable afterTy x y) (hxs : ∀ x ∈ xs, BeginsOtherThan close x)
    (hys : ∀ y ∈ ys, BeginsOtherThan close y) {r s : List Char}
    (h : (join ", " xs).toList ++ close :: r = (join ", " ys).toList ++ close :: s) : xs = ys ∧ r = s := by
  -- An item never begins with the closing bracket, so that an empty list is told apart as well.
  have hhead : ∀ {zs : List Text} {q q' : List Char}, zs ≠ [] → (∀ z ∈ zs, BeginsOtherThan close z) →
      (join ", " zs).toList ++ q ≠ close :: q' := by
    intro zs q q' hne hzs heq
    obtain ⟨z, rest, rfl⟩ := List.exists_cons_of_ne_nil hne
    obtain ⟨c, w, hz, hcne⟩ := hzs z List.mem_cons_self
    cases rest with
    | nil =>
        rw [join, hz, List.cons_append] at heq
        exact hcne (List.cons.inj heq).1
    | cons y rest =>
        rw [toList_join_cons_cons, hz] at heq
        simp only [List.cons_append] at heq
        exact hcne (List.cons.inj heq).1
  have hfollows : ∀ q : List Char, Follows afterTy (close :: q) := by
    intro q
    rcases hclose with rfl | rfl <;> exact follows_cons rfl
  have hno_comma : ∀ q : List Char, ¬", ".toList <+: close :: q := by
    rintro q ⟨q', hq⟩
    rcases hclose with rfl | rfl <;> cases hq
  by_cases hx : xs = []
  · by_cases hy : ys = []
    · subst hx hy
      exact ⟨rfl, (List.cons.inj h).2⟩
    · subst hx
      exact absurd h.symm (hhead hy hys)
  · by_cases hy : ys = []
    · subst hy
      exact absurd h (hhead hx hxs)
    · have hseparator : ", ".toList = ',' :: [' '] := rfl
      obtain ⟨heq, hrest⟩ := join_append_inj hseparator rfl hitems hx hy (hfollows _) (hfollows _) (hno_comma _)
        (hno_comma _) h
      exact ⟨heq, (List.cons.inj hrest).2⟩

end Text

end Gradual
