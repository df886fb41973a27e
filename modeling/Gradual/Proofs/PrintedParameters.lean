import Gradual.Proofs.TextReading
import Gradual.Ty.Text

/-! The text of a parameter list determines the parameters, if these stand in order and their types can be
told apart. A slash and a star divide the list by mode: what goes before the slash is positional-only, and
what comes after a star, with or without a name, is named-only. Out of order, parameters of different
modes can have the same text. -/

namespace Gradual

/-- The texts of two types are told apart by what follows them. What follows a union must not look like one
more alternative, unless neither type is a union. -/
structure Ty.Apart (t u : Ty) : Prop where
  ends : ∀ r s : List Char, Text.EndsTy r → Text.EndsTy s → t.text.toList ++ r = u.text.toList ++ s →
    t = u ∧ r = s
  brief : t.alts.length ≤ 1 → u.alts.length ≤ 1 → ∀ r s : List Char, Text.Follows Text.afterAlt r →
    Text.Follows Text.afterAlt s → t.text.toList ++ r = u.text.toList ++ s → t = u ∧ r = s

namespace Param

variable {r s : List Char} {p q : Param} {x : Text} {a b : Bool} {params ps qs : List Param}

/-- What stands after the type of a parameter. -/
def ending (p : Param) : List Char := if p.optional then " = ...".toList else []

/-- The text of a parameter after its stars and its name. -/
def rest (p : Param) : List Char := ':' :: ' ' :: (p.type.text.toList ++ p.ending)

theorem toList_text (p : Param) : p.text.toList = p.mode.stars.toList ++ (p.name.toList ++ p.rest) := by
  obtain ⟨mode, name, type, optional⟩ := p
  cases optional <;> simp [text, rest, ending, String.toList_append]

theorem endsTy_ending (p : Param) (hr : Text.Follows Text.afterTy r) : Text.EndsTy (p.ending ++ r) := by
  rw [ending]
  split
  · refine ⟨Text.follows_cons rfl, ?_⟩
    rintro ⟨q, hq⟩
    exact absurd (List.cons.inj (List.cons.inj hq).2).1 (by decide)
  · exact Text.endsTy_of_follows hr

theorem ending_append_inj (hr : Text.Follows Text.afterTy r) (hs : Text.Follows Text.afterTy s)
    (h : p.ending ++ r = q.ending ++ s) : p.optional = q.optional ∧ r = s := by
  have hblank : ∀ {w w' : List Char}, Text.Follows Text.afterTy w → " = ...".toList ++ w' ≠ w := by
    rintro w w' hw rfl
    exact (Text.afterAlt_of_afterTy (hw ' ' rfl)).2 rfl
  rw [ending, ending] at h
  cases hp : p.optional <;> cases hq : q.optional <;> simp only [hp, hq, if_true, Bool.false_eq_true, if_false] at h
  · exact ⟨rfl, h⟩
  · exact absurd h.symm (hblank hr)
  · exact absurd h (hblank hs)
  · exact ⟨rfl, List.append_cancel_left h⟩

theorem stars_append_inj {y : Text} (hx : x.toList.all (· == '*') = true) (hy : y.toList.all (· == '*') = true)
    (hr : Text.Follows (fun c => !(c == '*')) r) (hs : Text.Follows (fun c => !(c == '*')) s)
    (h : x.toList ++ r = y.toList ++ s) : x = y ∧ r = s := by
  obtain ⟨heq, hrest⟩ := Text.run_append_inj hx hy hr hs h
  exact ⟨String.toList_injective heq, hrest⟩

theorem all_stars (m : ParamMode) : m.stars.toList.all (· == '*') = true := by
  cases m <;> decide

theorem follows_name (h : Text.isName x = true) (r : List Char) :
    Text.Follows (fun c => !(c == '*')) (x.toList ++ r) := by
  obtain ⟨c, q, hname, hc⟩ := Text.startsName_of_isName h
  rw [hname]
  refine Text.follows_cons ?_
  rw [Bool.not_eq_true', beq_eq_false_iff_ne]
  rintro rfl
  cases hc

theorem text_append_inj (hp : Text.isName p.name = true) (hq : Text.isName q.name = true)
    (htype : p.type.Apart q.type) (hr : Text.Follows Text.afterTy r) (hs : Text.Follows Text.afterTy s)
    (h : p.text.toList ++ r = q.text.toList ++ s) :
    (p.mode.stars = q.mode.stars ∧ p = { q with mode := p.mode }) ∧ r = s := by
  simp only [toList_text, rest, List.append_assoc, List.cons_append] at h
  obtain ⟨hstars, h⟩ := stars_append_inj (all_stars _) (all_stars _) (follows_name hp _) (follows_name hq _) h
  have hcolon : ∀ w : List Char, Text.Follows (fun c => !Text.isNameChar c) (':' :: w) :=
    fun w => Text.follows_cons rfl
  obtain ⟨hname, h⟩ := Text.run_append_inj (Text.toList_of_isName hp).2 (Text.toList_of_isName hq).2
    (hcolon _) (hcolon _) h
  simp only [List.cons.injEq, true_and] at h
  obtain ⟨htype, h⟩ := htype.ends _ _ (endsTy_ending p hr) (endsTy_ending q hs) h
  obtain ⟨hoptional, h⟩ := ending_append_inj hr hs h
  refine ⟨⟨hstars, ?_⟩, h⟩
  obtain ⟨mode, name, type, optional⟩ := p
  obtain ⟨mode', name', type', optional'⟩ := q
  cases String.toList_injective hname
  cases htype
  cases hoptional
  rfl

theorem eq_of_text_eq (hp : Text.isName p.name = true) (hq : Text.isName q.name = true)
    (htype : p.type.Apart q.type) (hmode : p.mode = q.mode) (h : p.text = q.text) : p = q := by
  have hread := text_append_inj hp hq htype (Text.follows_nil _) (Text.follows_nil _) (congrArg (·.toList ++ []) h)
  rw [hread.1.2, hmode]
  cases q
  rfl

theorem text_eq_of_stars (hstars : p.mode.stars = q.mode.stars) (h : p = { q with mode := p.mode }) :
    p.text = q.text := by
  obtain ⟨mode, name, type, optional⟩ := p
  obtain ⟨mode', name', type', optional'⟩ := q
  cases h
  simp only [text]
  rw [hstars]

/-! ### The parts of a parameter list -/

theorem mem_parts (h : x ∈ parts a b params) : x = "/" ∨ x = "*" ∨ ∃ p ∈ params, x = p.text := by
  induction params generalizing a b with
  | nil =>
      rw [parts] at h
      split at h
      · exact Or.inl (List.mem_singleton.mp h)
      · cases h
  | cons p params ih =>
      rw [parts, List.append_assoc, List.mem_append, List.mem_append] at h
      rcases h with h | h | h
      · split at h
        · exact Or.inl (List.mem_singleton.mp h)
        · cases h
      · split at h
        · exact Or.inr (Or.inl (List.mem_singleton.mp h))
        · cases h
      · rcases List.mem_cons.mp h with rfl | h
        · exact Or.inr (Or.inr ⟨p, List.mem_cons_self, rfl⟩)
        · rcases ih h with h | h | ⟨q, hq, h⟩
          · exact Or.inl h
          · exact Or.inr (Or.inl h)
          · exact Or.inr (Or.inr ⟨q, List.mem_cons_of_mem p hq, h⟩)

theorem beginsOtherThan_text (h : Text.isName p.name = true) {c : Char} (hname : Text.isNameChar c = false)
    (hstar : '*' ≠ c) : Text.BeginsOtherThan c p.text := by
  have htext := toList_text p
  cases hstars : p.mode.stars.toList with
  | nil =>
      rw [hstars, List.nil_append] at htext
      exact ((Text.startsName_of_isName h).append htext).beginsOtherThan hname
  | cons d q =>
      have hall := all_stars p.mode
      rw [hstars, List.all_cons, Bool.and_eq_true] at hall
      cases eq_of_beq hall.1
      rw [hstars, List.cons_append] at htext
      exact ⟨'*', _, htext, hstar⟩

theorem slash_ne_text (h : Text.isName p.name = true) : "/" ≠ p.text := by
  intro heq
  obtain ⟨c, r, htext, hc⟩ := beginsOtherThan_text h (c := '/') rfl (by decide)
  rw [← heq] at htext
  cases htext
  exact hc rfl

theorem star_append_ne (h : Text.isName p.name = true) (hr : Text.Follows Text.afterTy r) :
    "*".toList ++ r ≠ p.text.toList ++ s := by
  intro heq
  have hafter := hr.mono fun c hc => Text.not_isNameChar_of_afterAlt (Text.afterAlt_of_afterTy hc).1
  have hrstar : Text.Follows (fun c => !(c == '*')) r := by
    refine hr.mono fun c hc => ?_
    rw [Bool.not_eq_true', beq_eq_false_iff_ne]
    rintro rfl
    cases hc
  rw [toList_text, List.append_assoc, List.append_assoc] at heq
  obtain ⟨-, hrest⟩ := stars_append_inj (by decide) (all_stars _) hrstar (follows_name h _) heq
  obtain ⟨c, q, hname, hc⟩ := Text.startsName_of_isName h
  rw [hrest, hname] at hafter
  have hnot := hafter c rfl
  simp only [hc, Bool.not_true, Bool.false_eq_true] at hnot

theorem star_ne_text (h : Text.isName p.name = true) : "*" ≠ p.text := by
  intro heq
  exact star_append_ne h (r := []) (s := []) (Text.follows_nil _) (by rw [heq])

theorem parts_separable (hps : ∀ p ∈ ps, Text.isName p.name = true) (hqs : ∀ q ∈ qs, Text.isName q.name = true)
    (htypes : ∀ p ∈ ps, ∀ q ∈ qs, p.type.Apart q.type) {a' b' : Bool} {y : Text} (hx : x ∈ parts a b ps)
    (hy : y ∈ parts a' b' qs) : Text.Separable Text.afterTy x y := by
  have hslash : ∀ {p : Param}, Text.isName p.name = true → Text.Separable Text.afterTy "/" p.text := by
    intro p hp
    obtain ⟨c, r, htext, hc⟩ := beginsOtherThan_text hp (c := '/') rfl (by decide)
    exact Text.separable_of_head_ne (c := '/') rfl htext hc.symm
  have hstar : ∀ {p : Param}, Text.isName p.name = true → Text.Separable Text.afterTy "*" p.text :=
    fun hp r s hr _ h => absurd h (star_append_ne hp hr)
  have hmarks : Text.Separable Text.afterTy "/" "*" :=
    Text.separable_of_head_ne (c := '/') (d := '*') rfl rfl (by decide)
  rcases mem_parts hx with rfl | rfl | ⟨p, hp, rfl⟩ <;> rcases mem_parts hy with rfl | rfl | ⟨q, hq, rfl⟩
  · exact Text.separable_refl _ _
  · exact hmarks
  · exact hslash (hqs q hq)
  · exact hmarks.symm
  · exact Text.separable_refl _ _
  · exact hstar (hqs q hq)
  · exact (hslash (hps p hp)).symm
  · exact (hstar (hps p hp)).symm
  · intro r s hr hs h
    obtain ⟨⟨hstars, hpq⟩, hend⟩ := text_append_inj (hps p hp) (hqs q hq) (htypes p hp q hq) hr hs h
    exact ⟨text_eq_of_stars hstars hpq, hend⟩

theorem slash_mem_parts (b : Bool) (params : List Param) : "/" ∈ parts true b params := by
  induction params generalizing b with
  | nil => exact List.mem_singleton.mpr rfl
  | cons p params ih =>
      rw [parts]
      cases hmode : p.mode == .posOnly with
      | true => exact List.mem_append_right _ (List.mem_cons_of_mem _ (ih _))
      | false =>
          refine List.mem_append_left _ (List.mem_append_left _ ?_)
          rw [bne, hmode]
          exact List.mem_singleton.mpr rfl

theorem slash_not_mem_parts (hnames : ∀ p ∈ params, Text.isName p.name = true) (h : ∀ p ∈ params, p.mode ≠ .posOnly) :
    "/" ∉ parts false b params := by
  induction params generalizing b with
  | nil => exact List.not_mem_nil
  | cons p params ih =>
      have hmode : (p.mode == .posOnly) = false := beq_false_of_ne (h p List.mem_cons_self)
      rw [parts, hmode]
      intro hmem
      rcases List.mem_append.mp hmem with hmem | hmem
      · rw [Bool.false_and, if_neg Bool.false_ne_true, List.nil_append] at hmem
        split at hmem
        · exact absurd (List.mem_singleton.mp hmem) (by decide)
        · cases hmem
      · rcases List.mem_cons.mp hmem with heq | hmem
        · exact slash_ne_text (hnames p List.mem_cons_self) heq
        · exact ih (fun q hq => hnames q (List.mem_cons_of_mem p hq)) (fun q hq => h q (List.mem_cons_of_mem p hq)) hmem

/-! ### Reading a parameter list -/

/-- Parameters stand in the order of their modes. -/
def Ordered (params : List Param) : Prop := params.Pairwise fun p q => p.mode.rank ≤ q.mode.rank

/-- The star before the first named-only parameter. -/
def starBefore (starred : Bool) (m : ParamMode) : List Text :=
  if m == .namedOnly && !starred then ["*"] else []

/-- The parts of a list after a slash was written, if there was one to write. -/
def partsFrom (starred : Bool) (p : Param) (params : List Param) : List Text :=
  starBefore starred p.mode ++
    p.text :: parts (p.mode == .posOnly) (starred || p.mode == .args || p.mode == .namedOnly) params

theorem parts_cons_posOnly (h : p.mode = .posOnly) (a b : Bool) (params : List Param) :
    parts a b (p :: params) = p.text :: parts true b params := by
  rw [parts, h]
  cases a <;> cases b <;> rfl

theorem parts_cons_of_ne (h : p.mode ≠ .posOnly) (a b : Bool) (params : List Param) :
    parts a b (p :: params) = (if a then ["/"] else []) ++ partsFrom b p params := by
  have hmode : (p.mode != .posOnly) = true := bne_iff_ne.mpr h
  rw [parts, hmode, Bool.and_true, List.append_assoc]
  rfl

theorem Ordered.ne_posOnly (h : Ordered (p :: params)) (hp : p.mode ≠ .posOnly) :
    ∀ q ∈ p :: params, q.mode ≠ .posOnly := by
  intro q hq hmode
  rcases List.mem_cons.mp hq with rfl | hq
  · exact hp hmode
  · have hrank := (List.pairwise_cons.mp h).1 q hq
    rw [hmode] at hrank
    cases hm : p.mode with
    | posOnly => exact hp hm
    | _ =>
        rw [hm] at hrank
        exact absurd hrank (by decide)

/-- A list that begins positional-only is told apart by its slash. -/
theorem posOnly_of_parts (hp : Text.isName p.name = true) (hqs : ∀ x ∈ q :: qs, Text.isName x.name = true)
    (hoq : Ordered (q :: qs)) (h : parts a b (p :: ps) = parts a b (q :: qs)) (hmode : p.mode = .posOnly) :
    q.mode = .posOnly := by
  refine Decidable.byContradiction fun hne => ?_
  rw [parts_cons_posOnly hmode] at h
  cases a with
  | true =>
      rw [parts_cons_of_ne hne] at h
      exact slash_ne_text hp (List.cons.inj h).1.symm
  | false =>
      have hmem : "/" ∈ parts false b (q :: qs) := h ▸ List.mem_cons_of_mem _ (slash_mem_parts b ps)
      exact slash_not_mem_parts hqs (hoq.ne_posOnly hne) hmem

/-- Parameters that stand where a slash does not matter have one mode, if their texts agree: only those that
come after a star have neither star nor stars of their own. -/
theorem mode_eq_of_partsFrom (hp : Text.isName p.name = true) (hq : Text.isName q.name = true)
    (htype : p.type.Apart q.type) (hpm : p.mode ≠ .posOnly) (hqm : q.mode ≠ .posOnly)
    (hb : b = true → 2 ≤ p.mode.rank ∧ 2 ≤ q.mode.rank) (h : partsFrom b p ps = partsFrom b q qs) :
    p.mode = q.mode := by
  have hstars : ∀ {xs ys : List Text}, p.text :: xs = q.text :: ys → p.mode.stars = q.mode.stars := by
    intro xs ys heq
    have htext := (List.cons.inj heq).1
    exact (text_append_inj hp hq htype (Text.follows_nil _) (Text.follows_nil _) (by rw [htext])).1.1
  simp only [partsFrom, starBefore] at h
  by_cases hpstar : (p.mode == .namedOnly && !b) = true <;> by_cases hqstar : (q.mode == .namedOnly && !b) = true
  · rw [Bool.and_eq_true, beq_iff_eq] at hpstar hqstar
    exact hpstar.1.trans hqstar.1.symm
  · rw [if_pos hpstar, if_neg hqstar] at h
    exact absurd (List.cons.inj h).1 (star_ne_text hq)
  · rw [if_neg hpstar, if_pos hqstar] at h
    exact absurd (List.cons.inj h).1.symm (star_ne_text hp)
  · rw [if_neg hpstar, if_neg hqstar] at h
    have hsame := hstars h
    -- Stars tell all modes apart but two: `posOrNamed` never comes after a star, `namedOnly` only there.
    generalize p.mode = m at *
    generalize q.mode = m' at *
    cases b <;> cases m <;> cases m' <;> first | rfl | contradiction

theorem mode_eq_of_parts (hps : ∀ x ∈ p :: ps, Text.isName x.name = true)
    (hqs : ∀ x ∈ q :: qs, Text.isName x.name = true) (htype : p.type.Apart q.type) (hop : Ordered (p :: ps))
    (hoq : Ordered (q :: qs)) (hb : b = true → 2 ≤ p.mode.rank ∧ 2 ≤ q.mode.rank)
    (h : parts a b (p :: ps) = parts a b (q :: qs)) : p.mode = q.mode := by
  have hp := hps p List.mem_cons_self
  have hq := hqs q List.mem_cons_self
  by_cases hpm : p.mode = .posOnly
  · rw [hpm, posOnly_of_parts hp hqs hoq h hpm]
  · by_cases hqm : q.mode = .posOnly
    · exact absurd (posOnly_of_parts hq hps hop h.symm hqm) hpm
    · rw [parts_cons_of_ne hpm, parts_cons_of_ne hqm] at h
      exact mode_eq_of_partsFrom hp hq htype hpm hqm hb (List.append_cancel_left h)

theorem parts_nil_ne (h : Text.isName p.name = true) : parts a b [] ≠ parts a b (p :: params) := by
  intro heq
  rw [parts] at heq
  by_cases hmode : p.mode = .posOnly
  · rw [parts_cons_posOnly hmode] at heq
    cases a with
    | true => exact slash_ne_text h (List.cons.inj heq).1
    | false => cases heq
  · rw [parts_cons_of_ne hmode] at heq
    have hempty : [] = partsFrom b p params := List.append_cancel_left ((List.append_nil _).trans heq)
    exact List.append_ne_nil_of_right_ne_nil _ (List.cons_ne_nil _ _) hempty.symm

theorem two_le_rank_of_star {m : ParamMode} (h : m = .args ∨ m = .namedOnly) : 2 ≤ m.rank := by
  rcases h with rfl | rfl <;> decide

/-- Lists of parameters in order have different parts. The induction is on the list, for any marks that were
written before; after a star only modes from `args` on can come. -/
theorem parts_inj (hps : ∀ p ∈ ps, Text.isName p.name = true) (hqs : ∀ q ∈ qs, Text.isName q.name = true)
    (htypes : ∀ p ∈ ps, ∀ q ∈ qs, p.type.Apart q.type) (hop : Ordered ps) (hoq : Ordered qs)
    (hb : b = true → (∀ p ∈ ps, 2 ≤ p.mode.rank) ∧ ∀ q ∈ qs, 2 ≤ q.mode.rank) (h : parts a b ps = parts a b qs) :
    ps = qs := by
  induction ps generalizing a b qs with
  | nil =>
      cases qs with
      | nil => rfl
      | cons q qs => exact absurd h (parts_nil_ne (hqs q List.mem_cons_self))
  | cons p ps ih =>
      cases qs with
      | nil => exact absurd h.symm (parts_nil_ne (hps p List.mem_cons_self))
      | cons q qs =>
          have htype := htypes p List.mem_cons_self q List.mem_cons_self
          have hmode : p.mode = q.mode := mode_eq_of_parts hps hqs htype hop hoq
            (fun hb' => ⟨(hb hb').1 p List.mem_cons_self, (hb hb').2 q List.mem_cons_self⟩) h
          rw [parts, parts, hmode] at h
          obtain ⟨htext, hrest⟩ := List.cons.inj (List.append_cancel_left h)
          cases eq_of_text_eq (hps p List.mem_cons_self) (hqs q List.mem_cons_self) htype hmode htext
          rw [ih (fun x hx => hps x (List.mem_cons_of_mem p hx)) (fun x hx => hqs x (List.mem_cons_of_mem p hx))
            (fun x hx y hy => htypes x (List.mem_cons_of_mem p hx) y (List.mem_cons_of_mem p hy))
            (List.pairwise_cons.mp hop).2 (List.pairwise_cons.mp hoq).2 (fun hstarred => ?_) hrest]
          by_cases hb' : b = true
          · exact ⟨fun x hx => (hb hb').1 x (List.mem_cons_of_mem p hx),
              fun x hx => (hb hb').2 x (List.mem_cons_of_mem p hx)⟩
          · have hrank : 2 ≤ p.mode.rank := two_le_rank_of_star (by simpa [hb'] using hstarred)
            exact ⟨fun x hx => Nat.le_trans hrank ((List.pairwise_cons.mp hop).1 x hx),
              fun x hx => Nat.le_trans hrank ((List.pairwise_cons.mp hoq).1 x hx)⟩

theorem parts_append_inj (hps : ∀ p ∈ ps, Text.isName p.name = true) (hqs : ∀ q ∈ qs, Text.isName q.name = true)
    (htypes : ∀ p ∈ ps, ∀ q ∈ qs, p.type.Apart q.type) (hop : Ordered ps) (hoq : Ordered qs)
    (h : (Text.join ", " (parts false false ps)).toList ++ ')' :: r =
      (Text.join ", " (parts false false qs)).toList ++ ')' :: s) : ps = qs ∧ r = s := by
  have hbegins : ∀ {params : List Param}, (∀ p ∈ params, Text.isName p.name = true) →
      ∀ x ∈ parts false false params, Text.BeginsOtherThan ')' x := by
    intro params hnames x hx
    rcases mem_parts hx with rfl | rfl | ⟨p, hp, rfl⟩
    · exact ⟨'/', [], rfl, by decide⟩
    · exact ⟨'*', [], rfl, by decide⟩
    · exact beginsOtherThan_text (hnames p hp) rfl (by decide)
  obtain ⟨hparts, hend⟩ := Text.bracketed_append_inj (Or.inr rfl)
    (fun x hx y hy => parts_separable hps hqs htypes hx hy) (hbegins hps) (hbegins hqs) h
  exact ⟨parts_inj hps hqs htypes hop hoq (fun hb => absurd hb Bool.false_ne_true) hparts, hend⟩

/-- Out of order, a parameter after a star looks named-only, whatever its mode. -/
example : parts false false [⟨.namedOnly, "x", .int, false⟩, ⟨.posOrNamed, "y", .int, false⟩] =
    parts false false [⟨.namedOnly, "x", .int, false⟩, ⟨.namedOnly, "y", .int, false⟩] := by decide +kernel

end Param

end Gradual
