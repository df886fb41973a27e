import Gradual.Proofs.ListWidening
import Gradual.Proofs.SharedScopes

/-! What is appended to a list stays in the type of its elements, if the call is evaluated in the scope that binds the
list. A call binds the list anew only if the text of its type changes; a union whose text does not change has no
alternative that the text does not show, so that what was appended reads like a part of the elements. Whether it is
below them is then a matter of texts: some types read alike and are not. -/

namespace Gradual

/-! ### Types that read as parts of others -/

namespace Alt

theorem sublist_insert (a : Alt) (alts : List Alt) : alts.Sublist (a.insert alts) := by
  induction alts with
  | nil => exact List.nil_sublist _
  | cons b rest ih =>
      rw [insert]
      split
      · exact List.sublist_cons_self a (b :: rest)
      · split
        · exact List.Sublist.refl _
        · exact ih.cons_cons b

theorem sublist_insertAll (alts sorted : List Alt) : sorted.Sublist (insertAll alts sorted) := by
  induction alts generalizing sorted with
  | nil => exact List.Sublist.refl sorted
  | cons a rest ih => exact (sublist_insert a sorted).trans (ih (a.insert sorted))

/-- The number of characters that alternatives take in the text of a union, with a bar after each of them. -/
def width : List Alt → Nat
  | [] => 0
  | a :: rest => a.text.toList.length + 3 + width rest

theorem length_join_texts (a : Alt) (rest : List Alt) :
    (Text.join " | " ((a :: rest).map Alt.text)).toList.length + 3 = width (a :: rest) := by
  induction rest generalizing a with
  | nil => rfl
  | cons b rest ih =>
      have hbar : " | ".toList.length = 3 := rfl
      have hrest := ih b
      rw [List.map_cons, List.map_cons, Text.toList_join_cons_cons, List.length_append, List.length_append, hbar]
      rw [List.map_cons] at hrest
      rw [width]
      omega

theorem width_add_of_sublist {xs ys : List Alt} (h : xs.Sublist ys) :
    width xs + 3 * ys.length ≤ width ys + 3 * xs.length := by
  induction h with
  | slnil => exact Nat.le_refl _
  | cons b _ ih =>
      rw [width, List.length_cons]
      omega
  | cons_cons b _ ih =>
      rw [width, width, List.length_cons, List.length_cons]
      omega

end Alt

namespace Ty

variable {t u : Ty}

/-- Each alternative of a type reads like one of the other type, unless one of the types is `Any`. -/
def ReadsIn (t u : Ty) : Prop := u.isAny = true ∨ t.isAny = true ∨ ∀ a ∈ t.alts, ∃ b ∈ u.alts, b.text = a.text

theorem readsIn_union_right (t u : Ty) : u.ReadsIn (union [t, u]) := by
  by_cases hany : .any ∈ t.alts ++ u.alts
  · rw [union_pair, ofAlts_of_any_mem hany]
    exact Or.inl rfl
  · refine Or.inr (Or.inr fun a ha => ?_)
    rw [union_pair]
    exact exists_text_mem_ofAlts hany (List.mem_append_right t.alts ha)

theorem ReadsIn.union_left (h : t.ReadsIn u) (v : Ty) : t.ReadsIn (union [u, v]) := by
  by_cases hany : .any ∈ u.alts ++ v.alts
  · rw [union_pair, ofAlts_of_any_mem hany]
    exact Or.inl rfl
  rcases h with huany | htany | hall
  · exact absurd (List.mem_append_left v.alts (any_mem_of_isAny huany)) hany
  · exact Or.inr (Or.inl htany)
  · refine Or.inr (Or.inr fun a ha => ?_)
    obtain ⟨b, hb, hba⟩ := hall a ha
    rw [union_pair]
    obtain ⟨b', hb', hb'b⟩ := exists_text_mem_ofAlts hany (List.mem_append_left v.alts hb)
    exact ⟨b', hb', hb'b.trans hba⟩

/-- The alternatives of a type are in order, and `Any` is not among others. -/
structure IsOrdered (t : Ty) : Prop where
  sorted : t.alts.Pairwise fun a b => a.text < b.text
  alone : .any ∈ t.alts → t = .any

theorem Normal.isOrdered (h : t.Normal) : t.IsOrdered := ⟨h.here.sorted, h.here.alone⟩

theorem isOrdered_union (ts : List Ty) : (union ts).IsOrdered := by
  by_cases hany : .any ∈ ts.flatMap alts
  · rw [union, ofAlts_of_any_mem hany]
    exact ⟨List.pairwise_singleton _ _, fun _ => rfl⟩
  · refine ⟨?_, fun hmem => absurd (mem_of_mem_ofAlts hmem) hany⟩
    rw [union, alts_ofAlts hany]
    exact Alt.pairwise_insertAll _ .nil

/-- A union whose text is as long as that of its first member has no other alternatives. -/
theorem insertAll_eq_of_text_eq (hsorted : u.alts.Pairwise fun a b => a.text < b.text)
    (hany : .any ∉ u.alts ++ t.alts) (hne : u.alts ≠ []) (h : (union [u, t]).text = u.text) :
    Alt.insertAll t.alts u.alts = u.alts := by
  have halts : (union [u, t]).alts = Alt.insertAll t.alts u.alts := by
    have hsame : Alt.insertAll u.alts [] = u.alts := Alt.insertAll_of_pairwise hsorted
    rw [alts_union_pair hany, Alt.insertAll_append, hsame]
  have hsub : u.alts.Sublist (union [u, t]).alts := halts ▸ Alt.sublist_insertAll t.alts u.alts
  have hne' : (union [u, t]).alts ≠ [] := by
    intro hnil
    rw [hnil] at hsub
    exact hne (List.sublist_nil.mp hsub)
  have hwidth : ∀ {w : Ty}, w.alts ≠ [] → w.text.toList.length + 3 = Alt.width w.alts := by
    intro w hw
    rw [text_eq_join hw]
    obtain ⟨a, rest, hcons⟩ := List.exists_cons_of_ne_nil hw
    rw [hcons]
    exact Alt.length_join_texts a rest
  -- Each further alternative would add at least a bar to the text.
  have hlength : u.alts.length = (union [u, t]).alts.length := by
    have hbars := Alt.width_add_of_sublist hsub
    have hfewer := hsub.length_le
    rw [← hwidth hne, ← hwidth hne', h] at hbars
    omega
  rw [← halts]
  exact (hsub.eq_of_length hlength).symm

theorem readsIn_of_text_eq (hu : u.IsOrdered) (ht : t.IsOrdered) (hnever : t.text = "Never" → t = .never)
    (h : (union [u, t]).text = u.text) : t.ReadsIn u := by
  by_cases hany : .any ∈ u.alts ++ t.alts
  · rcases List.mem_append.mp hany with hmem | hmem
    · exact Or.inl (hu.alone hmem ▸ rfl)
    · exact Or.inr (Or.inl (ht.alone hmem ▸ rfl))
  refine Or.inr (Or.inr fun a ha => ?_)
  by_cases hempty : u.alts = []
  · have hunion : union [u, t] = t := by
      refine eq_of_alts_eq ?_
      rw [alts_union_pair hany, hempty, List.nil_append]
      exact Alt.insertAll_of_pairwise ht.sorted
    have hutext : u.text = "Never" := by
      obtain ⟨alts⟩ := u
      cases hempty
      rfl
    rw [hunion, hutext] at h
    rw [hnever h] at ha
    cases ha
  · obtain ⟨b, hb, hba⟩ := Alt.exists_text_mem_insertAll u.alts ha
    rw [insertAll_eq_of_text_eq hu.sorted hany hempty h] at hb
    exact ⟨b, hb, hba⟩

/-- Whether texts tell a type from another one: it does not read like the empty union unless it is, and an alternative
of the other type that reads like one of its own is above that. -/
structure ToldFrom (t u : Ty) : Prop where
  never : t.text = "Never" → t = .never
  above : ∀ a ∈ t.alts, ∀ b ∈ u.alts, b.text = a.text → Alt.Below a b

theorem ReadsIn.subtype (h : t.ReadsIn u) (htold : t.ToldFrom u) : t.subtype u = true := by
  refine subtype_iff.mpr (h.imp_right (Or.imp_right fun hall a ha => ?_))
  obtain ⟨b, hb, hba⟩ := hall a ha
  exact ⟨b, hb, htold.above a ha b hb hba⟩

theorem Normal.toldFrom (hnormal : t.Normal) (ht : t.Readable) (hu : u.Readable) : t.ToldFrom u where
  never h := by
    have hnever : Readable .never :=
      .intro (fun a ha => absurd ha List.not_mem_nil) fun a ha => absurd ha List.not_mem_nil
    exact ht.eq_of_text_eq hnever h
  above a ha b hb hba := by
    have heq : b = a := Alt.eq_of_text_eq (Everywhere.only hu hb) (Everywhere.only ht ha) hba
    rw [heq]
    exact hnormal.below_self ha

end Ty

/-! ### Calls that append -/

namespace Check

/-- Whether an argument of a written kind stands for the parameter at its place. -/
def isPositionalKind (kind : Text) : Bool := kind != "named" && kind != "args" && kind != "kwargs"

theorem placedTypes_cons (kind name : Text) (type : Ty) (others : List Arg) :
    placedTypes (argOf kind name type :: others) =
      if isPositionalKind kind then type :: placedTypes others else placedTypes others := by
  unfold argOf
  split
  · rfl
  · rfl
  · rfl
  · next hnamed hargs hkwargs =>
    have hkind : isPositionalKind kind = true := by
      simp only [isPositionalKind, Bool.and_eq_true, bne_iff_ne]
      exact ⟨⟨hnamed, hargs⟩, hkwargs⟩
    rw [if_pos hkind]
    rfl

end Check

/-- The value of an argument that stands for the parameter at its place. -/
def ArgExpr.placedParts (path : NodePath) : ArgExpr → List (NodePath × Expr)
  | .hole => []
  | .arg _ kind _ value => if Check.isPositionalKind kind then [(0 :: path, value)] else []

/-- A call of `append` on a name with one positional argument. -/
inductive Expr.IsAppend (name : Text) (arg : NodePath × Expr) : NodePath × Expr → Prop
  | intro {path : NodePath} {span memberSpan : Span} {id method : Ident} {items : List ArgExpr} (hname : id.name = name)
      (hmethod : method.name = "append") (harg : partsEach ArgExpr.placedParts (1 :: path) 0 items = [arg]) :
      IsAppend name arg (path, .call span (.member memberSpan (.ident id) method) items)

theorem Expr.IsAppend.below_arg {name : Text} {arg q : NodePath × Expr} (h : IsAppend name arg q) :
    ∃ j, j :: q.1 <:+ arg.1 := by
  obtain ⟨-, -, hplaced⟩ := h
  have hparts (at_ : NodePath) (item : ArgExpr) (hitem : arg ∈ item.placedParts at_) : at_ <:+ arg.1 := by
    cases item with
    | hole => cases hitem
    | arg span kind name value =>
        rw [ArgExpr.placedParts] at hitem
        split at hitem
        · exact List.mem_singleton.mp hitem ▸ List.suffix_cons 0 at_
        · cases hitem
  obtain ⟨j, hj⟩ := below_of_mem_partsEach hparts (hplaced ▸ List.mem_singleton_self arg)
  exact ⟨1, (List.suffix_cons j _).trans hj⟩

/-- A name is bound by an own entry to a list, and has no annotation there. -/
structure Scope.BindsList (s : Scope) (name : Text) (elem : Ty) (isApproximate : Bool) : Prop where
  own : s.own.symbols.get? name = some ⟨.list elem, isApproximate⟩
  free : s.annotation? name = none

theorem Scope.Widens.bindsList {s s' : Scope} (h : s.Widens s') {name : Text} {elem : Ty} {isApproximate : Bool}
    (hs : s.BindsList name elem isApproximate) : ∃ elem', s'.BindsList name elem' isApproximate ∧
      (elem.IsOrdered → elem'.IsOrdered) ∧ ∀ t : Ty, t.ReadsIn elem → t.ReadsIn elem' := by
  have hfree : s'.annotation? name = none := by
    rw [Scope.annotation?, h.annotations]
    exact hs.free
  rcases h.symbols name with hsame | ⟨-, elem₀, added, isApproximate₀, hlist, hwider⟩
  · exact ⟨elem, ⟨hsame.trans hs.own, hfree⟩, id, fun _ => id⟩
  · cases hs.own.symm.trans hlist
    refine ⟨.union [elem, added], ⟨hwider, hfree⟩, fun _ => Ty.isOrdered_union _, fun t hreads => ?_⟩
    exact hreads.union_left added

namespace Check

section Appending

variable (c : Setup) {path : NodePath}

theorem placedTypes_args_nil {i : Nat} {items : List ArgExpr} (h : partsEach ArgExpr.placedParts path i items = [])
    (s : State) : placedTypes ((args c path i items).run s).1 = [] := by
  induction items generalizing i s with
  | nil => rfl
  | cons item rest ih =>
      obtain ⟨hfirst, hrest⟩ := List.append_eq_nil_iff.mp h
      cases item with
      | hole => exact ih hrest s
      | arg span kind name value =>
          have hkind : isPositionalKind kind = false := by
            by_contra hkind
            rw [ArgExpr.placedParts, if_pos (Bool.eq_true_of_not_eq_false hkind)] at hfirst
            cases hfirst
          refine (placedTypes_cons kind name _ _).trans ?_
          rw [hkind]
          exact ih hrest _

theorem exists_placedTypes_args {i : Nat} {items : List ArgExpr} {arg : NodePath × Expr}
    (h : partsEach ArgExpr.placedParts path i items = [arg]) (harg : arg.2.isHole = false) {s : State}
    (hlive : s.dead = 0) : ∃ info, placedTypes ((args c path i items).run s).1 = [info.type] ∧
      ((args c path i items).run s).2.types.get? arg.1 = some info := by
  induction items generalizing i s with
  | nil => cases h
  | cons item rest ih =>
      cases item with
      | hole => exact ih h hlive
      | arg span kind name value =>
          let first := (expr c (0 :: i :: path) value).run s
          let noted := ((note (i :: path) "Argument" span ⟨first.1.type, false⟩).run first.2).2
          have hlive' : noted.dead = 0 := (moves_expr c (0 :: i :: path) s value).dead.trans hlive
          rw [partsEach, ArgExpr.placedParts] at h
          split at h
          · next hkind =>
            obtain ⟨rfl, hrest⟩ := List.cons.inj h
            have hlater : State.Moves (.apart (0 :: i :: path)) first.2 ((args c path (i + 1) rest).run noted).2 :=
              (moves_note_apart (not_suffix_of_below List.suffix_rfl) "Argument" span ⟨first.1.type, false⟩ _).trans
                ((inStep_args c (i + 1) (evaluates_later (List.suffix_cons 0 (i :: path)) c.rules) rest).moves noted)
            refine ⟨first.1, ?_, ?_⟩
            · refine (placedTypes_cons kind name _ _).trans ?_
              rw [if_pos hkind]
              exact congrArg (_ :: ·) (placedTypes_args_nil c hrest _)
            · calc ((args c path (i + 1) rest).run noted).2.types.get? (0 :: i :: path)
                  = first.2.types.get? (0 :: i :: path) := hlater.agreesAt (fun _ hnoted => hnoted) _ List.suffix_rfl
                _ = some first.1 := get?_expr c (0 :: i :: path) harg hlive
          · next hkind =>
            obtain ⟨info, htypes, hnote⟩ := ih h hlive'
            refine ⟨info, ?_, hnote⟩
            refine (placedTypes_cons kind name _ _).trans ?_
            rw [if_neg hkind]
            exact htypes

/-- A list that an own entry binds holds what is appended to it, up to what the texts of types tell apart. -/
theorem bindsList_widenOnCall (memberSpan : Span) {id method : Ident} (hmethod : method.name = "append")
    {given : List Arg} {t : Ty} (hgiven : placedTypes given = [t]) {s : State} {elem : Ty} {isApproximate : Bool}
    (hlist : s.scope.BindsList id.name elem isApproximate) (helem : elem.IsOrdered) :
    ∃ elem', ((widenOnCall (.member memberSpan (.ident id) method) given).run s).2.scope.BindsList id.name elem'
        isApproximate ∧ (t.IsOrdered → (t.text = "Never" → t = .never) → t.ReadsIn elem') := by
  have hlocal : s.scope.hasLocal id.name = true := by
    rw [Scope.hasLocal, NameMap.contains, hlist.own]
    rfl
  have hadded : addedBy method.name (placedTypes given) = some t := by
    rw [hmethod, hgiven]
    rfl
  let wider := Ty.list (.union [elem, t])
  have hrun : (widenOnCall (.member memberSpan (.ident id) method) given).run s =
      (widen (.ident id) (.list elem) wider).run s := by
    show ((ite _ _ _ : Check Unit).run s) = _
    have hsingle : (Ty.list elem).single? = some (.list elem) := rfl
    simp only [if_pos hlocal, Scope.resolve?_of_own hlist.own, hsingle, hadded]
    rfl
  have hscope : ((widen (.ident id) (.list elem) wider).run s).2.scope =
      if (!(Ty.list elem).equal wider) = true then s.scope.retype id.name wider else s.scope := by
    show (if (s.scope.hasLocal id.name && !(Ty.list elem).equal wider && (s.scope.annotation? id.name).isNone) = true
      then s.scope.retype id.name wider else s.scope) = _
    rw [hlocal, hlist.free, Bool.true_and, Option.isNone_none, Bool.and_true]
  rw [hrun, hscope]
  -- The list is bound anew unless the text of its type stays the same.
  by_cases hequal : (Ty.list elem).equal wider = true
  · rw [hequal]
    refine ⟨elem, hlist, fun ht hnever => Ty.readsIn_of_text_eq helem ht hnever ?_⟩
    have htext : (Alt.list elem).text = (Alt.list (.union [elem, t])).text :=
      List.head_eq_of_cons_eq (beq_iff_eq.mp hequal)
    simp only [Alt.text, String.append_left_inj, String.append_right_inj] at htext
    exact htext.symm
  · rw [Bool.eq_false_of_not_eq_true hequal]
    refine ⟨.union [elem, t], ⟨?_, hlist.free⟩, fun _ _ => Ty.readsIn_union_right elem t⟩
    show (s.scope.retype id.name wider).own.symbols.get? id.name = _
    rw [Scope.retype_of_own hlist.own]
    exact (NameMap.get?_insert ..).trans (if_pos rfl)

theorem bindsList_append {q arg : NodePath × Expr} {name : Text} (happend : Expr.IsAppend name arg q)
    (harg : arg.2.isHole = false) {s : State} (hlive : s.dead = 0) {elem : Ty} {isApproximate : Bool}
    (hlist : s.scope.BindsList name elem isApproximate) (helem : elem.IsOrdered) :
    ∃ info elem', ((expr c q.1 q.2).run s).2.types.get? arg.1 = some info ∧
      ((expr c q.1 q.2).run s).2.scope.BindsList name elem' isApproximate ∧
      (info.type.IsOrdered → (info.type.text = "Never" → info.type = .never) → info.type.ReadsIn elem') := by
  obtain ⟨j, hbelow⟩ := happend.below_arg
  obtain ⟨rfl, hmethod, hplaced⟩ := happend
  next path span memberSpan id method items =>
  let callee : Expr := .member memberSpan (.ident id) method
  let f := (expr c (0 :: path) callee).run s
  let given := (args c (1 :: path) 0 items).run f.2
  let settled := (settle (c.rules.call f.1.type given.1 span)).run given.2
  let widened := (widenOnCall callee given.1).run settled.2
  have hf := moves_expr c (0 :: path) s callee
  have hK := StepKinds.evaluates_evaluating (1 :: path) c.rules
  have hgiven : State.Moves (.evaluating (1 :: path)) f.2 given.2 :=
    (inStep_args c 0 (fun j _ => hK.below Alongside.self.below) items).moves f.2
  obtain ⟨info, htypes, hnote⟩ := exists_placedTypes_args c hplaced harg (hf.dead.trans hlive)
  have hwidens : s.scope.Widens given.2.scope := (hf.widens fun _ h => h).trans (hgiven.widens fun _ h => h)
  obtain ⟨elem₁, hlist₁, hordered, -⟩ := hwidens.bindsList hlist
  have hsettled : settled.2.scope = given.2.scope := State.scope_report given.2 _
  obtain ⟨elem', hlist', hreads⟩ := bindsList_widenOnCall memberSpan hmethod htypes (hsettled ▸ hlist₁) (hordered helem)
  refine ⟨info, elem', ?_, hlist', hreads⟩
  have hlater : State.Moves (.apart arg.1) given.2 (widened.2.note path "FunctionCall" span
      ⟨settled.1, widened.2.taint != s.taint⟩) :=
    ((moves_settle given.2 _ _).trans (moves_widenOnCall_apart callee given.1 arg.1 settled.2)).trans
      (moves_note_apart (not_suffix_of_below hbelow) _ _ _ _)
  exact (hlater.agreesAt (fun _ hnoted => hnoted) arg.1 List.suffix_rfl).trans hnote

/-- What is appended to a list that an own entry binds without an annotation stays in the type of its elements, as far
as texts tell types apart, if the call is evaluated in the scope of the whole expression. Else the call is in an operand
or a branch that is evaluated in a copy of that scope, and nothing of the copy stays. -/
theorem appended_stays_unless_copied {path : NodePath} {e : Expr} {q arg : NodePath × Expr} {name : Text}
    (happend : Expr.IsAppend name arg q) (harg : arg.2.isHole = false) (hoccurs : Expr.Occurs q path e) {s : State}
    (hlive : s.dead = 0) {elem : Ty} {isApproximate : Bool} (hlist : s.scope.BindsList name elem isApproximate)
    (helem : elem.Normal) :
    let after := ((expr c path e).run s).2
    (Expr.SharesScope q path e → ∃ info elem', after.types.get? arg.1 = some info ∧
      after.scope.BindsList name elem' isApproximate ∧
      (info.type.Normal → info.type.ToldFrom elem' → info.type.subtype elem' = true)) ∧
    (¬Expr.SharesScope q path e → ∃ b first, Expr.SharesScope b path e ∧
      (∃ p ∈ b.2.copiedParts b.1, Expr.Occurs q p.1 p.2) ∧ b.2.ownParts b.1 = [first] ∧
      ∀ s, ((expr c b.1 b.2).run s).2.scope = ((expr c first.1 first.2).run s).2.scope) := by
  intro after
  refine ⟨fun hshares => ?_, fun hcopied => ?_⟩
  · have hname : ∀ id, q.2 ≠ .ident id := by
      obtain ⟨-, -, -⟩ := happend
      intro id hid
      cases hid
    obtain ⟨entered, hbefore, hafter⟩ := passes_of_sharesScope c hshares hname s
    obtain ⟨elem₁, hlist₁, hordered, -⟩ := (hbefore.widens fun _ h => h).bindsList hlist
    obtain ⟨info, elem₂, hnote, hlist₂, hreads⟩ :=
      bindsList_append c happend harg (hbefore.dead.trans hlive) hlist₁ (hordered helem.isOrdered)
    obtain ⟨elem₃, hlist₃, -, hkept⟩ := (hafter.widens fun _ h => h).bindsList hlist₂
    refine ⟨info, elem₃, ?_, hlist₃, fun hnormal htold => ?_⟩
    · obtain ⟨j, hbelow⟩ := happend.below_arg
      calc after.types.get? arg.1
          = ((expr c q.1 q.2).run entered).2.types.get? arg.1 :=
            hafter.agreesAt (fun _ hnoted => hnoted) arg.1 ((List.suffix_cons j q.1).trans hbelow)
        _ = some info := hnote
    · exact (hkept info.type (hreads hnormal.isOrdered htold.never)).subtype htold
  · rcases hoccurs.sharesScope_or with hshares | ⟨b, hb, p, hp, hin⟩
    · exact absurd hshares hcopied
    · obtain ⟨first, hfirst, hscope⟩ := exists_scope_of_copiedParts c hp
      exact ⟨b, first, hb, ⟨p, hp, hin⟩, hfirst, hscope⟩

end Appending

def appendTo (value : Expr) : Expr :=
  .call {} (.member {} (.ident ⟨{}, "xs"⟩) ⟨{}, "append"⟩) [.arg {} "positional" "" value]

def bindsXs (elem : Ty) : State := { scope := { own := { symbols := .ofList [("xs", ⟨.list elem, false⟩)] } } }

/-- In `xs.append(1) if [xs.append("a"), xs.append(None)] else 0` what is appended in the condition stays, and what is
appended in the branch does not. -/
theorem appended_stays_unless_copied_conditional :
    let c : Setup := { rules := ⟨.standard, .lint⟩ }
    let condition : Expr := .list {} [appendTo (.str {} "a"), appendTo (.none {})]
    let e : Expr := .conditional {} condition (appendTo (.int {} 1)) (.int {} 0)
    let after := ((expr c [] e).run (bindsXs .float)).2
    (∃ info elem', after.types.get? [0, 0, 1, 0, 0] = some info ∧ info.type.text = "str" ∧
      after.scope.BindsList "xs" elem' false ∧ (Ty.list elem').text = "list[None | float | str]" ∧
      info.type.subtype elem' = true) ∧
    ∃ b first, Expr.SharesScope b [] e ∧ (∃ p ∈ b.2.copiedParts b.1, Expr.Occurs ([1], appendTo (.int {} 1)) p.1 p.2) ∧
      b.2.ownParts b.1 = [first] ∧
      ∀ s, ((expr c b.1 b.2).run s).2.scope = ((expr c first.1 first.2).run s).2.scope := by
  intro c condition e after
  have hfloat : Ty.float.Normal := Ty.everywhere_of_holdsInside 2 (by decide +kernel)
  have hbinds : (bindsXs .float).scope.BindsList "xs" .float false := ⟨rfl, rfl⟩
  constructor
  · have hshares : Expr.SharesScope ([0, 0], appendTo (.str {} "a")) [] e := by
      refine .part (p := ([0], condition)) List.mem_cons_self ?_
      exact .part (p := ([0, 0], appendTo (.str {} "a"))) List.mem_cons_self .self
    have hnoted : (after.types.get? [0, 0, 1, 0, 0]).all (fun info => info.type.text == "str" &&
        info.type.holdsInside Ty.IsNormalUnion 1 &&
        info.type.holdsInside (fun t => ∀ a ∈ t.alts, a.IsLegible) 1) = true := by
      decide +kernel
    have hbound : (after.scope.own.symbols.get? "xs").all (fun b => b.type.text == "list[None | float | str]" &&
        b.type.holdsInside (fun t => ∀ a ∈ t.alts, a.IsLegible) 2) = true := by
      decide +kernel
    have happend : Expr.IsAppend "xs" ([0, 0, 1, 0, 0], .str {} "a") ([0, 0], appendTo (.str {} "a")) :=
      .intro rfl rfl rfl
    obtain ⟨info, elem', hnote, hlist, hsubtype⟩ : ∃ info elem', after.types.get? [0, 0, 1, 0, 0] = some info ∧
        after.scope.BindsList "xs" elem' false ∧
        (info.type.Normal → info.type.ToldFrom elem' → info.type.subtype elem' = true) :=
      (appended_stays_unless_copied c happend rfl hshares.occurs rfl hbinds hfloat).1 hshares
    clear_value after
    rw [hnote, Option.all_some, Bool.and_eq_true, Bool.and_eq_true] at hnoted
    rw [hlist.own, Option.all_some, Bool.and_eq_true] at hbound
    obtain ⟨⟨htext, hnormal⟩, hlegible⟩ := hnoted
    have hplain : info.type.Plain := Ty.plain_of_holdsInside 1 hnormal hlegible
    have helem' : elem'.Legible := Ty.Everywhere.alt (Ty.everywhere_of_holdsInside 2 hbound.2) List.mem_cons_self elem'
      List.mem_cons_self
    refine ⟨info, elem', hnote, beq_iff_eq.mp htext, hlist, beq_iff_eq.mp hbound.1, hsubtype hplain.normal ?_⟩
    exact hplain.normal.toldFrom hplain.legible.readable helem'.readable
  · have hoccurs : Expr.Occurs ([1], appendTo (.int {} 1)) [] e :=
      .part (p := ([1], appendTo (.int {} 1))) (List.mem_cons_of_mem _ List.mem_cons_self) .self
    have happend : Expr.IsAppend "xs" ([0, 0, 1, 1], .int {} 1) ([1], appendTo (.int {} 1)) := .intro rfl rfl rfl
    refine (appended_stays_unless_copied c happend rfl hoccurs rfl hbinds hfloat).2 fun hshares => ?_
    cases hshares with
    | part hp h =>
        cases List.mem_singleton.mp hp
        exact absurd h.suffix (by decide)

/-- In `True and xs.append(1)` the integer is appended to a copy: `xs` stays a list without elements. And a list of
elements of some type that reads `int` does not change when an integer is appended. -/
theorem appended_is_lost :
    let c : Setup := { rules := ⟨.standard, .lint⟩ }
    let call := appendTo (.int {} 1)
    let e : Expr := .binary {} "and" (.bool {} true) call
    let copied := ((expr c [] e).run (bindsXs .never)).2
    let alike := ((expr c [] call).run (bindsXs (.named "int"))).2
    (Expr.IsAppend "xs" ([0, 0, 1, 1], .int {} 1) ([1], call) ∧ Expr.Occurs ([1], call) [] e ∧
      (bindsXs .never).scope.BindsList "xs" .never false ∧ copied.types.get? [0, 0, 1, 1] = some ⟨.int, false⟩ ∧
      copied.scope.BindsList "xs" .never false ∧ Ty.int.subtype .never = false) ∧
    (Expr.IsAppend "xs" ([0, 0, 1], .int {} 1) ([], call) ∧ Expr.SharesScope ([], call) [] call ∧
      (bindsXs (.named "int")).scope.BindsList "xs" (.named "int") false ∧
      alike.types.get? [0, 0, 1] = some ⟨.int, false⟩ ∧
      alike.scope.BindsList "xs" (.named "int") false ∧ Ty.int.subtype (.named "int") = false) := by
  intro c call e copied alike
  constructor
  · refine ⟨.intro rfl rfl rfl, .part (p := ([1], call)) ?_ .self, ⟨rfl, rfl⟩, rfl, ⟨rfl, rfl⟩, by decide +kernel⟩
    exact List.mem_cons_of_mem _ List.mem_cons_self
  · exact ⟨.intro rfl rfl rfl, .self, ⟨rfl, rfl⟩, rfl, ⟨rfl, rfl⟩, by decide +kernel⟩

end Check

end Gradual
