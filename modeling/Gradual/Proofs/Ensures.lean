/-! What a computation that may fail gives, if it gives something, and what it fails with, if it fails. Rules follow
the ways in which computations are put together; the rule of a fold asks what is known after each item. -/

namespace Gradual

/-- Whatever a computation that may fail gives satisfies `P`. -/
def Ensures {ε α : Type} (run : Except ε α) (P : α → Prop) : Prop := ∀ a, run = .ok a → P a

namespace Ensures

variable {ε ε' α β : Type} {P : α → Prop} {Q : β → Prop}

theorem ok {a : α} (h : P a) : Ensures (.ok a : Except ε α) P := by
  rintro b ⟨⟩
  exact h

theorem pure {a : α} (h : P a) : Ensures (Pure.pure a : Except ε α) P := ok h

theorem error (e : ε) : Ensures (.error e : Except ε α) P := fun _ h => nomatch h

theorem bind {run : Except ε α} {next : α → Except ε β} (hrun : Ensures run P)
    (hnext : ∀ a, P a → Ensures (next a) Q) : Ensures (run >>= next) Q := by
  cases run with
  | error e => exact error e
  | ok a => exact hnext a (hrun a rfl)

theorem mapError {run : Except ε α} (h : Ensures run P) (f : ε → ε') : Ensures (run.mapError f) P := by
  cases run with
  | error e => exact error (f e)
  | ok a => exact ok (h a rfl)

theorem map {run : Except ε α} (h : Ensures run P) {f : α → β} (hf : ∀ a, P a → Q (f a)) : Ensures (run.map f) Q := by
  cases run with
  | error e => exact error e
  | ok a => exact ok (hf a (h a rfl))

theorem mapM {f : α → Except ε β} {as : List α} (h : ∀ a ∈ as, Ensures (f a) Q) :
    Ensures (as.mapM f) fun bs => ∀ b ∈ bs, Q b := by
  induction as with
  | nil => exact pure (List.forall_mem_nil _)
  | cons a as ih =>
      obtain ⟨ha, has⟩ := List.forall_mem_cons.mp h
      rw [List.mapM_cons]
      exact ha.bind fun b hb => (ih has).bind fun bs hbs => pure (List.forall_mem_cons.mpr ⟨hb, hbs⟩)

theorem foldlM {I : List α → β → Prop} {f : β → α → Except ε β} {as done : List α} {b : β} (hb : I done b)
    (hstep : ∀ a ∈ as, ∀ done b, I done b → Ensures (f b a) (I (done ++ [a]))) :
    Ensures (as.foldlM f b) (I (done ++ as)) := by
  induction as generalizing done b with
  | nil =>
      rw [List.append_nil]
      exact pure hb
  | cons a as ih =>
      obtain ⟨ha, has⟩ := List.forall_mem_cons.mp hstep
      rw [List.foldlM_cons, List.append_cons]
      exact (ha done b hb).bind fun b' hb' => ih hb' has

end Ensures

/-- Whatever a computation fails with satisfies `Q`. -/
def FailsWith {ε α : Type} (run : Except ε α) (Q : ε → Prop) : Prop := ∀ e, run = .error e → Q e

namespace FailsWith

variable {ε α β : Type} {Q : ε → Prop}

theorem ok (a : α) : FailsWith (.ok a : Except ε α) Q := fun _ h => nomatch h

theorem error {e : ε} (h : Q e) : FailsWith (.error e : Except ε α) Q := by
  rintro e' ⟨⟩
  exact h

theorem mono {run : Except ε α} {Q' : ε → Prop} (hrun : FailsWith run Q) (h : ∀ e, Q e → Q' e) : FailsWith run Q' :=
  fun e he => h e (hrun e he)

theorem bind {run : Except ε α} {next : α → Except ε β} (hrun : FailsWith run Q)
    (hnext : ∀ a, FailsWith (next a) Q) : FailsWith (run >>= next) Q := by
  cases run with
  | error e => exact error (hrun e rfl)
  | ok a => exact hnext a

theorem foldlM {f : β → α → Except ε β} {as : List α} (h : ∀ a ∈ as, ∀ b, FailsWith (f b a) Q) (b : β) :
    FailsWith (as.foldlM f b) Q := by
  induction as generalizing b with
  | nil => exact ok b
  | cons a as ih =>
      obtain ⟨ha, has⟩ := List.forall_mem_cons.mp h
      rw [List.foldlM_cons]
      exact (ha b).bind (ih has)

end FailsWith

end Gradual
