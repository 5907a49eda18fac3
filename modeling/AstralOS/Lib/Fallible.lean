import Mathlib.Data.BitVec

/-!
# Computations that may stop with an error

A computation works on a state and ends with a value or stops with an error; what it did to the state before it stopped
stays done.  `Ends c s Q E` says that from the state `s` the computation `c` ends in a state that satisfies `Q` together
with its value, or stops in one that satisfies `E` together with its error.  There is one rule for each way to build a
computation; a fold over a list is handled by an invariant that speaks about the rest of the list.  `Keeps P c` says that
`c` keeps an invariant of the state wherever it ends or stops.
-/

namespace AstralOS

/-- A computation on the state `σ` that may stop with an error of type `ε`. -/
abbrev Fallible (σ ε : Type) := ExceptT ε (StateM σ)

namespace Fallible

variable {σ ε α β : Type} {s : σ} {Q : β → σ → Prop} {E : ε → σ → Prop}

def exec (c : Fallible σ ε α) (s : σ) : Except ε α × σ := c.run s

/-- From `s`, the computation ends in `Q` or stops in `E`. -/
def Ends (c : Fallible σ ε α) (s : σ) (Q : α → σ → Prop) (E : ε → σ → Prop) : Prop :=
  match c.exec s with
  | (.ok a, s') => Q a s'
  | (.error e, s') => E e s'

variable {b : β}

theorem ends_pure (h : Q b s) : Ends (pure b : Fallible σ ε β) s Q E := h

theorem ends_throw {e : ε} (h : E e s) : Ends (throw e : Fallible σ ε β) s Q E := h

theorem ends_get {Q : σ → σ → Prop} (h : Q s s) : Ends (get : Fallible σ ε σ) s Q E := h

theorem ends_modify {Q : PUnit → σ → Prop} {f : σ → σ} (h : Q ⟨⟩ (f s)) : Ends (modify f : Fallible σ ε PUnit) s Q E := h

theorem ends_bind {c : Fallible σ ε α} {f : α → Fallible σ ε β}
    (h : Ends c s (fun a s' => Ends (f a) s' Q E) E) : Ends (c >>= f) s Q E := by
  have hexec : (c >>= f).exec s =
      match c.exec s with
      | (.ok a, s') => (f a).exec s'
      | (.error e, s') => (.error e, s') := by
    unfold exec
    simp only [ExceptT.bind, ExceptT.mk, ExceptT.run, StateT.run, bind, StateT.bind]
    cases h : (c s : Except ε α × σ) with
    | mk r s' => cases r <;> rfl
  grind [Ends]

variable {c : Fallible σ ε β}

theorem Ends.ok {s' : σ} (h : Ends c s Q E) (hc : c.exec s = (.ok b, s')) : Q b s' := by
  unfold Ends at h
  rw [hc] at h
  exact h

theorem Ends.error {e : ε} {s' : σ} (h : Ends c s Q E) (hc : c.exec s = (.error e, s')) : E e s' := by
  unfold Ends at h
  rw [hc] at h
  exact h

theorem ends_of (hQ : ∀ b s', c.exec s = (.ok b, s') → Q b s') (hE : ∀ e s', c.exec s = (.error e, s') → E e s') :
    Ends c s Q E := by
  unfold Ends
  split
  · exact hQ _ _ (by assumption)
  · exact hE _ _ (by assumption)

theorem Ends.mono {Q' : β → σ → Prop} {E' : ε → σ → Prop} (h : Ends c s Q E)
    (hQ : ∀ b s', Q b s' → Q' b s') (hE : ∀ e s', E e s' → E' e s') : Ends c s Q' E' :=
  ends_of (fun b s' hc => hQ b s' (h.ok hc)) fun e s' hc => hE e s' (h.error hc)

theorem Ends.imp {Q' : β → σ → Prop} (h : Ends c s Q E) (hQ : ∀ b s', Q b s' → Q' b s') : Ends c s Q' E :=
  h.mono hQ fun _ _ h => h

theorem ends_true (c : Fallible σ ε α) (s : σ) : Ends c s (fun _ _ => True) (fun _ _ => True) :=
  ends_of (fun _ _ _ => trivial) fun _ _ _ => trivial

theorem Ends.and {Q' : β → σ → Prop} {E' : ε → σ → Prop} (h : Ends c s Q E) (h' : Ends c s Q' E') :
    Ends c s (fun b s' => Q b s' ∧ Q' b s') (fun e s' => E e s' ∧ E' e s') :=
  ends_of (fun _ _ hc => ⟨h.ok hc, h'.ok hc⟩) fun _ _ hc => ⟨h.error hc, h'.error hc⟩

theorem Ends.exists_ok (h : Ends c s Q fun _ _ => False) : ∃ b s', c.exec s = (.ok b, s') ∧ Q b s' := by
  cases hc : c.exec s with
  | mk r s' =>
    cases r with
    | ok b => exact ⟨b, s', rfl, h.ok hc⟩
    | error e => exact (h.error hc).elim

theorem Ends.exists_error (h : Ends c s (fun _ _ => False) E) : ∃ e s', c.exec s = (.error e, s') ∧ E e s' := by
  cases hc : c.exec s with
  | mk r s' =>
    cases r with
    | ok b => exact (h.ok hc).elim
    | error e => exact ⟨e, s', rfl, h.error hc⟩

theorem Ends.state {c : Fallible σ ε α} {P : σ → Prop} (h : Ends c s (fun _ => P) (fun _ => P)) : P (c.exec s).2 := by
  cases hc : c.exec s with
  | mk r s' =>
    cases r with
    | ok a => exact h.ok hc
    | error e => exact h.error hc

theorem ends_bind_of {c : Fallible σ ε α} {f : α → Fallible σ ε β} {R : α → σ → Prop} {F : ε → σ → Prop}
    (hc : Ends c s R F) (hf : ∀ a s', R a s' → Ends (f a) s' Q E) (hE : ∀ e s', F e s' → E e s') :
    Ends (c >>= f) s Q E :=
  ends_bind (hc.mono hf hE)

theorem Ends.bind {c : Fallible σ ε α} {f : α → Fallible σ ε β} {R : α → σ → Prop} (hc : Ends c s R E)
    (hf : ∀ a s', R a s' → Ends (f a) s' Q E) : Ends (c >>= f) s Q E :=
  ends_bind (hc.imp hf)

variable {f : β → α → Fallible σ ε β}

section

variable (xs : List α)

theorem ends_foldlM (I : List α → β → σ → Prop)
    (hstep : ∀ x xs b s, I (x :: xs) b s → Ends (f b x) s (I xs) E) (h : I xs b s) :
    Ends (xs.foldlM f b) s (I []) E := by
  induction xs generalizing b s with
  | nil => exact ends_pure h
  | cons x xs ih =>
    exact (hstep x xs b s h).bind fun _ _ h => ih h

theorem ends_forM {f : α → Fallible σ ε PUnit} (I : List α → σ → Prop)
    (hstep : ∀ x xs s, I (x :: xs) s → Ends (f x) s (fun _ => I xs) E) (h : I xs s) :
    Ends (forM xs f) s (fun _ => I []) E := by
  induction xs generalizing s with
  | nil => exact ends_pure h
  | cons x xs ih =>
    exact (hstep x xs s h).bind fun _ _ h => ih h

theorem ends_foldlM_done (I : List α → β → σ → Prop)
    (hstep : ∀ done x rest b s, done ++ x :: rest = xs → I done b s → Ends (f b x) s (I (done ++ [x])) E)
    (h : I [] b s) : Ends (xs.foldlM f b) s (I xs) E := by
  refine (ends_foldlM xs (fun rest b s => ∃ done, done ++ rest = xs ∧ I done b s) ?_ ⟨[], rfl, h⟩).imp ?_
  · rintro x rest b s ⟨done, hdone, hI⟩
    exact (hstep done x rest b s hdone hI).imp fun _ _ hI => ⟨done ++ [x], by simpa using hdone, hI⟩
  · simp [List.append_nil]

theorem ends_forM_done {f : α → Fallible σ ε PUnit} (I : List α → σ → Prop)
    (hstep : ∀ done x rest s, done ++ x :: rest = xs → I done s → Ends (f x) s (fun _ => I (done ++ [x])) E)
    (h : I [] s) : Ends (forM xs f) s (fun _ => I xs) E := by
  refine (ends_forM xs (fun rest s => ∃ done, done ++ rest = xs ∧ I done s) ?_ ⟨[], rfl, h⟩).imp ?_
  · rintro x rest s ⟨done, hdone, hI⟩
    exact (hstep done x rest s hdone hI).imp fun _ _ hI => ⟨done ++ [x], by simpa using hdone, hI⟩
  · simp [List.append_nil]

end

theorem ends_tryCatch {handler : ε → Fallible σ ε β}
    (h : Ends c s Q fun e s' => Ends (handler e) s' Q E) : Ends (tryCatch c handler) s Q E := by
  have hexec : (tryCatch c handler : Fallible σ ε β).exec s =
      match c.exec s with
      | (.ok a, s') => (.ok a, s')
      | (.error e, s') => (handler e).exec s' := by
    show (ExceptT.tryCatch c handler).run.run s = _
    unfold exec
    simp only [ExceptT.tryCatch, ExceptT.mk, ExceptT.run, StateT.run, bind, StateT.bind]
    cases hc : (c s : Except ε β × σ) with
    | mk r s' => cases r <;> rfl
  grind [Ends]

/-! ### Invariants -/

def Keeps (P : σ → Prop) (c : Fallible σ ε α) : Prop := ∀ s, P s → Ends c s (fun _ => P) (fun _ => P)

variable {P : σ → Prop}

theorem keeps_pure (a : α) : Keeps P (pure a : Fallible σ ε α) := fun _ h => h

theorem keeps_throw (e : ε) : Keeps P (throw e : Fallible σ ε α) := fun _ h => h

theorem keeps_get : Keeps P (get : Fallible σ ε σ) := fun _ h => h

theorem keeps_modify {f : σ → σ} (hf : ∀ s, P s → P (f s)) : Keeps P (modify f : Fallible σ ε PUnit) := hf

theorem Keeps.bind {c : Fallible σ ε α} {f : α → Fallible σ ε β} (hc : Keeps P c) (hf : ∀ a, Keeps P (f a)) :
    Keeps P (c >>= f) :=
  fun s h => (hc s h).bind fun a s' h' => hf a s' h'

theorem Keeps.tryCatch {c : Fallible σ ε α} {handler : ε → Fallible σ ε α} (hc : Keeps P c)
    (hh : ∀ e, Keeps P (handler e)) : Keeps P (tryCatch c handler) :=
  fun s h => ends_tryCatch ((hc s h).mono (fun _ _ h' => h') fun e s' h' => hh e s' h')

theorem keeps_forM {f : α → Fallible σ ε PUnit} (xs : List α) (hf : ∀ x ∈ xs, Keeps P (f x)) : Keeps P (forM xs f) := by
  induction xs with
  | nil => exact keeps_pure _
  | cons x xs ih =>
    exact (hf x List.mem_cons_self).bind fun _ => ih fun y hy => hf y (List.mem_cons_of_mem x hy)

theorem keeps_foldlM (xs : List α) (hf : ∀ b, ∀ x ∈ xs, Keeps P (f b x)) (b : β) : Keeps P (xs.foldlM f b) := by
  induction xs generalizing b with
  | nil => exact keeps_pure _
  | cons x xs ih =>
    exact (hf b x List.mem_cons_self).bind fun b' => ih (fun b y hy => hf b y (List.mem_cons_of_mem x hy)) b'

end Fallible

end AstralOS
