import Mathlib.Tactic.Ring
import UpdateVault.Error

/-!
# Steps one after the other

How a sequence of steps runs: `bind_ok` and `bind_error` when the first step's result is known,
`bind_eq_ok_iff` when the result of both is, `after_bind` for what holds of the state that is left.
Two sequences whose steps do the same to related states do the same as a whole (`Same.bind`).
-/

namespace UpdateVault.Update

variable {ε σ α β : Type} {x : Update ε σ α} {f : α → Update ε σ β} {s s' : σ}

/-- A step that succeeds hands its result and its state to the next one. -/
theorem bind_ok {a : α} (h : x s = .ok a s') : (x >>= f) s = f a s' := by
  simp only [bind, EStateM.bind, h]

/-- A step that fails is the last one. -/
theorem bind_error {e : ε} (h : x s = .error e s') : (x >>= f) s = .error e s' := by
  simp only [bind, EStateM.bind, h]

/-- A step that looks at the state. -/
theorem get_bind {f : σ → Update ε σ β} : (get >>= f) s = f s s := rfl

/-- A step whose result is not looked at. -/
theorem discard_bind {f : PUnit → Update ε σ β} :
    (discard x >>= f) s = (x >>= fun _ => f ⟨⟩) s := by
  simp only [discard, Functor.mapConst, Function.comp, EStateM.map, bind, EStateM.bind]
  cases x s <;> rfl

/-- Two steps succeed if the first one does, and then the second one. -/
theorem bind_eq_ok_iff {b : β} {s'' : σ} :
    (x >>= f) s = .ok b s'' ↔ ∃ a s', x s = .ok a s' ∧ f a s' = .ok b s'' := by
  constructor
  · intro h
    cases hx : x s with
    | ok a s' => exact ⟨a, s', rfl, by rwa [bind_ok hx] at h⟩
    | error e s' => rw [bind_error hx] at h; cases h
  · rintro ⟨a, s', hx, hf⟩
    rwa [bind_ok hx]

/-- Who has a result has succeeded. -/
theorem exists_ok_of_run' {a : α} (h : EStateM.run' x s = some a) : ∃ s', x s = .ok a s' := by
  delta EStateM.run' EStateM.run at h
  cases hx : x s with
  | ok b s' =>
    rw [hx] at h
    cases h
    exact ⟨s', rfl⟩
  | error e s' =>
    rw [hx] at h
    cases h

/-- A step that is made into another kind of result. -/
theorem map_eq_ok_iff {g : α → β} {b : β} :
    (g <$> x) s = .ok b s' ↔ ∃ a, x s = .ok a s' ∧ b = g a := by
  show EStateM.map g x s = .ok b s' ↔ _
  rw [EStateM.map]
  cases x s with
  | ok a s'' =>
    constructor
    · intro h
      cases h
      exact ⟨a, rfl, rfl⟩
    · rintro ⟨_, ⟨⟩, rfl⟩
      rfl
  | error e s'' =>
    refine iff_of_false nofun ?_
    rintro ⟨_, ⟨⟩, -⟩

/-- So do two steps without a state. -/
theorem except_bind_eq_ok_iff {x : Except ε α} {f : α → Except ε β} {b : β} :
    (x >>= f) = .ok b ↔ ∃ a, x = .ok a ∧ f a = .ok b := by
  cases x with
  | error e =>
    refine iff_of_false nofun ?_
    rintro ⟨a, ha, -⟩
    cases ha
  | ok a =>
    constructor
    · intro h
      exact ⟨a, rfl, h⟩
    · rintro ⟨a', ⟨⟩, h⟩
      exact h

/-- Results that a function makes equal are one error, or values that it makes equal. -/
theorem except_map_eq_cases {f : α → β} {x y : Except ε α} (h : x.map f = y.map f) :
    (∃ e, x = .error e ∧ y = .error e) ∨ ∃ a b, x = .ok a ∧ y = .ok b ∧ f a = f b := by
  cases x with
  | error e =>
    cases y with
    | error e' =>
      cases h
      exact .inl ⟨e, rfl, rfl⟩
    | ok b => cases h
  | ok a =>
    cases y with
    | error e => cases h
    | ok b => exact .inr ⟨a, b, rfl, rfl, Except.ok.inj h⟩

/-- What a step makes of values it makes of one of them. -/
theorem except_mem_of_mapM {f : α → Except ε β} {values : List α} {results : List β}
    (h : values.mapM f = .ok results) {b : β} (hb : b ∈ results) : ∃ a ∈ values, f a = .ok b := by
  induction values generalizing results with
  | nil =>
    cases h
    cases hb
  | cons a rest ih =>
    rw [List.mapM_cons] at h
    obtain ⟨first, ha, h⟩ := except_bind_eq_ok_iff.1 h
    obtain ⟨others, hrest, h⟩ := except_bind_eq_ok_iff.1 h
    cases h
    rcases List.mem_cons.1 hb with rfl | hb
    · exact ⟨a, List.mem_cons_self, ha⟩
    · obtain ⟨later, hlater, hf⟩ := ih hrest hb
      exact ⟨later, List.mem_cons_of_mem _ hlater, hf⟩

/-- A step for each value fails as the step of one of them does. -/
theorem except_mapM_eq_error {f : α → Except ε β} {values : List α} {e : ε}
    (h : values.mapM f = .error e) : ∃ a ∈ values, f a = .error e := by
  induction values with
  | nil => cases h
  | cons a rest ih =>
    rw [List.mapM_cons] at h
    cases ha : f a with
    | error e' =>
      rw [ha] at h
      cases h
      exact ⟨a, List.mem_cons_self, ha⟩
    | ok b =>
      cases hrest : rest.mapM f with
      | error e' =>
        rw [ha, hrest] at h
        cases h
        obtain ⟨later, hlater, hfails⟩ := ih hrest
        exact ⟨later, List.mem_cons_of_mem _ hlater, hfails⟩
      | ok bs =>
        rw [ha, hrest] at h
        cases h

/-! ## The state that is left -/

/-- The state that a step leaves, whether it succeeds or fails. -/
def after (x : Update ε σ α) (s : σ) : σ :=
  match x s with
  | .ok _ s' => s'
  | .error _ s' => s'

theorem after_of_ok {a : α} (h : x s = .ok a s') : x.after s = s' := by rw [after, h]

theorem after_of_error {e : ε} (h : x s = .error e s') : x.after s = s' := by rw [after, h]

/-- What holds after the first step, and of all that the second one does to it, holds after both. -/
theorem after_bind {P : σ → Prop} (h : P (x.after s)) (hf : ∀ a s, P s → P ((f a).after s)) :
    P ((x >>= f).after s) := by
  cases hx : x s with
  | ok a s' =>
    have hfirst : P s' := after_of_ok hx ▸ h
    have hrest := hf a s' hfirst
    rwa [after, bind_ok hx]
  | error e s' =>
    rwa [after_of_error (bind_error hx), ← after_of_error hx]

/-! ## The same steps on two kinds of state -/

variable {τ : Type} {R : σ → τ → Prop} {t : τ}

/-- Both succeed with one result, or both fail with one error, and leave related states. -/
inductive Same (R : σ → τ → Prop) : EStateM.Result ε σ α → EStateM.Result ε τ α → Prop
  | ok {a : α} {s : σ} {t : τ} : R s t → Same R (.ok a s) (.ok a t)
  | error {e : ε} {s : σ} {t : τ} : R s t → Same R (.error e s) (.error e t)

theorem Same.bind {y : Update ε τ α} {g : α → Update ε τ β} (h : Same R (x s) (y t))
    (hnext : ∀ a {s t}, R s t → Same R (f a s) (g a t)) :
    Same R ((x >>= f) s) ((y >>= g) t) := by
  simp only [Bind.bind, EStateM.bind]
  generalize x s = left at h ⊢
  generalize y t = right at h ⊢
  cases h with
  | ok hst => exact hnext _ hst
  | error hst => exact .error hst

section

variable {υ : Type} {S : τ → υ → Prop} {T : σ → υ → Prop} {left : EStateM.Result ε σ α}
  {middle : EStateM.Result ε τ α} {right : EStateM.Result ε υ α}

theorem Same.symm (h : Same R left middle) : Same (fun t s => R s t) middle left := by
  cases h with
  | ok hst => exact .ok hst
  | error hst => exact .error hst

/-- Where one succeeds, the other does too. -/
theorem Same.eq_ok {a : α} {s : σ} (h : Same R left middle) (hleft : left = .ok a s) :
    ∃ t, middle = .ok a t ∧ R s t := by
  subst hleft
  cases h with
  | ok hst => exact ⟨_, rfl, hst⟩

theorem Same.trans (h : Same R left middle) (h' : Same S middle right)
    (hcompose : ∀ {s t u}, R s t → S t u → T s u) : Same T left right := by
  cases h with
  | ok hst =>
    cases h' with
    | ok htu => exact .ok (hcompose hst htu)
  | error hst =>
    cases h' with
    | error htu => exact .error (hcompose hst htu)

end

end UpdateVault.Update
