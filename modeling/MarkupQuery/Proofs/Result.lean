/-!
# Results and errors

Steps that can fail are put together one after the other, and the first error ends them. This module
says when what is put together succeeds, and that to change an error, or a value, is the same before
and after.

## Main definitions

* `Refuses`: every error of a result has a property

## Main results

* `bind_eq_ok_iff`, `map_eq_ok_iff`, `mapError_eq_ok_iff`: when steps that are put together succeed
* `bind_eq_error_iff`, `map_eq_error_iff`, `mapError_eq_error_iff`: when they fail
* `mapError_map`, `mapError_bind`, `map_bind`, `map_map`: what is changed of a result commutes
-/

namespace MarkupQuery

variable {ε ε' α β : Type}

/-! ## Success and failure -/

theorem bind_eq_ok_iff {x : Except ε α} {f : α → Except ε β} {b : β} :
    x >>= f = .ok b ↔ ∃ a, x = .ok a ∧ f a = .ok b := by
  cases x with
  | error e => simp [bind, Except.bind]
  | ok a => simp [bind, Except.bind]

theorem map_eq_ok_iff {x : Except ε α} {f : α → β} {b : β} :
    x.map f = .ok b ↔ ∃ a, x = .ok a ∧ f a = b := by
  cases x with
  | error e => simp [Except.map]
  | ok a => simp [Except.map]

theorem map_eq_error_iff {x : Except ε α} {f : α → β} {e : ε} :
    x.map f = .error e ↔ x = .error e := by
  cases x with
  | error e' => simp [Except.map]
  | ok a => simp [Except.map]

theorem mapError_eq_ok_iff {x : Except ε α} {f : ε → ε'} {a : α} :
    x.mapError f = .ok a ↔ x = .ok a := by
  cases x with
  | error e => exact ⟨nofun, nofun⟩
  | ok b =>
    constructor
    · intro h
      cases h
      rfl
    · intro h
      cases h
      rfl

theorem bind_eq_error_iff {x : Except ε α} {f : α → Except ε β} {e : ε} :
    x >>= f = .error e ↔ x = .error e ∨ ∃ a, x = .ok a ∧ f a = .error e := by
  cases x with
  | error e' => simp [bind, Except.bind]
  | ok a => simp [bind, Except.bind]

theorem mapError_eq_error_iff {x : Except ε α} {f : ε → ε'} {e' : ε'} :
    x.mapError f = .error e' ↔ ∃ e, x = .error e ∧ f e = e' := by
  cases x with
  | error e =>
    constructor
    · intro h
      exact ⟨e, rfl, Except.error.inj h⟩
    · rintro ⟨_, ⟨⟩, rfl⟩
      rfl
  | ok a => exact iff_of_false nofun fun ⟨_, h, _⟩ => nomatch h

theorem pure_eq_ok_iff {a b : α} : (pure a : Except ε α) = .ok b ↔ a = b := by
  simp [pure, Except.pure]

/-! ## Changes of a result -/

theorem mapError_map (f : ε → ε') (g : α → β) (x : Except ε α) :
    (x.map g).mapError f = (x.mapError f).map g := by
  cases x <;> rfl

theorem mapError_bind (f : ε → ε') (x : Except ε α) (g : α → Except ε β) :
    (x >>= g).mapError f = x.mapError f >>= fun a => (g a).mapError f := by
  cases x <;> rfl

/-- Steps that end in the same errors, up to a change, do so when they are put together. -/
theorem mapError_bind_congr {ε'' : Type} {f : ε → ε''} {g : ε' → ε''} {x : Except ε α}
    {y : Except ε' α} {k : α → Except ε β} {l : α → Except ε' β}
    (h : x.mapError f = y.mapError g) (hk : ∀ a, (k a).mapError f = (l a).mapError g) :
    (x >>= k).mapError f = (y >>= l).mapError g := by
  rw [mapError_bind, mapError_bind, h]
  exact congrArg _ (funext hk)

theorem mapError_mapError {ε'' : Type} (f : ε → ε') (g : ε' → ε'') (x : Except ε α) :
    (x.mapError f).mapError g = x.mapError fun e => g (f e) := by
  cases x <;> rfl

theorem map_bind (f : α → β) (x : Except ε α) {γ : Type} (g : β → Except ε γ) :
    x.map f >>= g = x >>= fun a => g (f a) := by
  cases x <;> rfl

theorem map_map {γ : Type} (f : α → β) (g : β → γ) (x : Except ε α) :
    (x.map f).map g = x.map fun a => g (f a) := by
  cases x <;> rfl

/-! ## Errors of a kind -/

/-- If the result is an error, it has the property `P`. -/
def Refuses (P : ε → Prop) (x : Except ε α) : Prop := ∀ e, x = .error e → P e

namespace Refuses

variable {P Q : ε → Prop} {x : Except ε α}

theorem ok (a : α) : Refuses P (.ok a : Except ε α) := nofun

theorem error {e : ε} (h : P e) : Refuses P (.error e : Except ε α) := by
  intro e' he
  cases he
  exact h

theorem mono (h : Refuses P x) (hPQ : ∀ e, P e → Q e) : Refuses Q x := fun e he => hPQ e (h e he)

/-- Steps whose errors have a property are put together. -/
theorem bind {f : α → Except ε β} (hx : Refuses P x) (hf : ∀ a, x = .ok a → Refuses P (f a)) :
    Refuses P (x >>= f) := by
  intro e he
  rcases bind_eq_error_iff.mp he with he | ⟨a, ha, he⟩
  · exact hx e he
  · exact hf a ha e he

theorem map (f : α → β) (h : Refuses P x) : Refuses P (x.map f) :=
  fun e he => h e (map_eq_error_iff.mp he)

theorem mapError {P : ε' → Prop} {f : ε → ε'} (h : Refuses (fun e => P (f e)) x) :
    Refuses P (x.mapError f) := by
  intro e he
  obtain ⟨e', he', rfl⟩ := mapError_eq_error_iff.mp he
  exact h e' he'

end Refuses

end MarkupQuery
