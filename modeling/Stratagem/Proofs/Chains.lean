/-!
# Chains of results

Computations that can fail are chained: the first error is the result. Taken apart, a chain that
gives a value has a value at every link (`bind_eq_ok`), and one that fails has its error at the
first link or further on (`bind_eq_error`). Another wording of the errors changes neither
(`mapError_eq_ok`, `mapError_eq_error`). A reader that can fail goes on with what its first step
gives (`bind_of_eq_some`).
-/

namespace Stratagem

variable {α β ε δ : Type}

theorem bind_eq_ok {x : Except ε α} {f : α → Except ε β} {b : β} :
    (x >>= f) = .ok b ↔ ∃ a, x = .ok a ∧ f a = .ok b := by
  cases x with
  | error e => simp [bind, Except.bind]
  | ok a => simp [bind, Except.bind]

theorem bind_eq_error {x : Except ε α} {f : α → Except ε β} {e : ε} :
    (x >>= f) = .error e ↔ x = .error e ∨ ∃ a, x = .ok a ∧ f a = .error e := by
  cases x with
  | error e' => simp [bind, Except.bind]
  | ok a => simp [bind, Except.bind]

theorem bind_of_eq_some {x : Option α} {a : α} {f : α → Option β} {y : Option β} (h : x = some a)
    (rest : f a = y) : (x >>= f) = y := by
  rw [h]
  exact rest

@[simp] theorem mapError_ok (f : ε → δ) (a : α) : (Except.ok a).mapError f = .ok a := rfl

@[simp] theorem mapError_error (f : ε → δ) (e : ε) :
    (Except.error e : Except ε α).mapError f = .error (f e) := rfl

theorem mapError_eq_ok {x : Except ε α} {f : ε → δ} {a : α} :
    x.mapError f = .ok a ↔ x = .ok a := by
  cases x <;> simp

theorem mapError_eq_error {x : Except ε α} {f : ε → δ} {e : δ} :
    x.mapError f = .error e ↔ ∃ e', x = .error e' ∧ f e' = e := by
  cases x <;> simp

end Stratagem
