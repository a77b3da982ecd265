/-!
# Loops

Two loops that put out one value at every turn. `scan` goes through a list with a state. `sweep`
goes through the places of vectors of one length: its step is given the place alone, and may look up
any vector at any place, also ahead. A vector is looked up behind (`before?`) or along a stretch
(`slice`); `placed` makes one of a list.
-/

namespace Stratagem

variable {σ α β : Type}

/-- The outputs of a state machine over a list. -/
def scan (step : σ → α → σ × β) : σ → List α → List β
  | _, [] => []
  | s, x :: xs =>
    let r := step s x
    r.2 :: scan step r.1 xs

/-- There is one output for every element, so that outputs can be looked up by place. -/
theorem length_scan (step : σ → α → σ × β) (s : σ) (xs : List α) :
    (scan step s xs).length = xs.length := by
  induction xs generalizing s with
  | nil => rfl
  | cons x xs ih => simp [scan, ih]

variable {n : Nat}

/-- The outputs of a loop over the places from 0 to `n - 1`. -/
def sweep (step : σ → Fin n → σ × β) (s : σ) : List β := scan step s (List.finRange n)

/-- The elements of a list by their places. -/
def placed (xs : List α) : Vector α xs.length := ⟨xs.toArray, List.size_toArray⟩

/-- The element before a place; the first place has none. -/
def before? (xs : Vector α n) (i : Fin n) : Option α :=
  if 0 < i.val then some xs[i.val - 1] else none

/-- The elements from a place up to another, which is left out. -/
def slice (xs : Vector α n) (first last : Nat) : List α := (xs.extract first last).toList

end Stratagem
