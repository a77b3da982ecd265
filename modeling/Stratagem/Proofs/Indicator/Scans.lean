import Mathlib.Data.List.Induction
import Mathlib.Data.List.OfFn
import Stratagem.Indicator.Scan

/-!
# Loops and what they keep

What a loop puts out at a turn depends on the state that it comes to the turn with. Something that
holds of the state at the start and is kept by every turn holds there (`getElem?_scan_of_kept`); a
sweep whose outputs are then known to be a matter of the place is no more than a map over the places
(`sweep_eq_map`).

A scan is given one element after the other, so what it puts out over the first elements does not
depend on the others (`scan_take`). A sweep may look ahead, and nothing of the kind holds of it in
general. What does not look ahead is written `along f xs`: every output is made by `f` of the
elements up to its own.
-/

namespace Stratagem

variable {σ α β : Type} {n : Nat}

/-! ## Scans -/

/-- The state of a machine after a list. -/
def scanState (step : σ → α → σ × β) (s : σ) (xs : List α) : σ :=
  xs.foldl (fun s x => (step s x).1) s

theorem scanState_concat (step : σ → α → σ × β) (s : σ) (xs : List α) (x : α) :
    scanState step s (xs ++ [x]) = (step (scanState step s xs) x).1 := by
  simp [scanState]

theorem scan_take (step : σ → α → σ × β) (s : σ) (n : Nat) (xs : List α) :
    scan step s (xs.take n) = (scan step s xs).take n := by
  induction xs generalizing s n with
  | nil => simp [scan]
  | cons x xs ih =>
    cases n with
    | zero => rfl
    | succ n => simp [scan, ih]

theorem scan_concat (step : σ → α → σ × β) (s : σ) (xs : List α) (x : α) :
    scan step s (xs ++ [x]) = scan step s xs ++ [(step (scanState step s xs) x).2] := by
  induction xs generalizing s with
  | nil => rfl
  | cons y ys ih => simp [scan, scanState, ih]

/-- The output at a place is that of the state after the elements before it. -/
theorem getElem?_scan (step : σ → α → σ × β) (s : σ) (xs : List α) (i : Nat) :
    (scan step s xs)[i]? = xs[i]?.map fun x => (step (scanState step s (xs.take i)) x).2 := by
  induction xs generalizing s i with
  | nil => rfl
  | cons x xs ih =>
    cases i with
    | zero => rfl
    | succ i => simp [scan, scanState, ih]

/-- The output at a place is that of a state of which everything holds that held of the first state
and was kept by the turns before. -/
theorem getElem?_scan_of_kept {step : σ → α → σ × β} {s : σ} {xs : List α}
    (Holds : Nat → σ → Prop) (start : Holds 0 s)
    (next : ∀ i s x, xs[i]? = some x → Holds i s → Holds (i + 1) (step s x).1) {i : Nat} {x : α}
    (h : xs[i]? = some x) : ∃ s', Holds i s' ∧ (scan step s xs)[i]? = some (step s' x).2 := by
  induction xs generalizing s i Holds with
  | nil => cases h
  | cons y ys ih =>
    cases i with
    | zero =>
      cases h
      exact ⟨s, start, rfl⟩
    | succ i =>
      exact ih (fun i => Holds (i + 1)) (next 0 s y rfl start)
        (fun i s x hx => next (i + 1) s x hx) h

/-! ## Looking back only -/

/-- What `f` makes of every element and the elements up to it, its own included. -/
def along (f : α → List α → β) (xs : List α) : List β :=
  (List.finRange xs.length).map fun i : Fin xs.length => f xs[i] (xs.take (i + 1))

@[simp] theorem length_along (f : α → List α → β) (xs : List α) :
    (along f xs).length = xs.length := by
  simp [along]

theorem getElem?_along (f : α → List α → β) (xs : List α) (i : Nat) :
    (along f xs)[i]? = xs[i]?.map fun x => f x (xs.take (i + 1)) := by
  rcases Nat.lt_or_ge i xs.length with inside | behind
  · rw [List.getElem?_eq_getElem inside, List.getElem?_eq_getElem (by simpa using inside)]
    simp [along]
  · rw [List.getElem?_eq_none behind, List.getElem?_eq_none (by simpa using behind)]
    rfl

/-- The last output is made of all elements. -/
theorem getLast?_along (f : α → List α → β) (xs : List α) :
    (along f xs).getLast? = xs.getLast?.map fun x => f x xs := by
  rw [List.getLast?_eq_getElem?, getElem?_along, length_along, ← List.getLast?_eq_getElem?]
  rcases List.eq_nil_or_concat xs with rfl | ⟨before, x, rfl⟩
  · rfl
  · rw [List.take_of_length_le (by omega)]

theorem along_cons (f : α → List α → β) (x : α) (xs : List α) :
    along f (x :: xs) = f x [x] :: (along f (x :: xs)).drop 1 := by
  refine List.ext_getElem? fun i => ?_
  cases i with
  | zero => exact getElem?_along f (x :: xs) 0
  | succ i => rw [List.getElem?_cons_succ, List.getElem?_drop, Nat.add_comm]

/-- What is made of the first elements is the first of what is made of all. -/
theorem along_take (f : α → List α → β) (xs : List α) (n : Nat) :
    along f (xs.take n) = (along f xs).take n := by
  refine List.ext_getElem? fun i => ?_
  rw [getElem?_along, List.take_take]
  rcases Nat.lt_or_ge i n with inside | behind
  · rw [List.getElem?_take_of_lt inside, List.getElem?_take_of_lt inside, getElem?_along,
      Nat.min_eq_left inside]
  · rw [List.getElem?_eq_none (by simp; omega), List.getElem?_eq_none (by simp; omega)]
    rfl

/-- A scan whose state is known after some elements. -/
theorem scan_eq_along {step : σ → α → σ × β} {s : σ} {f : α → List α → β}
    (output : ∀ seen x, (step (scanState step s seen) x).2 = f x (seen ++ [x])) (xs : List α) :
    scan step s xs = along f xs := by
  refine List.ext_getElem? fun i => ?_
  rw [getElem?_scan, getElem?_along]
  cases h : xs[i]? with
  | none => rfl
  | some x =>
    rw [Option.map_some, Option.map_some, output, List.take_add_one, h, Option.toList_some]

/-! ## Sweeps -/

/-- A sweep whose outputs are a matter of the place in every state that it can come by. -/
theorem sweep_eq_map {place : σ → Fin n → σ × β} {s : σ} (Holds : Nat → σ → Prop) {f : Fin n → β}
    (start : Holds 0 s)
    (next : ∀ (i : Fin n) s, Holds i s → Holds (i + 1) (place s i).1 ∧ (place s i).2 = f i) :
    sweep place s = (List.finRange n).map f := by
  have kept : ∀ i s x, (List.finRange n)[i]? = some x → Holds i s →
      Holds (i + 1) (place s x).1 := by
    intro i s x hx h
    obtain ⟨inside, rfl⟩ := List.getElem?_eq_some_iff.1 hx
    rw [List.getElem_finRange]
    exact (next ⟨i, by simpa using inside⟩ s h).1
  refine List.ext_getElem? fun i => ?_
  rw [List.getElem?_map]
  cases hx : (List.finRange n)[i]? with
  | none => rw [sweep, getElem?_scan, hx, Option.map_none, Option.map_none]
  | some x =>
    obtain ⟨s', holds, output⟩ := getElem?_scan_of_kept Holds start kept hx
    obtain ⟨inside, rfl⟩ := List.getElem?_eq_some_iff.1 hx
    rw [sweep, output, Option.map_some, List.getElem_finRange]
    exact congrArg some (next ⟨i, by simpa using inside⟩ s' holds).2

/-- What holds at a place and is kept by every turn from there on holds behind the last place. -/
theorem foldl_drop_finRange {turn : σ → Fin n → σ} (Holds : Nat → σ → Prop) {k : Nat}
    (inside : k ≤ n) {s : σ} (start : Holds k s)
    (next : ∀ (i : Fin n) s, Holds i s → Holds (i + 1) (turn s i)) :
    Holds n (((List.finRange n).drop k).foldl turn s) := by
  obtain ⟨rest, whole⟩ := Nat.exists_eq_add_of_le inside
  induction rest generalizing k s with
  | zero =>
    obtain rfl : n = k := whole
    rwa [List.drop_of_length_le (by simp)]
  | succ rest ih =>
    have inside : k < n := by omega
    rw [List.drop_eq_getElem_cons (by simpa using inside), List.getElem_finRange, List.foldl_cons]
    exact ih inside (next ⟨k, inside⟩ s start) (by omega)

/-! ## Vectors -/

@[simp] theorem getElem_placed (xs : List α) (i : Nat) (inside : i < xs.length) :
    (placed xs)[i] = xs[i] := rfl

@[simp] theorem get_placed (xs : List α) (i : Fin xs.length) : (placed xs).get i = xs.get i := rfl

@[simp] theorem toList_placed (xs : List α) : (placed xs).toList = xs := rfl

/-- The element before a place is the last of those before it. -/
theorem before?_placed (xs : List α) (i : Fin xs.length) :
    before? (placed xs) i = (xs.take i).getLast? := by
  rw [List.getLast?_eq_getElem?, List.length_take_of_le (Nat.le_of_lt i.isLt)]
  unfold before?
  split
  · rw [List.getElem?_take_of_lt (by omega), List.getElem?_eq_getElem (by omega)]
    rfl
  · have first : i.val = 0 := by omega
    simp [first]

theorem slice_eq (xs : Vector α n) (first last : Nat) :
    slice xs first last = (xs.toList.take last).drop first := by
  rw [slice, Vector.toList_extract, List.drop_take]

@[simp] theorem get_ofFn (f : Fin n → α) (i : Fin n) : (Vector.ofFn f).get i = f i :=
  Vector.getElem_ofFn i.isLt

/-- A vector that is made of a list place by place is the list with every element changed. -/
theorem toList_ofFn_map (xs : List α) (f : α → β) :
    (Vector.ofFn fun i => f ((placed xs).get i)).toList = xs.map f := by
  rw [Vector.toList_ofFn]
  exact List.ofFn_getElem_eq_map xs f

/-- One element more of a list. -/
theorem take_succ (xs : List α) (i : Fin xs.length) :
    xs.take (i + 1) = xs.take i ++ [xs.get i] := by
  rw [List.take_add_one, List.getElem?_eq_getElem i.isLt]
  rfl

end Stratagem
