import Stratagem.Proofs.Session.LiveReplay

/-!
# Moves of a replay

However a replay is moved, it shows a history bar by bar and never a bar beyond its cursor.

* `Replay.Move` are the two ways to move a replay. A move changes the cursor only and leaves it on
  a bar (`Placed.move`), and so do any number of moves (`placed_moves`).
* `slice?` takes a part of a list and fails where its ends are out of order or outside. The slice
  that a request asks for is never one of these (`Placed.slice?_eq`), and it is what the request is
  answered with (`Placed.answer_eq`).
-/

namespace Stratagem

/-! ## Slices -/

/-- The elements from one place of a list up to another one, if the places are in order and not
behind its end. -/
def slice? {α : Type} (xs : List α) (start stop : Nat) : Option (List α) :=
  if start ≤ stop ∧ stop ≤ xs.length then some ((xs.take stop).drop start) else none

theorem slice?_eq_some {α : Type} {xs : List α} {start stop : Nat} (ordered : start ≤ stop)
    (inside : stop ≤ xs.length) : slice? xs start stop = some ((xs.take stop).drop start) :=
  if_pos ⟨ordered, inside⟩

namespace Replay

/-! ## Moves -/

/-- A way to move a replay. -/
inductive Move
  | seek (index : Nat)
  | advance

/-- The replay after a move. -/
def move (r : Replay) : Move → Replay
  | .seek index => r.seek index
  | .advance => r.advance

/-- The replay after some moves, one after the other. -/
def moves (r : Replay) (ms : List Move) : Replay := ms.foldl move r

/-- The replay shows the same history as another one, and its cursor is on a bar. -/
structure Placed (history r : Replay) : Prop where
  symbol : r.symbol = history.symbol
  interval : r.interval = history.interval
  bars : r.bars = history.bars
  inside : r.cursor < history.bars.length

variable {history r : Replay} {symbol interval : String}

theorem placed_ofBars {bars : List Bar} (some : bars ≠ []) :
    (ofBars symbol interval bars).Placed (ofBars symbol interval bars) :=
  ⟨rfl, rfl, rfl, List.length_pos_iff.2 some⟩

/-- The next bar is one further, and it is refused at the last bar only. -/
theorem Placed.next?_cases (h : history.Placed r) :
    (r.next? = some { r with cursor := r.cursor + 1 } ∧ r.cursor + 1 < history.bars.length) ∨
      (r.next? = none ∧ r.cursor + 1 = history.bars.length) := by
  have inside := h.inside
  unfold next?
  split
  · rename_i more
    rw [h.bars] at more
    exact .inl ⟨rfl, more⟩
  · rename_i last
    rw [h.bars] at last
    exact .inr ⟨rfl, by omega⟩

theorem Placed.seek (h : history.Placed r) (index : Nat) : history.Placed (r.seek index) := by
  refine ⟨h.symbol, h.interval, h.bars, ?_⟩
  have inside := h.inside
  simp only [Replay.seek, h.bars]
  omega

theorem Placed.advance (h : history.Placed r) : history.Placed r.advance := by
  unfold Replay.advance
  rcases h.next?_cases with ⟨next, inside⟩ | ⟨last, -⟩
  · rw [next]
    exact ⟨h.symbol, h.interval, h.bars, inside⟩
  · rw [last]
    exact h

theorem Placed.move (h : history.Placed r) (m : Move) : history.Placed (r.move m) := by
  cases m with
  | seek index => exact h.seek index
  | advance => exact h.advance

theorem placed_moves (h : history.Placed r) (ms : List Move) : history.Placed (r.moves ms) := by
  induction ms generalizing r with
  | nil => exact h
  | cons m ms ih => exact ih (h.move m)

/-! ## Requests -/

/-- The slice of a request ends behind the cursor, and its ends are in order and inside. -/
theorem Placed.slice?_eq (h : history.Placed r) (count : Nat) :
    slice? history.bars (r.cursor + 1 - count) (r.cursor + 1) = some (lastOf count r.visible) := by
  have inside := h.inside
  have length : r.visible.length = r.cursor + 1 := by
    rw [visible, h.bars]
    exact List.length_take_of_le inside
  rw [slice?_eq_some (Nat.sub_le _ _) inside, lastOf, length, visible, h.bars]

theorem Placed.answer_eq (h : history.Placed r) (serves : history.Serves symbol interval)
    (count : Nat) : r.answer symbol interval count = .ok (lastOf count r.visible) := by
  have market : r.Serves symbol interval := by
    rw [Serves, h.symbol, h.interval]
    exact serves
  have loaded : ¬ r.bars.isEmpty = true := by
    rw [h.bars, List.isEmpty_iff]
    exact List.ne_nil_of_length_pos (Nat.zero_lt_of_lt h.inside)
  unfold Serves at market
  rw [answer, if_pos market, if_neg loaded]

theorem lastOf_suffix {α : Type} (count : Nat) (xs : List α) : lastOf count xs <:+ xs :=
  List.drop_suffix _ xs

theorem Placed.length_lastOf (h : history.Placed r) (count : Nat) :
    (lastOf count r.visible).length = min count (r.cursor + 1) := by
  have inside := h.inside
  rw [lastOf, visible, h.bars, List.length_drop, List.length_take_of_le inside]
  omega

/-- However often a replay of some bars is moved, its cursor is on a bar. It moves on by one bar
except at the last one, where it stays and says so. A request for its market, whatever the case of
the symbol, is for a slice that lies inside the history, and is answered with it: as many of the
bars up to the cursor as are asked for, or all of them. -/
theorem on_bar_after_moves (symbol interval : String) {bars : List Bar} (some : bars ≠ [])
    (ms : List Move) :
    let history := ofBars symbol interval bars
    let r := history.moves ms
    r.cursor < bars.length ∧
      (r.next?.isSome ↔ r.advance.cursor = r.cursor + 1) ∧
      (r.next?.isNone ↔ r.cursor + 1 = bars.length) ∧ (r.next?.isNone → r.advance = r) ∧
      ∀ symbol' interval' count, history.Serves symbol' interval' → ∃ shown,
        slice? bars (r.cursor + 1 - count) (r.cursor + 1) = .some shown ∧
          feed symbol' interval' count r = (.ok shown, r) ∧
          shown <:+ bars.take (r.cursor + 1) ∧ shown.length = min count (r.cursor + 1) := by
  intro history r
  have placed : history.Placed r := placed_moves (placed_ofBars some) ms
  refine ⟨placed.inside, ?_⟩
  have advances : (r.next?.isSome ↔ r.advance.cursor = r.cursor + 1) ∧
      (r.next?.isNone ↔ r.cursor + 1 = bars.length) ∧ (r.next?.isNone → r.advance = r) := by
    unfold Replay.advance
    rcases placed.next?_cases with ⟨next, inside⟩ | ⟨last, behind⟩
    · have more : ¬ r.cursor + 1 = bars.length := Nat.ne_of_lt inside
      simp [next, more]
    · rw [last]
      exact ⟨by simp, ⟨fun _ => behind, fun _ => rfl⟩, fun _ => rfl⟩
  refine ⟨advances.1, advances.2.1, advances.2.2, ?_⟩
  intro symbol' interval' count serves
  refine ⟨lastOf count r.visible, placed.slice?_eq count, ?_, ?_, placed.length_lastOf count⟩
  · rw [feed, placed.answer_eq serves]
  · have visible : r.visible = bars.take (r.cursor + 1) := by rw [Replay.visible, placed.bars]; rfl
    exact visible ▸ lastOf_suffix count r.visible

/-- Three bars, and moves past both ends of the history; the market is asked for in lower case. -/
theorem on_bar_after_moves_three_bars :
    let bars : List Bar :=
      [⟨⟨0, 0⟩, 1, 2, 1, 2, 5⟩, ⟨⟨60, 0⟩, 2, 4, 2, 3, 5⟩, ⟨⟨120, 0⟩, 3, 9, 3, 9, 5⟩]
    let history := ofBars "BTCUSDT" "1m" bars
    let r := history.moves [.seek 18446744073709551615, .advance, .seek 0, .advance]
    bars ≠ [] ∧ history.Serves "btcusdt" "1m" ∧ r.cursor = 1 ∧
      (∃ shown, slice? bars 0 2 = some shown ∧ feed "btcusdt" "1m" 7 r = (.ok shown, r) ∧
        shown <:+ bars.take 2 ∧ shown.length = 2) ∧
      (history.moves [.seek 2]).next?.isNone = true ∧ (history.moves [.seek 2]).cursor = 2 := by
  intro bars history r
  have some : bars ≠ [] := List.cons_ne_nil _ _
  have serves : history.Serves "btcusdt" "1m" := ⟨by decide, rfl⟩
  obtain ⟨-, -, -, -, answers⟩ := on_bar_after_moves "BTCUSDT" "1m" some
    [.seek 18446744073709551615, .advance, .seek 0, .advance]
  exact ⟨some, serves, rfl, answers "btcusdt" "1m" 7 serves, rfl, rfl⟩

end Replay

end Stratagem
