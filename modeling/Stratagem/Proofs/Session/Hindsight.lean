import Mathlib.Data.List.Forall2
import Stratagem.Proofs.Session.Blindness
import Stratagem.Session.Backtest

/-!
# Backtests without hindsight

A backtest replays a history bar by bar, and a tick of it must not depend on bars that are still to
come. A replay shows the bars up to its cursor and answers from these alone (`Replay.SameView`), so
ticks over two histories that agree up to some bar cannot be told apart up to that bar
(`Engine.history_take`).

* `Engine.history` is what the ticks of a backtest show, one after the other, and `backtest_eq` says
  that the report is made from it and from nothing else.
* `backtest_without_hindsight` compares a backtest over a history with one over more bars.
-/

namespace Stratagem

namespace Replay

/-! ## What a replay shows -/

/-- Two replays of one market that show the same bars. -/
structure SameView (r s : Replay) : Prop where
  symbol : r.symbol = s.symbol
  interval : r.interval = s.interval
  empty : r.bars.isEmpty = s.bars.isEmpty
  visible : r.visible = s.visible

theorem mirrors_sameView : Feed.Mirrors SameView Replay.feed Replay.feed where
  answer symbol interval count r s same := by
    simp only [feed, answer, same.symbol, same.interval, same.empty, same.visible]
  state _ _ _ _ _ same := same

/-- A request does not move a replay. -/
theorem mirrors_still (r : Replay) :
    Feed.Mirrors (fun s t => s = r ∧ t = r) Replay.feed Replay.feed where
  answer symbol interval count s t still := by rw [still.1, still.2]
  state _ _ _ _ _ still := still

/-- The replay at each of its bars. -/
def places (r : Replay) : List Replay := (List.range r.bars.length).map r.seek

theorem length_places (r : Replay) : r.places.length = r.bars.length := by simp [places]

variable {r : Replay} {i : Nat}

theorem getElem?_places (h : i < r.bars.length) : r.places[i]? = some (r.seek i) := by
  rw [places, List.getElem?_map, List.getElem?_range h, Option.map_some]

theorem seek_of_places {s : Replay} (h : r.places[i]? = some s) :
    i < r.bars.length ∧ r.seek i = s := by
  obtain ⟨inside, -⟩ := List.getElem?_eq_some_iff.1 h
  rw [length_places] at inside
  rw [getElem?_places inside] at h
  exact ⟨inside, Option.some.inj h⟩

theorem seek_cursor (h : i < r.bars.length) : (r.seek i).cursor = i := by
  simp only [seek]
  omega

theorem current?_seek (h : i < r.bars.length) : (r.seek i).current? = some r.bars[i] := by
  unfold current?
  rw [seek_cursor h]
  exact List.getElem?_eq_getElem h

theorem next?_seek (h : i + 1 < r.bars.length) : (r.seek i).next? = some (r.seek (i + 1)) := by
  unfold next?
  rw [seek_cursor (by omega)]
  simp only [seek, h, if_true]
  congr 2
  omega

theorem next?_seek_last (h : i + 1 = r.bars.length) : (r.seek i).next? = none := by
  unfold next?
  rw [seek_cursor (by omega)]
  simp only [seek, h, Nat.lt_irrefl, if_false]

/-- A replay with more bars shows the same until these are reached. -/
theorem sameView_append {symbol interval : String} {b : List Bar} (c : List Bar) (k k' : Nat)
    (h : i < b.length) :
    SameView (seek ⟨symbol, interval, b ++ c, k⟩ i) (seek ⟨symbol, interval, b, k'⟩ i) where
  symbol := rfl
  interval := rfl
  empty := by
    cases b with
    | nil => simp at h
    | cons bar b => rfl
  visible := by
    have longer : i < (b ++ c).length := by rw [List.length_append]; omega
    unfold visible
    rw [seek_cursor (r := ⟨symbol, interval, b ++ c, k⟩) longer,
      seek_cursor (r := ⟨symbol, interval, b, k'⟩) h]
    exact List.take_append_of_le_length h

end Replay

namespace Report

/-- What a tick of a backtest shows: the time of its bar, the result, and the context after it. -/
abbrev Line := Instant × Except StrategyError Outcome × Context

/-- The report with more ticks. -/
def addAll (report : Report) (lines : List Line) : Report :=
  lines.foldl (fun report line => report.add line.1 line.2.1) report

theorem addAll_append (report : Report) (lines later : List Line) :
    report.addAll (lines ++ later) = (report.addAll lines).addAll later := by
  simp only [addAll, List.foldl_append]

theorem decisions_prefix (report : Report) (lines : List Line) :
    report.decisions <+: (report.addAll lines).decisions := by
  induction lines generalizing report with
  | nil => exact List.prefix_refl _
  | cons line lines ih =>
    have first : report.decisions <+: (report.add line.1 line.2.1).decisions := by
      unfold add
      cases line.2.1 with
      | ok outcome => exact List.prefix_append _ _
      | error e => exact List.prefix_refl _
    exact first.trans (ih _)

theorem failures_prefix (report : Report) (lines : List Line) :
    report.failures <+: (report.addAll lines).failures := by
  induction lines generalizing report with
  | nil => exact List.prefix_refl _
  | cons line lines ih =>
    have first : report.failures <+: (report.add line.1 line.2.1).failures := by
      unfold add
      cases line.2.1 with
      | ok outcome => exact List.prefix_refl _
      | error e => exact List.prefix_append _ _
    exact first.trans (ih _)

end Report

namespace Engine

variable {engine : Engine} {tree : Node}

/-! ## The ticks of a backtest -/

/-- What the ticks of a backtest show: one tick for each bar, each in the context that the last one
left. -/
def history (engine : Engine) (tree : Node) (r : Replay) : List Report.Line :=
  (r.bars.map Bar.time).zip ((engine.session Replay.feed tree .empty r.places).map Ticked.shown)

theorem length_history (r : Replay) : (engine.history tree r).length = r.bars.length := by
  simp [history, length_session, Replay.length_places]

/-- A tick of a backtest leaves the replay where it is. -/
theorem feed_tick {c : Context} (fits : c.Fits tree) (r : Replay) :
    (engine.tick Replay.feed tree c r).feed = r :=
  (blind_tick (Replay.mirrors_still r) fits ⟨rfl, rfl⟩).2.1

/-- The loop of a backtest, from a bar on. It leaves the replay at its last bar. -/
theorem backtestFrom_eq (r : Replay) (k i : Nat) (all : i + (k + 1) = r.bars.length) {c : Context}
    (fits : c.Fits tree) (report : Report) :
    engine.backtestFrom tree (k + 1) (r.seek i) c report =
      (report.addAll (((r.bars.drop i).map Bar.time).zip
        ((engine.session Replay.feed tree c ((List.range' i (k + 1)).map r.seek)).map
          Ticked.shown)), r.seek (r.bars.length - 1)) := by
  induction k generalizing i c report with
  | zero =>
    have here : i < r.bars.length := by omega
    have nothing_later : r.bars.drop (i + 1) = [] := List.drop_eq_nil_of_le (by omega)
    rw [backtestFrom, Replay.current?_seek here, List.drop_eq_getElem_cons here, nothing_later,
      List.range'_succ]
    have last : r.bars.length - 1 = i := by omega
    simp only [feed_tick fits, Replay.next?_seek_last all, List.map_cons, session_cons, last]
    generalize engine.tick Replay.feed tree c (r.seek i) = t
    rfl
  | succ k ih =>
    have here : i < r.bars.length := by omega
    have next : i + 1 < r.bars.length := by omega
    rw [backtestFrom, Replay.current?_seek here, List.drop_eq_getElem_cons here, List.range'_succ]
    simp only [feed_tick fits, Replay.next?_seek next, List.map_cons, session_cons]
    rw [ih (i + 1) (by omega) (fits_tick fits _)]
    generalize engine.tick Replay.feed tree c (r.seek i) = t
    rfl

/-- The report of a backtest is made from what its ticks show. -/
theorem backtest_eq (r : Replay) :
    (engine.backtest tree r).1 = Report.empty.addAll (engine.history tree r) := by
  unfold backtest history Replay.places
  cases hbars : r.bars with
  | nil => rfl
  | cons bar bars =>
    have all : 0 + (bars.length + 1) = r.bars.length := by
      rw [hbars, List.length_cons]
      omega
    have loop := congrArg Prod.fst (@backtestFrom_eq engine tree r bars.length 0 all .empty
      (Context.fits_of_awake rfl) .empty)
    simp only [hbars, List.drop_zero] at loop
    rw [List.range_eq_range']
    simp only [List.isEmpty_cons, Bool.false_eq_true, if_false, List.length_cons]
    exact loop

/-! ## More bars -/

/-- What the ticks of a backtest show does not depend on bars that are still to come. -/
theorem history_take (symbol interval : String) (b c : List Bar) (k k' : Nat) :
    (engine.history tree ⟨symbol, interval, b ++ c, k⟩).take b.length =
      engine.history tree ⟨symbol, interval, b, k'⟩ := by
  have first : (Replay.places ⟨symbol, interval, b ++ c, k⟩).take b.length =
      (List.range b.length).map (Replay.seek ⟨symbol, interval, b ++ c, k⟩) := by
    rw [Replay.places, ← List.map_take, List.take_range, List.length_append,
      Nat.min_eq_left (Nat.le_add_right _ _)]
  have related : List.Forall₂ Replay.SameView
      ((List.range b.length).map (Replay.seek ⟨symbol, interval, b ++ c, k⟩))
      (Replay.places ⟨symbol, interval, b, k'⟩) := by
    unfold Replay.places
    rw [List.forall₂_map_left_iff, List.forall₂_map_right_iff, List.forall₂_same]
    intro i hi
    exact Replay.sameView_append c k k' (List.mem_range.1 hi)
  have awake : Context.empty.Fits tree := Context.fits_of_awake rfl
  have shown := @blind_session _ _ _ engine _ _ tree Replay.mirrors_sameView _ awake _ _ related
  unfold history
  rw [List.zip, List.take_zipWith, ← List.map_take, ← List.map_take, session_take, first, shown,
    List.take_left]

/-- A backtest over a history that goes on after the bars `b`, however it does, runs on its first
ticks just as a backtest over `b`: tick by tick, with the same results and the same contexts. So the
decisions and failures of the shorter backtest are the first ones of the longer. -/
theorem backtest_without_hindsight (engine : Engine) (tree : Node) (symbol interval : String)
    (b c c' : List Bar) (k k' : Nat) :
    let short : Replay := ⟨symbol, interval, b, k⟩
    let long : Replay := ⟨symbol, interval, b ++ c, k'⟩
    let other : Replay := ⟨symbol, interval, b ++ c', k'⟩
    ((engine.history tree long).take b.length = engine.history tree short ∧
      (engine.history tree long).take b.length = (engine.history tree other).take b.length) ∧
    ((engine.backtest tree short).1 = Report.empty.addAll (engine.history tree short) ∧
      (engine.backtest tree long).1 = Report.empty.addAll (engine.history tree long) ∧
      (engine.history tree short).length = b.length ∧
      (engine.history tree long).length = (b ++ c).length) ∧
    (engine.backtest tree short).1.decisions <+: (engine.backtest tree long).1.decisions ∧
    (engine.backtest tree short).1.failures <+: (engine.backtest tree long).1.failures := by
  intro short long other
  have same : (engine.history tree long).take b.length = engine.history tree short :=
    history_take symbol interval b c k' k
  have more : (engine.backtest tree long).1 =
      (engine.backtest tree short).1.addAll ((engine.history tree long).drop b.length) := by
    rw [backtest_eq, backtest_eq, ← same, ← Report.addAll_append, List.take_append_drop]
  refine ⟨⟨same, ?_⟩, ⟨backtest_eq short, backtest_eq long, ?_, ?_⟩, ?_, ?_⟩
  · rw [same]
    exact (history_take symbol interval b c' k' k).symm
  · exact length_history short
  · exact length_history long
  · rw [more]
    exact Report.decisions_prefix _ _
  · rw [more]
    exact Report.failures_prefix _ _

end Engine

end Stratagem
