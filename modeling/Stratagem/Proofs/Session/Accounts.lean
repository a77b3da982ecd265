import Stratagem.Proofs.Session.LiveReplay

/-!
# The accounts of a backtest

The report of a backtest is a summary of its ticks, one for every bar. It can be checked against
them entry by entry (`Engine.Accounts`, `backtest_accounts`).

* `Report.addAll` takes the lines of the ticks one at a time; what it makes of each field of the
  report is said by `ticks_addAll`, `decisions_addAll`, `failures_addAll` and `endedPaused_concat`.
* Whatever a strategy says, its decisions are sound (`sound_of_tick`), and a tick reports a pause if
  the session is paused after it (`pauses_tick`).
-/

namespace Stratagem

variable {σ : Type}

/-! ## Reports -/

/-- The error of a tick that failed. -/
def fault? : Except StrategyError Outcome → Option StrategyError
  | .ok _ => none
  | .error e => some e

/-- Whether a tick reports that the strategy is paused. -/
def pauses : Except StrategyError Outcome → Bool
  | .ok outcome => outcome.pausedAt.isSome
  | .error _ => false

namespace Report

theorem ticks_addAll (report : Report) (lines : List Line) :
    (report.addAll lines).ticks = report.ticks + lines.length := by
  induction lines generalizing report with
  | nil => rfl
  | cons line lines ih =>
    have first : (report.add line.1 line.2.1).ticks = report.ticks + 1 := by
      unfold add
      cases line.2.1 <;> rfl
    rw [addAll, List.foldl_cons, ← addAll, ih, first, List.length_cons]
    omega

theorem failures_addAll (report : Report) (lines : List Line) :
    (report.addAll lines).failures = report.failures ++
      lines.filterMap fun line => (fault? line.2.1).map fun e => (line.1, e) := by
  induction lines generalizing report with
  | nil => simp [addAll]
  | cons line lines ih =>
    have rest := ih (report.add line.1 line.2.1)
    rw [addAll, List.foldl_cons, ← addAll, rest]
    obtain ⟨time, result, context⟩ := line
    cases result with
    | ok outcome => simp [add, fault?]
    | error e => simp [add, fault?]

theorem endedPaused_concat (report : Report) (lines : List Line) (line : Line) :
    (report.addAll (lines ++ [line])).endedPaused = pauses line.2.1 := by
  rw [addAll_append]
  obtain ⟨time, result, context⟩ := line
  cases result <;> rfl

end Report

/-! ## Ticks -/

namespace Exec

variable {engine : Engine} {feed : Feed σ} {n : Node} {path : Path} {r s : Run σ} {more : Agenda}

/-- Only an order adds a decision. -/
theorem Enters.decisions (h : Enters engine feed n path r (.expand more) s) :
    ∀ d ∈ s.decisions, d ∈ r.decisions ∨ ∃ o, r.context.decision o = .ok d := by
  cases h with
  | indicator target path named configured studied current =>
    intro d hd
    cases studied with
    | known found => exact .inl hd
    | computed missing supplied made => exact .inl hd
  | @order o path _ decision decides =>
    intro d hd
    rcases List.mem_append.1 hd with old | new
    · exact .inl old
    · rw [List.mem_singleton.1 new]
      exact .inr ⟨o, decides⟩
  | _ => exact fun d hd => .inl hd

/-- The decisions of a run are sound if those are that it starts with. -/
theorem ensures_perform_sound (a : Agenda) (sound : ∀ d ∈ r.decisions, d.Sound) :
    (perform engine feed a).Ensures r (fun _ s => ∀ d ∈ s.decisions, d.Sound)
      fun _ _ => True := by
  refine ensures_perform (fun _ r => ∀ d ∈ r.decisions, d.Sound) ?_ ?_ ?_ ?_ a r sound
  · intro n path rest r more s sound enters d hd
    rcases enters.decisions d hd with old | ⟨o, decides⟩
    · exact sound d old
    · exact (Context.sound_of_decision decides).1
  · exact fun sound _ => sound
  · exact fun _ _ => trivial
  · exact fun sound => sound

end Exec

namespace Engine

variable {engine : Engine} {feed : Feed σ} {tree : Node} {c : Context}

/-- The decisions of a tick are sound. -/
theorem sound_of_tick (fits : c.Fits tree) {s : σ} {outcome : Outcome}
    (h : (engine.tick feed tree c s).result = .ok outcome) : ∀ d ∈ outcome.decisions, d.Sound := by
  have work : (engine.work feed tree (c.agenda tree)).Ensures (.start c s)
      (fun _ r => ∀ d ∈ r.decisions, d.Sound) fun _ _ => True := by
    have none : ∀ d ∈ ([] : List Decision), d.Sound := fun d hd => by cases hd
    refine ensures_work fits (fun _ _ _ => trivial) ?_ ?_
    · exact fun bars t _ _ => Exec.ensures_perform_sound _ none
    · intro bars t w path pending _ _ _ state
      refine ensures_goOn state (fun _ => trivial) (fun _ _ _ _ => trivial) (fun _ _ => none) ?_
      exact Exec.ensures_perform_sound _ none
  refine ofRun_work (P := fun t => ∀ outcome, t.result = .ok outcome →
    ∀ d ∈ outcome.decisions, d.Sound) fits work ?_ ?_ ?_ outcome h
  · rintro r sound _ ⟨⟩
    exact sound
  · rintro n path rest r sound _ ⟨⟩
    exact sound
  · rintro e r _ _ ⟨⟩

/-- A tick reports a pause if the session is paused after it, and only then. -/
theorem pauses_tick (fits : c.Fits tree) (s : σ) :
    pauses (engine.tick feed tree c s).result =
      (engine.tick feed tree c s).context.suspension.isSome := by
  refine ofRun_work (P := fun t => pauses t.result = t.context.suspension.isSome) fits
    (ensures_work_fits fits s) ?_ ?_ ?_
  · rintro r ⟨fits, left⟩
    show false = r.context.suspension.isSome
    cases paused : r.context.suspension with
    | none => rfl
    | some suspension =>
      obtain ⟨w, here, -⟩ := fits suspension paused
      rw [Context.agenda_of_paused paused here] at left
      cases left
  · rintro n path rest r ⟨-, left⟩
    show true = r.context.suspension.isSome
    cases paused : r.context.suspension with
    | none =>
      rw [Context.agenda_of_awake paused] at left
      cases left
    | some suspension => rfl
  · exact fun e r _ => rfl

/-! ## Backtests -/

theorem last_window {bars : List Bar} {i count : Nat} (h : i < bars.length) (pos : 1 ≤ count) :
    lastTime ((bars.take (i + 1)).drop (i + 1 - count)) = some bars[i].time := by
  have length : (bars.take (i + 1)).length = i + 1 := List.length_take_of_le h
  rw [lastTime, List.getLast?_drop, length, if_neg (by omega),
    List.take_succ_eq_append_getElem h, List.getLast?_concat]
  rfl

/-- It does not matter where the replay stands before a backtest. -/
theorem backtest_cursor {r : Replay} (loaded : r.bars ≠ []) (cursor : Nat) :
    engine.backtest tree { r with cursor := cursor } = engine.backtest tree r := by
  have loaded : r.bars.isEmpty = false := List.isEmpty_eq_false_iff.2 loaded
  unfold backtest
  simp only [loaded, Bool.false_eq_true, if_false]
  rfl

/-- A backtest leaves the replay at its last bar. -/
theorem backtest_replay {r : Replay} (loaded : r.bars ≠ []) :
    (engine.backtest tree r).2 = r.seek (r.bars.length - 1) := by
  have budget : r.bars.length - 1 + 1 = r.bars.length :=
    Nat.sub_add_cancel (List.length_pos_iff.2 loaded)
  have all : 0 + (r.bars.length - 1 + 1) = r.bars.length := by rw [budget, Nat.zero_add]
  have loop := congrArg Prod.snd (@backtestFrom_eq engine tree r _ 0 all .empty
    (Context.fits_of_awake rfl) .empty)
  rw [budget] at loop
  have loaded : r.bars.isEmpty = false := List.isEmpty_eq_false_iff.2 loaded
  unfold backtest
  simp only [loaded, Bool.false_eq_true, if_false]
  exact loop

/-- The lines of a backtest, with the ticks that they are read off. -/
theorem history_eq (r : Replay) :
    engine.history tree r = (r.bars.zip (engine.session Replay.feed tree .empty r.places)).map
      fun x => (x.1.time, x.2.shown) := by
  rw [history, List.zip_map]
  rfl

/-- The tick that a backtest makes at a bar. -/
theorem tick_at_bar {r : Replay} (serves : r.Serves engine.symbol engine.interval)
    (pos : 1 ≤ engine.historyBars) {i : Nat} (h : i < r.bars.length) (fits : c.Fits tree) :
    let t := engine.tick Replay.feed tree c (r.seek i)
    t.context.snapshot = some ⟨engine.symbol, engine.interval,
        (r.bars.take (i + 1)).drop (i + 1 - engine.historyBars)⟩ ∧
      ∀ outcome, t.result = .ok outcome →
        ∀ d ∈ outcome.decisions, d.time = r.bars[i].time ∧ d.Sound := by
  have answer := Replay.feed_seek serves h engine.historyBars
  refine ⟨snapshot_tick c answer, fun outcome result d hd => ⟨?_, sound_of_tick fits result d hd⟩⟩
  have time := time_of_tick answer result d hd
  rw [last_window h pos] at time
  exact (Option.some.inj time).symm

/-- The report of a backtest ends paused if the session does. -/
theorem endedPaused_backtest {r : Replay} (loaded : r.bars ≠ []) :
    (engine.session Replay.feed tree .empty r.places).getLast?.map
        (fun t => t.context.suspension.isSome) =
      some (engine.backtest tree r).1.endedPaused := by
  have length : (engine.session Replay.feed tree .empty r.places).length = r.bars.length := by
    rw [length_session, Replay.length_places]
  have settled : ∀ t ∈ engine.session Replay.feed tree .empty r.places,
      pauses t.result = t.context.suspension.isSome := by
    intro t ht
    obtain ⟨x, hx, rfl⟩ := List.mem_map.1 ht
    exact pauses_tick (fits_starts (Context.fits_of_awake rfl) _ x hx) x.2
  rw [backtest_eq, history_eq]
  generalize engine.session Replay.feed tree .empty r.places = ticks at length settled ⊢
  obtain ⟨bars, bar, hbars⟩ := (List.eq_nil_or_concat' r.bars).resolve_left loaded
  rcases List.eq_nil_or_concat' ticks with rfl | ⟨ticks, t, rfl⟩
  · exact absurd (List.length_eq_zero_iff.1 length.symm) loaded
  · have same : bars.length = ticks.length := by
      rw [hbars, List.length_append, List.length_append] at length
      exact (Nat.add_right_cancel length).symm
    rw [hbars, List.zip_append same, List.map_append, List.getLast?_concat, Option.map_some]
    have ended := Report.endedPaused_concat .empty
      ((bars.zip ticks).map fun x => (x.1.time, x.2.shown)) (bar.time, t.shown)
    rw [← settled t (List.mem_append_right _ (List.mem_singleton_self t))]
    exact congrArg some ended.symm

/-- The tick `t` is the one of a backtest at the bar `i`. It finds the bars up to this one in its
snapshot, as many of the last as the engine keeps. Its decisions are sound and carry the time of the
bar. -/
structure TicksAt (engine : Engine) (tree : Node) (r : Replay) (i : Nat) (bar : Bar)
    (t : Ticked Replay) : Prop where
  made : ∃ c, (engine.starts Replay.feed tree .empty r.places)[i]? = some (c, r.seek i) ∧
    t = engine.tick Replay.feed tree c (r.seek i)
  snapshot : t.context.snapshot = some ⟨engine.symbol, engine.interval,
    (r.bars.take (i + 1)).drop (i + 1 - engine.historyBars)⟩
  decisions : ∀ outcome, t.result = .ok outcome →
    ∀ d ∈ outcome.decisions, d.time = bar.time ∧ d.Sound

/-- The report of a backtest accounts for the ticks of a session that starts in the empty context.
Its decisions are those of the ticks that went well, one tick after the other. Its failures are
those of the other ticks, each with the time of its bar. It ends paused if the session is paused
after the last tick. -/
structure Accounts (r : Replay) (ticks : List (Ticked Replay)) (report : Report) : Prop where
  count : report.ticks = ticks.length
  decisions : report.decisions = (ticks.filterMap fun t => batch? t.result).flatten
  failures : report.failures = (r.bars.zip ticks).filterMap fun x =>
    (fault? x.2.result).map fun e => (x.1.time, e)
  endedPaused : ticks.getLast?.map (fun t => t.context.suspension.isSome) = some report.endedPaused

/-- There is a tick for every bar, oldest first. -/
theorem ticksAt_session {r : Replay} (serves : r.Serves engine.symbol engine.interval)
    (pos : 1 ≤ engine.historyBars) {i : Nat} (h : i < r.bars.length) :
    ∃ t, (engine.session Replay.feed tree .empty r.places)[i]? = some t ∧
      TicksAt engine tree r i r.bars[i] t := by
  obtain ⟨c, start⟩ :=
    @getElem?_starts _ engine Replay.feed tree .empty _ i _ (Replay.getElem?_places h)
  have fits : c.Fits tree :=
    fits_starts (Context.fits_of_awake rfl) _ _ (List.mem_of_getElem? start)
  obtain ⟨snapshot, decisions⟩ := tick_at_bar serves pos h fits
  refine ⟨_, ?_, ⟨c, start, rfl⟩, snapshot, decisions⟩
  rw [getElem?_session, start, Option.map_some]

theorem accounts_backtest {r : Replay} (loaded : r.bars ≠ []) :
    Accounts r (engine.session Replay.feed tree .empty r.places) (engine.backtest tree r).1 where
  count := by
    rw [backtest_eq, Report.ticks_addAll, length_history, length_session, Replay.length_places]
    exact Nat.zero_add _
  decisions := by rw [← flatten_batches, batches_eq]
  failures := by
    rw [backtest_eq, Report.failures_addAll, history_eq, List.filterMap_map]
    rfl
  endedPaused := endedPaused_backtest loaded

/-- A backtest over a history of the market of the engine, wherever the replay stands before, makes
one tick for every bar, oldest first, in one session that starts in the empty context (`TicksAt`),
and its report accounts for these ticks (`Accounts`). The replay is left at its last bar, and
another backtest over it comes to the same. -/
theorem backtest_accounts (engine : Engine) (tree : Node) {r : Replay} (loaded : r.bars ≠ [])
    (serves : r.Serves engine.symbol engine.interval) (pos : 1 ≤ engine.historyBars) :
    let ticks := engine.session Replay.feed tree .empty r.places
    let report := (engine.backtest tree r).1
    ticks.length = r.bars.length ∧
    (∀ i (h : i < r.bars.length), ∃ t,
      ticks[i]? = some t ∧ TicksAt engine tree r i r.bars[i] t) ∧
    Accounts r ticks report ∧
    (∀ cursor, engine.backtest tree { r with cursor := cursor } = engine.backtest tree r) ∧
    (engine.backtest tree r).2 = r.seek (r.bars.length - 1) ∧
    (engine.backtest tree (engine.backtest tree r).2).1 = report := by
  intro ticks report
  have length : ticks.length = r.bars.length := by
    rw [length_session, Replay.length_places]
  refine ⟨length, fun i h => ticksAt_session serves pos h, accounts_backtest loaded,
    backtest_cursor loaded, backtest_replay loaded, ?_⟩
  rw [backtest_replay loaded]
  exact congrArg Prod.fst (backtest_cursor loaded _)

/-- A strategy that waits for a bar before it trades, over four bars: it trades at the second, and
at the fourth it fails, since the price is zero. -/
theorem backtest_accounts_four_bars :
    let tree : Node := .block [.wait (.ticks 1), .order ⟨"BTC", "buy", .var "close", none, none⟩]
    let engine := { Engine.ofMarket "btcusdt" "1m" with historyBars := 2 }
    let replay : Replay := ⟨"BTCUSDT", "1m", [⟨⟨0, 0⟩, 1, 2, 1, 2, 5⟩, ⟨⟨60, 0⟩, 2, 4, 2, 3, 5⟩,
      ⟨⟨120, 0⟩, 3, 9, 3, 0, 5⟩, ⟨⟨180, 0⟩, 3, 9, 3, 0, 5⟩], 3⟩
    let report := (engine.backtest tree replay).1
    replay.bars ≠ [] ∧ replay.Serves engine.symbol engine.interval ∧ 1 ≤ engine.historyBars ∧
      report.ticks = 4 ∧ report.decisions.map Decision.time = [⟨60, 0⟩] ∧
      report.failures.map Prod.fst = [⟨180, 0⟩] ∧ report.endedPaused = false ∧
      (engine.backtest tree (engine.backtest tree replay).2).1 = report := by
  intro tree engine replay report
  have loaded : replay.bars ≠ [] := List.cons_ne_nil _ _
  have serves : replay.Serves engine.symbol engine.interval := ⟨by decide +kernel, rfl⟩
  obtain ⟨length, -, accounts, -, -, again⟩ :=
    backtest_accounts engine tree loaded serves (by decide)
  exact ⟨loaded, serves, by decide, accounts.count.trans length, by decide +kernel,
    by decide +kernel, by decide +kernel, again⟩

end Engine

end Stratagem
