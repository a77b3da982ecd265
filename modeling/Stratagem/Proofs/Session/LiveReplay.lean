import Stratagem.Proofs.Session.Freshness
import Stratagem.Proofs.Session.Hindsight

/-!
# Polling a replay

A polling session and a backtest are two loops. The first asks whether there is a new bar, pauses
between its polls, and records decisions as they are made; the second moves the replay itself and
collects the decisions. Over one history with ascending times they come to the same
(`run_eq_backtest`).

* `Desk.ofReplay` is a replay together with a log that never fails (`Sink`), where a pause moves the
  replay by one bar.
* Every poll finds a new bar and makes the tick that the backtest makes at this bar
  (`poll_ofReplay`), unless the replay is of another market. Then no request is answered, and no
  tick of the backtest goes well (`polls_elsewhere`).
-/

namespace Stratagem

variable {τ : Type}

/-- A log of decisions that never fails. -/
structure Sink (τ : Type) where
  record : Decision → τ → τ
  flush : τ → τ

namespace Sink

/-- The log after the decisions of a tick. -/
def take (k : Sink τ) (log : τ) (batch : List Decision) : τ :=
  k.flush (batch.foldl (fun log d => k.record d log) log)

/-- A log that lists the decisions. -/
def list : Sink (List Decision) := ⟨fun d log => log ++ [d], id⟩

theorem foldl_take_list (batches : List (List Decision)) (log : List Decision) :
    batches.foldl list.take log = log ++ batches.flatten := by
  have take : ∀ batch log, list.take log batch = log ++ batch := by
    intro batch log
    show batch.foldl (fun log d => log ++ [d]) log = log ++ batch
    induction batch generalizing log with
    | nil => simp
    | cons d batch ih => rw [List.foldl_cons, ih, List.append_assoc, List.singleton_append]
  induction batches generalizing log with
  | nil => simp
  | cons batch batches ih => rw [List.foldl_cons, take, ih, List.flatten_cons, List.append_assoc]

end Sink

/-- A replay that moves on by one bar in every pause, next to a log. -/
def Desk.ofReplay (k : Sink τ) : Desk (Replay × τ) where
  feed symbol interval count s := (s.1.answer symbol interval count, s)
  pause s := (s.1.advance, s.2)
  record d s := (.ok (), s.1, k.record d s.2)
  flush s := (.ok (), s.1, k.flush s.2)

/-! ## Decisions tick by tick -/

/-- The decisions of a tick that went well. -/
def batch? (result : Except StrategyError Outcome) : Option (List Decision) :=
  result.toOption.map Outcome.decisions

theorem Report.decisions_addAll (report : Report) (lines : List Report.Line) :
    (report.addAll lines).decisions =
      report.decisions ++ (lines.filterMap fun line => batch? line.2.1).flatten := by
  induction lines generalizing report with
  | nil => simp [addAll]
  | cons line lines ih =>
    have first := ih (report.add line.1 line.2.1)
    rw [addAll, List.foldl_cons, ← addAll, first]
    obtain ⟨time, result, context⟩ := line
    cases result with
    | ok outcome => simp [add, batch?, Except.toOption]
    | error e => simp [add, batch?, Except.toOption]

namespace Engine

/-- The decisions of a backtest, for each tick that went well. -/
def batches (engine : Engine) (tree : Node) (r : Replay) : List (List Decision) :=
  (engine.history tree r).filterMap fun line => batch? line.2.1

variable {engine : Engine} {tree : Node}

theorem flatten_batches (r : Replay) :
    (engine.batches tree r).flatten = (engine.backtest tree r).1.decisions := by
  rw [backtest_eq, Report.decisions_addAll]
  rfl

theorem batches_eq (r : Replay) :
    engine.batches tree r = (engine.session Replay.feed tree .empty r.places).filterMap
      fun t => batch? t.result := by
  have length : ((engine.session Replay.feed tree .empty r.places).map Ticked.shown).length ≤
      (r.bars.map Bar.time).length := by
    simp [length_session, Replay.length_places]
  have shown := List.map_snd_zip length
  have lines : engine.batches tree r = ((engine.history tree r).map Prod.snd).filterMap
      fun shown => batch? shown.1 := by
    rw [List.filterMap_map]
    rfl
  rw [lines, history, shown, List.filterMap_map]
  rfl

end Engine

/-! ## One poll -/

namespace Replay

/-- The replay is of the market that is asked for. -/
def Serves (r : Replay) (symbol interval : String) : Prop :=
  Text.asciiLower symbol = Text.asciiLower r.symbol ∧ interval = r.interval

variable {r : Replay} {symbol interval : String} {i : Nat}

theorem advance_seek (pos : 0 < i) (h : i < r.bars.length) :
    (r.seek (i - 1)).advance = r.seek i := by
  have back : i - 1 + 1 = i := by omega
  have next := @next?_seek r (i - 1) (by omega)
  rw [advance, next, back, Option.getD_some]

/-- A replay that stands at a bar answers with the bars up to it, as many of the last as are asked
for. -/
theorem answer_seek (serves : r.Serves symbol interval) (h : i < r.bars.length) (count : Nat) :
    (r.seek i).answer symbol interval count =
      .ok ((r.bars.take (i + 1)).drop (i + 1 - count)) := by
  have market : (r.seek i).Serves symbol interval := serves
  have loaded : (r.seek i).bars.isEmpty = false := by
    rw [List.isEmpty_eq_false_iff]
    exact List.ne_nil_of_length_pos (Nat.zero_lt_of_lt h)
  have visible : (r.seek i).visible = r.bars.take (i + 1) := by
    rw [visible, seek_cursor h]
    rfl
  have length : (r.bars.take (i + 1)).length = i + 1 := List.length_take_of_le h
  unfold Serves at market
  rw [answer, if_pos market, loaded, visible, lastOf, length]
  rfl

theorem feed_seek (serves : r.Serves symbol interval) (h : i < r.bars.length) (count : Nat) :
    feed symbol interval count (r.seek i) =
      (.ok ((r.bars.take (i + 1)).drop (i + 1 - count)), r.seek i) := by
  rw [feed, answer_seek serves h]

/-- The latest bar of a replay is the one that it stands at. -/
theorem answer_latest (serves : r.Serves symbol interval) (h : i < r.bars.length) :
    (r.seek i).answer symbol interval 1 = .ok [r.bars[i]] := by
  have length : (r.bars.take i).length = i := List.length_take_of_le (Nat.le_of_lt h)
  rw [answer_seek serves h, Nat.add_sub_cancel, List.take_succ_eq_append_getElem h,
    List.drop_left' length]

theorem answer_elsewhere (other : ¬ r.Serves symbol interval) (count : Nat) :
    (r.seek i).answer symbol interval count = .error (.unknownSymbol symbol interval) := by
  have market : ¬ (r.seek i).Serves symbol interval := other
  unfold Serves at market
  rw [answer, if_neg market]

end Replay

namespace Desk

variable {k : Sink τ} {engine : Engine} {tree : Node} {r : Replay} {i : Nat} {log : τ}

theorem recordAll_ofReplay (batch : List Decision) :
    (ofReplay k).recordAll batch (r, log) = (.ok (), r, k.take log batch) := by
  induction batch generalizing log with
  | nil => rfl
  | cons d batch ih =>
    show (ofReplay k).recordAll batch (r, k.record d log) = _
    rw [ih, Sink.take, Sink.take, List.foldl_cons]

/-- The replay of the desk answers as the replay alone does. -/
theorem mirrors_ofReplay (k : Sink τ) (s : Replay × τ) :
    Feed.Mirrors (fun u r => u = s ∧ r = s.1) (ofReplay k).feed Replay.feed where
  answer := by
    rintro symbol interval count _ _ ⟨rfl, rfl⟩
    rfl
  state := by
    rintro symbol interval count _ _ ⟨rfl, rfl⟩
    exact ⟨rfl, rfl⟩

theorem paused_ofReplay (h : i < r.bars.length) (seen : Option Instant) (c : Context) :
    (ofReplay k).paused ⟨i, seen, c⟩ (r.seek (i - 1), log) = (r.seek i, log) := by
  unfold paused
  by_cases pos : 0 < i
  · rw [if_pos pos]
    show ((r.seek (i - 1)).advance, log) = _
    rw [Replay.advance_seek pos h]
  · obtain rfl : i = 0 := by omega
    rfl

/-- A poll finds the next bar to be new, makes the tick that a backtest makes there, and records its
decisions. -/
theorem poll_ofReplay (serves : r.Serves engine.symbol engine.interval) (h : i < r.bars.length)
    {c : Context} (fits : c.Fits tree) {seen : Option Instant}
    (older : ∀ t ∈ seen, t < r.bars[i].time) :
    let t := engine.tick Replay.feed tree c (r.seek i)
    (ofReplay k).poll engine tree ⟨i, seen, c⟩ (r.seek (i - 1), log) =
      (.ok ⟨i + 1, some r.bars[i].time, t.context⟩, r.seek i,
        (batch? t.result).toList.foldl k.take log) := by
  have fresh : Polling.isStale ⟨i, seen, c⟩ (some r.bars[i].time) = false := by
    cases seen with
    | none => rfl
    | some t =>
      have newer : ¬ r.bars[i].time ≤ t := older t rfl
      simpa [Polling.isStale] using newer
  have makes : (ofReplay k).round? engine ⟨i, seen, c⟩ (r.seek (i - 1), log) =
      some ⟨some r.bars[i].time, c, (r.seek i, log)⟩ := by
    unfold round?
    rw [paused_ofReplay h]
    simp only [ofReplay, Replay.answer_latest serves h, lastTime, List.getLast?_singleton,
      Option.map_some, fresh, Bool.false_eq_true, if_false]
  have twins : Ticked.Alike Eq (fun u r' => u = (r.seek i, log) ∧ r' = r.seek i)
      (Round.tick (ofReplay k) engine tree ⟨some r.bars[i].time, c, (r.seek i, log)⟩)
      (engine.tick Replay.feed tree c (r.seek i)) :=
    Engine.twin_tick (mirrors_ofReplay k (r.seek i, log)) fits ⟨rfl, rfl⟩
  rw [poll_of_round makes]
  generalize Round.tick (ofReplay k) engine tree _ = live at twins ⊢
  generalize engine.tick Replay.feed tree c (r.seek i) = t at twins ⊢
  obtain ⟨result, context, feed, -⟩ := twins
  simp only [result, context, feed]
  cases t.result with
  | error e => rfl
  | ok outcome =>
    simp only [recordAll_ofReplay]
    rfl

/-! ## Whole sessions -/

/-- The polls from a bar on make the ticks of a backtest from this bar on. -/
theorem polls_ofReplay (serves : r.Serves engine.symbol engine.interval)
    (ascending : r.bars.Pairwise fun a b => a.time < b.time) (n i : Nat)
    (all : i + n = r.bars.length) {c : Context} (fits : c.Fits tree) {seen : Option Instant}
    (older : ∀ t ∈ seen, ∀ h : i < r.bars.length, t < r.bars[i].time) (log : τ) :
    ∃ seen' c', (ofReplay k).polls engine tree n ⟨i, seen, c⟩ (r.seek (i - 1), log) =
      (.ok ⟨r.bars.length, seen', c'⟩, r.seek (r.bars.length - 1),
        ((engine.session Replay.feed tree c ((List.range' i n).map r.seek)).filterMap
          fun t => batch? t.result).foldl k.take log) := by
  induction n generalizing i c seen log with
  | zero =>
    obtain rfl : i = r.bars.length := all
    exact ⟨seen, c, rfl⟩
  | succ n ih =>
    have h : i < r.bars.length := by omega
    have poll := @poll_ofReplay τ k engine tree r i log serves h c fits seen
      fun t ht => older t ht h
    have newer : ∀ t ∈ some r.bars[i].time, ∀ h : i + 1 < r.bars.length,
        t < r.bars[i + 1].time := by
      rintro t ⟨⟩ later
      exact List.pairwise_iff_getElem.1 ascending i (i + 1) h later (Nat.lt_succ_self i)
    have fits' : (engine.tick Replay.feed tree c (r.seek i)).context.Fits tree :=
      Engine.fits_tick fits (r.seek i)
    obtain ⟨seen', c', rest⟩ := ih (i + 1) (by omega) fits' newer
      ((batch? (engine.tick Replay.feed tree c (r.seek i)).result).toList.foldl k.take log)
    refine ⟨seen', c', ?_⟩
    rw [List.range'_succ, List.map_cons, Engine.session_cons, List.filterMap_cons]
    rw [Nat.add_sub_cancel] at rest
    simp only [polls, poll, rest]
    cases batch? (engine.tick Replay.feed tree c (r.seek i)).result <;> rfl

/-- On a replay of another market no poll finds a bar. -/
theorem polls_elsewhere (other : ¬ r.Serves engine.symbol engine.interval) (n i : Nat)
    (all : i + n = r.bars.length) :
    (ofReplay k).polls engine tree n ⟨i, none, .empty⟩ (r.seek (i - 1), log) =
      (.ok ⟨r.bars.length, none, .empty⟩, r.seek (r.bars.length - 1), log) := by
  induction n generalizing i with
  | zero =>
    obtain rfl : i = r.bars.length := all
    rfl
  | succ n ih =>
    have h : i < r.bars.length := by omega
    have paused := @paused_ofReplay τ k r i log h none .empty
    have idle : (ofReplay k).round? engine ⟨i, none, .empty⟩ (r.seek (i - 1), log) = none := by
      unfold round?
      rw [paused]
      simp only [ofReplay, Replay.answer_elsewhere other]
    have rest := ih (i + 1) (by omega)
    rw [Nat.add_sub_cancel] at rest
    rw [polls, poll_of_idle idle, paused]
    exact rest

end Desk

/-- On a replay of another market no tick of a backtest goes well. -/
theorem Engine.batches_elsewhere {engine : Engine} {tree : Node} {r : Replay}
    (other : ¬ r.Serves engine.symbol engine.interval) : engine.batches tree r = [] := by
  rw [batches_eq, List.filterMap_eq_nil_iff]
  intro t ht
  obtain ⟨x, hx, rfl⟩ := List.mem_map.1 ht
  have place : x.2 ∈ r.places :=
    (starts_induction (P := fun _ => True) (fun _ _ _ _ => trivial) trivial x hx).2
  obtain ⟨i, -, here⟩ := List.mem_map.1 place
  have refused : Replay.feed engine.symbol engine.interval engine.historyBars x.2 =
      (.error (.unknownSymbol engine.symbol engine.interval), x.2) := by
    rw [← here, Replay.feed, Replay.answer_elsewhere other]
  rw [(refused_tick x.1 refused).1]
  rfl

namespace Desk

/-- A polling session over a replay that every pause moves on by one bar takes as many polls as
there are bars, and it records what a backtest over these bars decides: the decisions of every tick
that goes well, tick by tick and in order, whichever other ticks fail or pause. A log that lists
them ends with the decisions of the report. -/
theorem run_eq_backtest (k : Sink τ) (engine : Engine) (tree : Node) (symbol interval : String)
    {bars : List Bar} (ascending : bars.Pairwise fun a b => a.time < b.time) (log : τ) :
    let replay := Replay.ofBars symbol interval bars
    (ofReplay k).run engine tree bars.length (replay, log) =
      (.ok bars.length, replay.seek (bars.length - 1),
        (engine.batches tree replay).foldl k.take log) ∧
    (engine.batches tree replay).flatten = (engine.backtest tree replay).1.decisions ∧
    (ofReplay .list).run engine tree bars.length (replay, []) =
      (.ok bars.length, replay.seek (bars.length - 1),
        (engine.backtest tree replay).1.decisions) := by
  intro replay
  have awake : Context.empty.Fits tree := Context.fits_of_awake rfl
  have runs : ∀ {τ : Type} (k : Sink τ) (log : τ),
      (ofReplay k).run engine tree bars.length (replay, log) =
        (.ok bars.length, replay.seek (bars.length - 1),
          (engine.batches tree replay).foldl k.take log) := by
    intro τ k log
    have start : replay.seek (0 - 1) = replay := by simp [replay, Replay.seek, Replay.ofBars]
    by_cases serves : replay.Serves engine.symbol engine.interval
    · have none_seen : ∀ t ∈ (none : Option Instant), ∀ h : 0 < replay.bars.length,
          t < replay.bars[0].time := by
        rintro t ⟨⟩
      obtain ⟨seen, c, polls⟩ := @polls_ofReplay τ k engine tree replay serves ascending
        bars.length 0 (Nat.zero_add _) .empty awake none none_seen log
      rw [start] at polls
      rw [run, Polling.start, polls, Engine.batches_eq, Replay.places, List.range_eq_range']
      rfl
    · have polls := @polls_elsewhere τ k engine tree replay log serves bars.length 0
        (Nat.zero_add _)
      rw [start] at polls
      rw [run, Polling.start, polls, Engine.batches_elsewhere serves]
      rfl
  refine ⟨runs k log, Engine.flatten_batches replay, ?_⟩
  rw [runs .list [], Sink.foldl_take_list, List.nil_append, Engine.flatten_batches]

/-- A strategy that trades every second tick, over three bars. -/
theorem run_eq_backtest_every_second :
    let tree : Node := .block [.wait (.ticks 1), .order ⟨"BTC", "buy", .var "close", none, none⟩]
    let engine := Engine.ofMarket "BTCUSDT" "1m"
    let bars : List Bar :=
      [⟨⟨0, 0⟩, 1, 2, 1, 2, 5⟩, ⟨⟨60, 0⟩, 2, 4, 2, 3, 5⟩, ⟨⟨120, 0⟩, 3, 9, 3, 9, 5⟩]
    (bars.Pairwise fun a b => a.time < b.time) ∧
      (ofReplay .list).run engine tree bars.length (Replay.ofBars "BTCUSDT" "1m" bars, []) =
        (.ok bars.length, (Replay.ofBars "BTCUSDT" "1m" bars).seek (bars.length - 1),
          (engine.backtest tree (Replay.ofBars "BTCUSDT" "1m" bars)).1.decisions) := by
  intro tree engine bars
  have ascending : bars.Pairwise fun a b => a.time < b.time := by decide
  exact ⟨ascending, (run_eq_backtest Sink.list engine tree "BTCUSDT" "1m" ascending []).2.2⟩

end Desk

end Stratagem
