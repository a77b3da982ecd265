import Stratagem.Proofs.Indicator.Columns
import Stratagem.Proofs.Session.LiveReplay
import Stratagem.Proofs.Session.MarketView

/-!
# Tables and backtests

A table computes an indicator once over a whole history. A backtest over the same history computes
it anew in every tick, over the bars up to then, and reads the last point. If the snapshot can hold
the whole history, the two see the same values, bar for bar (`Engine.binds_row`).

In such a backtest an indicator is always computed over the snapshot (`Exec.after_study_of_long`),
also if that happened before in the same tick (`Run.Onward.known`). So it is its current point over
the bars up to now that decides whether it fails (`Exec.after_enter_indicator`).
-/

namespace Stratagem

variable {σ : Type} {engine : Engine} {feed : Feed σ} {bars : List Bar} {i : Indicator}

/-- The points that a run keeps for an indicator are those over the snapshot that it started with,
if that is long enough by design. -/
theorem Run.Onward.known {r t : Run σ} (onward : r.Onward engine feed t) (fresh : r.studies = [])
    (snapshot : r.context.snapshot = some ⟨engine.symbol, engine.interval, bars⟩)
    (long : i.minBars ≤ engine.historyBars) {source : PriceSource} {points : List Point}
    (found : t.studies.lookup (i, source) = some points) : i.compute source bars = .ok points := by
  obtain ⟨front, back, studies, -⟩ := List.lookup_eq_some_iff.1 found
  have mem : ((i, source), points) ∈ t.studies := by
    rw [studies]
    exact List.mem_append_right _ List.mem_cons_self
  rcases onward.studies _ mem with none | ⟨window, hwindow, made⟩
  · rw [fresh] at none
    cases none
  · cases hwindow with
    | snapshot _ => rwa [snapshot] at made
    | fetched short later answer => exact absurd long (Nat.not_le.2 short)

namespace Exec

variable {t : Run σ}

theorem after_study_of_long {source : PriceSource} (long : i.minBars ≤ engine.historyBars)
    (snapshot : t.context.snapshot = some ⟨engine.symbol, engine.interval, bars⟩)
    (known : ∀ points, t.studies.lookup (i, source) = some points →
      i.compute source bars = .ok points) :
    ∃ studies, (study engine feed i source).after t =
      ((i.compute source bars).mapError .ofShortage, { t with studies := studies }) := by
  rw [study, after_bind, after_get]
  simp only
  cases found : t.studies.lookup (i, source) with
  | some points =>
    rw [known points found]
    exact ⟨t.studies, rfl⟩
  | none =>
    have supplied : (studyBars engine feed i).after t = (.ok bars, t) := by
      rw [studyBars, if_neg (Nat.not_lt.2 long), after_bind, after_get]
      simp only [snapshot]
      rfl
    simp only [after_bind, supplied]
    cases i.compute source bars with
    | error cause => exact ⟨t.studies, rfl⟩
    | ok points => exact ⟨_, rfl⟩

/-- An indicator for which the snapshot is long enough by design binds its current point over the
snapshot. It fails if there is none. -/
theorem after_enter_indicator {name : String} {params : Params} {kind : Kind}
    (named : Kind.ofName? name = some kind) (configured : kind.configure params = .ok i)
    (long : i.minBars ≤ engine.historyBars)
    (snapshot : t.context.snapshot = some ⟨engine.symbol, engine.interval, bars⟩)
    (known : ∀ points, t.studies.lookup (i, params.source) = some points →
      i.compute params.source bars = .ok points)
    (within : t.steps < engine.maxSteps) (target : String) (path : Path) :
    match i.current? params.source bars with
    | none => ∃ e u,
        (enter engine feed (.indicator name params target) path).after t = (.error e, u)
    | some point => ∃ u,
        (enter engine feed (.indicator name params target) path).after t = (.ok (.expand []), u) ∧
          u.context = t.context.bindAll (point.reading.bindings target) := by
  obtain ⟨studies, studied⟩ :=
    @after_study_of_long σ engine feed bars i t.counted params.source long snapshot known
  have entered : (enter engine feed (.indicator name params target) path).after t =
      (do indicator engine feed name params target; return .expand [] :
        Exec σ Entry).after t.counted := by
    rw [enter, after_bind, after_step, if_neg (by omega)]
  rw [entered, after_bind]
  unfold indicator Indicator.current?
  simp only [named, configured, after_bind, studied]
  cases i.compute params.source bars with
  | error cause => exact ⟨_, _, rfl⟩
  | ok points =>
    simp only [Except.mapError, Except.toOption, Option.bind_some]
    cases currentPoint? points with
    | none => exact ⟨_, _, rfl⟩
    | some point => exact ⟨_, rfl, rfl⟩

end Exec

/-- A replay that stands at a bar and answers shows the bars up to it, if those are not too many. -/
theorem Replay.bars_of_feed {r s : Replay} {symbol interval : String} {n count : Nat}
    (h : n < r.bars.length) (all : r.bars.length ≤ count)
    (answer : Replay.feed symbol interval count (r.seek n) = (.ok bars, s)) :
    bars = r.bars.take (n + 1) := by
  by_cases serves : r.Serves symbol interval
  · have none : n + 1 - count = 0 := by omega
    rw [feed_seek serves h, none, List.drop_zero] at answer
    cases answer
    rfl
  · rw [Replay.feed, answer_elsewhere serves] at answer
    cases answer

namespace Engine

variable {tree : Node}

/-- An indicator that is entered in the state `t`, and leaves what is `entered`, binds the row of a
frame at the bar `n`. It fails if the row is empty, and only then; otherwise the names that it binds
get the cells of the row, the target itself the line of the two averages or the middle band or the
only cell, and the names with endings the others. -/
structure BindsRow (frame : Frame) (i : Indicator) (n : Nat) (target : String) (t : Run σ)
    (entered : Except StrategyError Exec.Entry × Run σ) : Prop where
  fails : (∃ e u, entered = (.error e, u)) ↔ frame.EmptyAt n
  binds : ∀ entry u, entered = (.ok entry, u) → ∃ pairs, u.context = t.context.bindAll pairs ∧
    List.Forall₂ (fun x b => b.1 = target ++ x.1 ∧ frame.cell? x.2 n = some b.2)
      i.boundColumns pairs

/-- An indicator binds the row of a frame if its current point is that row, and there is none only
for an empty row. -/
theorem bindsRow_of_current {frame : Frame} {n : Nat} {target : String} {t : Run σ}
    {current : Option Point} {entered : Except StrategyError Exec.Entry × Run σ}
    (empty : frame.EmptyAt n ↔ current = none)
    (full : ∀ point ∈ current, List.Forall₂
      (fun x b => b.1 = target ++ x.1 ∧ frame.cell? x.2 n = some b.2)
      i.boundColumns (point.reading.bindings target))
    (enters : match current with
      | none => ∃ e u, entered = (.error e, u)
      | some point => ∃ u, entered = (.ok (.expand []), u) ∧
          u.context = t.context.bindAll (point.reading.bindings target)) :
    BindsRow frame i n target t entered := by
  cases current with
  | none =>
    obtain ⟨e, u, failed⟩ := enters
    refine ⟨⟨fun _ => empty.2 rfl, fun _ => ⟨e, u, failed⟩⟩, ?_⟩
    intro entry v done
    rw [failed] at done
    cases done
  | some point =>
    obtain ⟨u, done, bound⟩ := enters
    refine ⟨?_, ?_⟩
    · rw [empty, done]
      constructor
      · rintro ⟨e, v, failed⟩
        cases failed
      · intro none
        cases none
    · intro entry v same
      rw [done] at same
      cases same
      exact ⟨_, bound, full point rfl⟩

/-- A backtest binds what the table shows. The frame of a configured indicator over enough bars has
its columns and no others. Whenever, in a backtest over these bars with a snapshot that can hold all
of them, the indicator is entered in the tick at the bar `n` and is not one instruction too many, it
binds the row of the frame at this bar. -/
theorem binds_row {name : String} {params : Params} {kind : Kind}
    (named : Kind.ofName? name = some kind) (configured : kind.configure params = .ok i)
    {replay : Replay} (enough : i.minBars ≤ replay.bars.length)
    (long : replay.bars.length ≤ engine.historyBars) :
    ∃ frame, Frame.ofIndicators replay.bars [(i, params.source)] = .ok frame ∧
      (∀ column, (frame.column? column).isSome = true ↔ column ∈ i.fieldNames) ∧
      ∀ n c s bars a r target path rest t,
        (engine.starts Replay.feed tree .empty replay.places)[n]? = some (c, s) →
        Opens engine Replay.feed tree c s bars a r →
        Exec.ComesBy engine Replay.feed a r ((.indicator name params target, path) :: rest) t →
        t.steps < engine.maxSteps →
        BindsRow frame i n target t
          ((Exec.enter engine Replay.feed (.indicator name params target) path).after t) := by
  have sound : i.Sound := Kind.sound_configure configured
  obtain ⟨frame, made, -, shows⟩ := Frame.shows_ofIndicators sound params.source enough
  refine ⟨frame, made, shows.column?_isSome, ?_⟩
  intro n c s bars a r target path rest t start opens comes within
  have place : replay.places[n]? = some s := by
    rw [← state_getElem?_starts, start, Option.map_some]
  obtain ⟨inside, rfl⟩ := Replay.seek_of_places place
  obtain ⟨snapshot, fresh, answer⟩ := opens.start
  have window : bars = replay.bars.take (n + 1) := Replay.bars_of_feed inside long answer
  have wide : i.minBars ≤ engine.historyBars := Nat.le_trans enough long
  have onward := comes.onward
  have looks := @Exec.after_enter_indicator Replay engine Replay.feed bars i t name params kind
    named configured wide (onward.snapshot.trans snapshot)
    (fun points => onward.known fresh snapshot wide) within target path
  obtain ⟨empty, full⟩ := shows.row sound enough inside
  rw [← window] at empty full
  exact bindsRow_of_current empty (fun point current => full point current target) looks

/-- The second tick of a backtest over three bars, of a strategy that is a single indicator. -/
theorem binds_row_macd :
    let params : Params := { fast := some 1, slow := some 2, signal := some 1 }
    let tree : Node := .indicator "macd" params "m"
    let engine := Engine.ofMarket "BTCUSDT" "1m"
    let replay := Replay.ofBars "BTCUSDT" "1m"
      [⟨⟨0, 0⟩, 1, 2, 1, 2, 5⟩, ⟨⟨60, 0⟩, 2, 4, 2, 3, 5⟩, ⟨⟨120, 0⟩, 3, 9, 3, 9, 5⟩]
    let c := (engine.tick Replay.feed tree .empty (replay.seek 0)).context
    let r := Run.start (engine.renewed (engine.supplied (replay.bars.take 2) c)) (replay.seek 1)
    (Kind.ofName? "macd" = some .macd ∧ Kind.macd.configure params = .ok (.macd 1 2 1) ∧
      (Indicator.macd 1 2 1).minBars ≤ replay.bars.length ∧
      replay.bars.length ≤ engine.historyBars) ∧
    ∃ frame, Frame.ofIndicators replay.bars [(.macd 1 2 1, .close)] = .ok frame ∧
      ¬ frame.EmptyAt 1 ∧ ∃ entry u line signal histogram,
        (Exec.enter engine Replay.feed tree []).after r = (.ok entry, u) ∧
        u.context =
          r.context.bindAll [("m", line), ("m_signal", signal), ("m_histogram", histogram)] ∧
        frame.cell? "MACD" 1 = some line ∧ frame.cell? "MACD_Signal" 1 = some signal ∧
        frame.cell? "MACD_Histogram" 1 = some histogram := by
  intro params tree engine replay c r
  have awake : c.suspension = none := by decide +kernel
  have named : Kind.ofName? "macd" = some .macd := by decide +kernel
  have configured : Kind.macd.configure params = .ok (.macd 1 2 1) := rfl
  have enough : (Indicator.macd 1 2 1).minBars ≤ replay.bars.length := by decide
  have long : replay.bars.length ≤ engine.historyBars := by decide
  have second : (engine.starts Replay.feed tree .empty replay.places)[1]? =
      some (c, replay.seek 1) := rfl
  have serves : replay.Serves engine.symbol engine.interval := ⟨rfl, rfl⟩
  have inside : 1 < replay.bars.length := by decide
  have answer := Replay.feed_seek serves inside engine.historyBars
  obtain ⟨frame, made, -, row⟩ := binds_row named configured enough long
  obtain ⟨fails, binds⟩ := row 1 c _ _ _ r "m" [] [] r second (.cycle answer awake) (.here _ _)
    (by decide)
  have enters : ((Exec.enter engine Replay.feed tree []).after r).1.toOption.isSome = true := by
    decide +kernel
  refine ⟨⟨named, configured, enough, long⟩, frame, made, ?_⟩
  rcases entered : (Exec.enter engine Replay.feed tree []).after r with ⟨e | entry, u⟩
  · rw [entered] at enters
    cases enters
  · obtain ⟨pairs, bound, cells⟩ := binds entry u entered
    refine ⟨fun empty => ?_, entry, u, ?_⟩
    · obtain ⟨e, v, failed⟩ := fails.2 empty
      rw [entered] at failed
      cases failed
    · have names : "m" ++ "" = "m" ∧ "m" ++ "_signal" = "m_signal" ∧
          "m" ++ "_histogram" = "m_histogram" := by decide +kernel
      simp only [Indicator.boundColumns, List.forall₂_cons_left_iff, List.forall₂_nil_left_iff,
        names] at cells
      obtain ⟨⟨_, line⟩, _, ⟨rfl, first⟩, ⟨⟨_, signal⟩, _, ⟨rfl, second⟩,
        ⟨⟨_, histogram⟩, _, ⟨rfl, third⟩, rfl, rfl⟩, rfl⟩, rfl⟩ := cells
      exact ⟨line, signal, histogram, rfl, bound, first, second, third⟩

end Engine

end Stratagem
