import Stratagem.Proofs.Indicator.Lookback
import Stratagem.Proofs.Session.Recomputing
import Stratagem.Proofs.Session.TableView

/-!
# Snapshots of different lengths

The bands and the average over a window have a window that slides (`Indicator.Slides`). Such an
indicator is computed over the snapshot or, if the snapshot is too short by design, over an answer
of the feed. Over a replay both end with the same bars, those of the window. So the length of the
snapshot decides where the bars come from and how many older ones come with them, but not what the
instruction leads to (`Engine.forgets_beyond_window`).

`Indicator.latest` is what the instruction looks for, the current point over some bars or the reason
why there is none. It is the same over every stretch of bars that a run can take for the indicator
(`Indicator.Slides.latest_of_window`).
-/

namespace Stratagem

namespace Indicator

/-- The indicators with a window that slides: they look at as many of the last bars as they need. -/
inductive Slides : Indicator → Prop
  | bollinger (period hundredths : Nat) : Slides (.bollinger period hundredths)
  | rolling (size : Nat) : Slides (.vwap (.rolling size))

variable {i : Indicator}

theorem Slides.windowed (h : i.Slides) : i.Windowed := by
  cases h with
  | bollinger period hundredths => exact .bollinger period hundredths
  | rolling size => exact .rolling size

theorem Slides.reach_eq {α : Type} (h : i.Slides) (seen : List (Bar α)) :
    i.reach seen = lastOf i.minBars seen := by
  cases h <;> rfl

/-- The current point of an indicator over some bars, or the error that there is none. -/
def latest (i : Indicator) (source : PriceSource) (bars : List Bar) : Except StrategyError Point :=
  match i.compute source bars with
  | .error cause => .error (.ofShortage cause)
  | .ok points =>
    match currentPoint? points with
    | none => .error (.evaluation (.noCurrentValue i))
    | some point => .ok point

/-- Over more bars than the window holds, the current point is that over the window. -/
theorem Slides.latest_lastOf (h : i.Slides) (source : PriceSource) (bars : List Bar) {count : Nat}
    (long : i.minBars ≤ count) :
    i.latest source (lastOf count bars) = i.latest source (lastOf i.minBars bars) := by
  by_cases few : bars.length < i.minBars
  · rw [lastOf_of_length_le (by omega), lastOf_of_length_le (by omega)]
  · have last : (i.series source (lastOf count bars)).getLast? =
        (i.series source (lastOf i.minBars bars)).getLast? := by
      rw [h.windowed.getLast?_series, h.reach_eq, lastOf_lastOf long]
    have enough : ¬ (lastOf count bars).length < i.minBars := by
      rw [length_lastOf]
      omega
    have enough' : ¬ (lastOf i.minBars bars).length < i.minBars := by
      rw [length_lastOf]
      omega
    unfold latest compute
    rw [if_neg enough, if_neg enough']
    cases i.hasZero with
    | true => rfl
    | false => simp only [Bool.false_eq_true, if_false, currentPoint?, last]

end Indicator

/-! ## Replays -/

namespace Replay

variable {r s : Replay} {symbol interval : String} {count : Nat} {bars : List Bar}

/-- A replay that answers shows the last of the visible bars, as many as are asked for. -/
theorem answer_lastOf (answer : r.answer symbol interval count = .ok bars) (other : Nat) :
    r.answer symbol interval other = .ok (lastOf other r.visible) := by
  unfold Replay.answer at answer ⊢
  split at answer
  · rename_i serves
    rw [if_pos serves]
    split at answer
    · cases answer
    · rename_i loaded
      rw [if_neg loaded]
  · cases answer

/-- Requests do not move a replay. -/
theorem eq_of_leads (h : Replay.feed.Leads symbol interval r s) : s = r := by
  induction h with
  | refl => rfl
  | tail _ asks ih =>
    obtain ⟨_, rfl⟩ := asks
    exact ih

end Replay

/-! ## Runs -/

section

variable {engine : Engine} {i : Indicator} {replay : Replay} {bars : List Bar} {r t : Run Replay}

/-- A run over a replay, seen from a place where it has its snapshot. -/
structure Run.Views (engine : Engine) (replay : Replay) (r : Run Replay) : Prop where
  unmoved : r.feed = replay
  answers : ∀ count, replay.answer engine.symbol engine.interval count =
    .ok (lastOf count replay.visible)
  snapshot : r.context.snapshot =
    some ⟨engine.symbol, engine.interval, lastOf engine.historyBars replay.visible⟩

/-- A tick that opens an agenda views the replay. -/
theorem Engine.Opens.views {tree : Node} {c : Context} {a : Agenda}
    (h : Opens engine Replay.feed tree c replay bars a r) : r.Views engine replay := by
  obtain ⟨snapshot, -, answer⟩ := h.start
  obtain ⟨answered, rfl⟩ := Prod.mk.inj answer
  have shows := Replay.answer_lastOf answered
  rw [shows] at answered
  cases answered
  exact ⟨rfl, shows, snapshot⟩

theorem Run.Views.onward (h : r.Views engine replay) (onward : r.Onward engine Replay.feed t) :
    t.Views engine replay :=
  ⟨(Replay.eq_of_leads onward.moved).trans h.unmoved, h.answers, onward.snapshot.trans h.snapshot⟩

/-- Whichever bars an indicator with a window that slides is computed over in a run over a replay,
its current point is the one over its window. -/
theorem Indicator.Slides.latest_of_window (slides : i.Slides) (views : r.Views engine replay)
    {window : List Bar} (h : i.Window engine Replay.feed r window) (source : PriceSource) :
    i.latest source window = i.latest source (lastOf i.minBars replay.visible) := by
  cases h with
  | snapshot long =>
    rw [views.snapshot]
    exact slides.latest_lastOf source replay.visible long
  | fetched short later answer =>
    rw [Replay.eq_of_leads later, views.unmoved, Replay.feed, views.answers] at answer
    cases answer
    rfl

namespace Exec

/-- In a run over a replay the bars of an indicator are never refused, and getting them changes
nothing. -/
theorem after_studyBars_of_views (views : t.Views engine replay) (i : Indicator) :
    ∃ window, i.Window engine Replay.feed t window ∧
      (studyBars engine Replay.feed i).after t = (.ok window, t) := by
  rw [after_studyBars_eq i views.snapshot]
  split
  · rename_i short
    have answer : Replay.feed engine.symbol engine.interval i.minBars t.feed =
        (.ok (lastOf i.minBars replay.visible), t.feed) := by
      rw [Replay.feed, views.unmoved, views.answers]
    refine ⟨_, .fetched short .refl answer, ?_⟩
    rw [answer]
    rfl
  · rename_i long
    have window : i.Window engine Replay.feed t ((t.context.snapshot.map Snapshot.bars).getD []) :=
      .snapshot (Nat.not_lt.1 long)
    rw [views.snapshot] at window
    exact ⟨_, window, rfl⟩

/-- In a run over a replay an indicator with a window that slides binds its current point over the
window, or fails as there is none. -/
theorem ensures_indicator_of_slides (slides : i.Slides) {name : String} {params : Params}
    {kind : Kind} (named : Kind.ofName? name = some kind)
    (configured : kind.configure params = .ok i) (views : r.Views engine replay)
    (fresh : r.studies = []) (onward : r.Onward engine Replay.feed t) (target : String) :
    (indicator engine Replay.feed name params target).Ensures t
      (fun _ u => ∃ point,
        i.latest params.source (lastOf i.minBars replay.visible) = .ok point ∧
          u.context = t.context.bindAll (point.reading.bindings target))
      (fun e u => i.latest params.source (lastOf i.minBars replay.visible) = .error e ∧
        u.context = t.context) := by
  -- what comes of the points over one of the windows
  have binds : ∀ {points window} {u : Run Replay}, i.Window engine Replay.feed r window →
      i.compute params.source window = .ok points → u.context = t.context →
      (match currentPoint? points with
        | none => refuse (.noCurrentValue i)
        | some point => updateContext fun c => c.bindAll (point.reading.bindings target) :
          Exec Replay Unit).Ensures u
      (fun _ u => ∃ point,
        i.latest params.source (lastOf i.minBars replay.visible) = .ok point ∧
          u.context = t.context.bindAll (point.reading.bindings target))
      (fun e u => i.latest params.source (lastOf i.minBars replay.visible) = .error e ∧
        u.context = t.context) := by
    intro points window u hwindow made context
    rw [← slides.latest_of_window views hwindow, Indicator.latest, made]
    cases current : currentPoint? points with
    | none => exact ensures_refuse.2 ⟨by simp only [current], context⟩
    | some point =>
      exact ensures_updateContext.2 ⟨point, by simp only [current], by rw [context]⟩
  unfold indicator
  simp only [named, configured, study, ensures_bind, ensures_get]
  cases found : t.studies.lookup (i, params.source) with
  | some points =>
    obtain ⟨front, back, studies, -⟩ := List.lookup_eq_some_iff.1 found
    have mem : ((i, params.source), points) ∈ t.studies := by
      rw [studies]
      exact List.mem_append_right _ List.mem_cons_self
    rcases onward.studies _ mem with none | ⟨window, hwindow, made⟩
    · rw [fresh] at none
      cases none
    · exact ensures_pure.2 (binds hwindow made rfl)
  | none =>
    obtain ⟨window, hwindow, supplied⟩ := after_studyBars_of_views (views.onward onward) i
    simp only [ensures_bind]
    rw [ensures_iff, supplied]
    dsimp only
    cases made : i.compute params.source window with
    | error cause =>
      refine ensures_throw.2 ⟨?_, rfl⟩
      rw [← slides.latest_of_window views (onward.window hwindow), Indicator.latest, made]
    | ok points =>
      simp only [ensures_bind, ensures_modify, ensures_pure]
      exact binds (onward.window hwindow) made rfl

/-- What two steps are sure to do with one result is what they do side by side. -/
theorem coupled_of_ensures {σ τ α β : Type} {x : Exec σ α} {y : Exec τ α} {r : Run σ} {t : Run τ}
    (result : Except StrategyError β) {P : β → Run σ → Prop} {P' : β → Run τ → Prop}
    {Q : Run σ → Prop} {Q' : Run τ → Prop} (same : Subsingleton α)
    (left : x.Ensures r (fun _ u => ∃ b, result = .ok b ∧ P b u)
      fun e u => result = .error e ∧ Q u)
    (right : y.Ensures t (fun _ u => ∃ b, result = .ok b ∧ P' b u)
      fun e u => result = .error e ∧ Q' u) :
    x.Coupled y r t (fun _ u u' => ∃ b, P b u ∧ P' b u') fun u u' => Q u ∧ Q' u' := by
  rcases hx : x.after r with ⟨e | a, u⟩
  · obtain ⟨rfl, meets⟩ := left.error hx
    rcases hy : y.after t with ⟨e' | a', u'⟩
    · obtain ⟨failed, meets'⟩ := right.error hy
      cases failed
      exact .error hx hy ⟨meets, meets'⟩
    · obtain ⟨b, made, -⟩ := right.ok hy
      cases made
  · obtain ⟨b, rfl, meets⟩ := left.ok hx
    rcases hy : y.after t with ⟨e' | a', u'⟩
    · cases (right.error hy).1
    · obtain ⟨b', made, meets'⟩ := right.ok hy
      cases made
      obtain rfl := same.elim a a'
      exact .ok hx hy ⟨b, meets, meets'⟩

end Exec

end

/-! ## Two histories, two snapshots -/

namespace Engine

/-- The engine with a snapshot of another length. -/
def recalling (engine : Engine) (count : Nat) : Engine := { engine with historyBars := count }

/-- A windowed indicator remembers nothing beyond its window. Its point at a bar is determined by
the bars of its window there (`Indicator.reach`: the last `period` or `n` of them, or those since
the last change of the day): over two histories that end with the same ones up to two bars, the
points at these bars are the same, and they exist if the parameters make sense. So, over a replay,
the instruction for an indicator whose window slides leads to the same, however long the snapshots
of two engines are and whatever else the two strategies did before: both bind the same numbers, or
both fail with the same error and bind nothing. -/
theorem forgets_beyond_window {α : Type} [Scalar α] (engine : Engine) (replay : Replay) :
    (∀ i : Indicator, i.Windowed → ∀ (source : PriceSource) (bars bars' : List (Bar α)) (n m : Nat),
      n < bars.length → m < bars'.length →
      i.reach (bars.take (n + 1)) = i.reach (bars'.take (m + 1)) →
      (i.series source bars)[n]? = (i.series source bars')[m]? ∧
        (i.Sound → ((i.series source bars)[n]?).isSome = true)) ∧
    ∀ (name : String) (params : Params) (target : String),
      (∀ kind i, Kind.ofName? name = some kind → kind.configure params = .ok i → i.Slides) →
      ∀ h tree c bars a r path rest t h' tree' c' bars' a' r' path' rest' t',
        Opens (engine.recalling h) Replay.feed tree c replay bars a r →
        Exec.ComesBy (engine.recalling h) Replay.feed a r
          ((.indicator name params target, path) :: rest) t →
        Opens (engine.recalling h') Replay.feed tree' c' replay bars' a' r' →
        Exec.ComesBy (engine.recalling h') Replay.feed a' r'
          ((.indicator name params target, path') :: rest') t' →
        (Exec.indicator (engine.recalling h) Replay.feed name params target).Coupled
          (Exec.indicator (engine.recalling h') Replay.feed name params target)
          t.counted t'.counted
          (fun _ u u' => ∃ reading : Reading Float,
            u.context = t.context.bindAll (reading.bindings target) ∧
              u'.context = t'.context.bindAll (reading.bindings target))
          fun u u' => u.context = t.context ∧ u'.context = t'.context := by
  refine ⟨?_, ?_⟩
  · intro i windowed source bars bars' n m inside inside' same
    refine ⟨?_, fun sound => windowed.isSome_getElem?_series sound source inside⟩
    rw [windowed.getElem?_series source inside, windowed.getElem?_series source inside', same]
  · intro name params target slides h tree c bars a r path rest t h' tree' c' bars' a' r' path'
      rest' t' opens comes opens' comes'
    have counts : ∀ {engine : Engine} (t : Run Replay), t.Onward engine Replay.feed t.counted :=
      fun t => Run.onward_of_still rfl rfl rfl rfl
    cases named : Kind.ofName? name with
    | none =>
      unfold Exec.indicator
      simp only [named]
      exact Exec.coupled_throw ⟨rfl, rfl⟩
    | some kind =>
      cases configured : kind.configure params with
      | error fault =>
        unfold Exec.indicator
        simp only [named, configured]
        exact Exec.coupled_throw ⟨rfl, rfl⟩
      | ok i =>
        have binds : ∀ {h tree c bars a r path rest t},
            Opens (engine.recalling h) Replay.feed tree c replay bars a r →
            Exec.ComesBy (engine.recalling h) Replay.feed a r
              ((.indicator name params target, path) :: rest) t → _ :=
          fun opens comes => Exec.ensures_indicator_of_slides (slides kind i named configured) named
            configured opens.views opens.start.2.1 (comes.onward.trans (counts _)) target
        refine (Exec.coupled_of_ensures _ inferInstance (binds opens comes)
          (binds opens' comes')).mono ?_ fun _ _ still => still
        rintro - u u' - ⟨point, bound, bound'⟩
        exact ⟨point.reading, bound, bound'⟩

/-- The average over two bars, in a tick that keeps one bar and has to ask for them, and in a tick
that keeps three. The first bar of the history makes no difference to the points either. -/
theorem forgets_beyond_window_two_lengths :
    let params : Params := { window := some 2 }
    let tree : Node := .indicator "vwap" params "v"
    let engine := Engine.ofMarket "BTCUSDT" "1m"
    let bars : List Bar :=
      [⟨⟨0, 0⟩, 1, 2, 1, 2, 5⟩, ⟨⟨60, 0⟩, 2, 4, 2, 3, 5⟩, ⟨⟨120, 0⟩, 3, 9, 3, 9, 5⟩]
    let replay := (Replay.ofBars "BTCUSDT" "1m" bars).seek 2
    let opening := fun count => Run.start
      ((engine.recalling count).renewed ((engine.recalling count).supplied (lastOf count bars)
        .empty)) replay
    let instruction := fun count =>
      Exec.indicator (engine.recalling count) Replay.feed "vwap" params "v"
    (Indicator.vwap (.rolling 2)).Windowed ∧
      (Indicator.vwap (.rolling 2)).reach (bars.take 3) =
        (Indicator.vwap (.rolling 2)).reach (bars.tail.take 2) ∧
      ((Indicator.vwap (.rolling 2)).series .close bars)[2]? =
        ((Indicator.vwap (.rolling 2)).series .close bars.tail)[1]? ∧
      (engine.recalling 1).historyBars < (Indicator.vwap (.rolling 2)).minBars ∧
      (Indicator.vwap (.rolling 2)).minBars ≤ (engine.recalling 3).historyBars ∧
      (∀ count, Opens (engine.recalling count) Replay.feed tree .empty replay (lastOf count bars)
        [(tree, [])] (opening count)) ∧
      (instruction 1).Coupled (instruction 3) (opening 1).counted (opening 3).counted
        (fun _ u u' => ∃ reading : Reading Float,
          u.context = (opening 1).context.bindAll (reading.bindings "v") ∧
            u'.context = (opening 3).context.bindAll (reading.bindings "v"))
        (fun u u' => u.context = (opening 1).context ∧ u'.context = (opening 3).context) ∧
      ((instruction 1).after (opening 1).counted).1.toOption.isSome = true := by
  intro params tree engine bars replay opening instruction
  have slides : ∀ kind i, Kind.ofName? "vwap" = some kind → kind.configure params = .ok i →
      i.Slides := by
    intro kind i named configured
    have vwap : Kind.ofName? "vwap" = some .vwap := by decide +kernel
    rw [vwap] at named
    cases named
    cases configured
    exact .rolling 2
  have opens : ∀ count, Opens (engine.recalling count) Replay.feed tree .empty replay
      (lastOf count bars) [(tree, [])] (opening count) := by
    intro count
    have serves : (Replay.ofBars "BTCUSDT" "1m" bars).Serves engine.symbol engine.interval :=
      ⟨rfl, rfl⟩
    have inside : 2 < (Replay.ofBars "BTCUSDT" "1m" bars).bars.length := by decide
    exact .cycle (Replay.feed_seek serves inside count) rfl
  obtain ⟨points, instructions⟩ := @forgets_beyond_window Float _ engine replay
  have windowed : (Indicator.vwap (.rolling 2)).Windowed := .rolling 2
  have point := points _ windowed .close bars bars.tail 2 1 (by decide) (by decide) rfl
  have coupled := instructions "vwap" params "v" slides 1 tree .empty _ _ _ _ _ _ 3 tree .empty _ _
    _ _ _ _ (opens 1) (.here _ _) (opens 3) (.here _ _)
  have runs : ((instruction 1).after (opening 1).counted).1.toOption.isSome = true := by
    decide +kernel
  exact ⟨windowed, rfl, point.1, by decide, by decide, opens, coupled, runs⟩

end Engine

end Stratagem
