import Stratagem.Proofs.Session.Requests
import Stratagem.Session.Polling

/-!
# How often a bar is processed

A poll asks the feed for its latest bar and remembers its time; the strategy then runs on a snapshot
that is asked for separately. If the feed moves in between, the strategy runs on a newer bar than
the one that is remembered, and the next poll finds that bar to be new.

* `Desk.rounds` are the runs of the strategy in a polling session (`poll_of_round`,
  `poll_of_idle`). What a poll is told goes up from round to round (`rounds_fresh`), and so does
  what the snapshots show (`rounds_later`).
* `seen_twice_only_if_moved` says when a bar is processed at most once.
-/

namespace Stratagem

variable {σ : Type}

/-- A run of the strategy in a polling session. -/
structure Round (σ : Type) where
  /-- The time of the latest bar that the poll was told of. -/
  asked : Option Instant
  /-- The context that the tick starts with. -/
  context : Context
  /-- The state that the tick starts in. -/
  state : σ

namespace Desk

variable (desk : Desk σ) (engine : Engine) (tree : Node)

/-- What a session can do between two requests. -/
inductive Moves : σ → σ → Prop
  | request (count : Nat) (s : σ) :
      Moves s (desk.feed engine.symbol engine.interval count s).2
  | pause (s : σ) : Moves s (desk.pause s)
  | record (d : Decision) (s : σ) : Moves s (desk.record d s).2
  | flush (s : σ) : Moves s (desk.flush s).2

/-- What a session can lead to. -/
abbrev Reaches : σ → σ → Prop := Relation.ReflTransGen (desk.Moves engine)

/-- The state in which a poll asks for the latest bar. -/
def paused (p : Polling) (s : σ) : σ := if 0 < p.done then desk.pause s else s

/-- The run of the strategy that a poll makes, if it makes one. -/
def round? (p : Polling) (s : σ) : Option (Round σ) :=
  match desk.feed engine.symbol engine.interval 1 (desk.paused p s) with
  | (.error _, _) => none
  | (.ok bars, s) => if p.isStale (lastTime bars) then none else some ⟨lastTime bars, p.context, s⟩

/-- The runs of the strategy in a number of polls. -/
def rounds : (limit : Nat) → Polling → σ → List (Round σ)
  | 0, _, _ => []
  | limit + 1, p, s =>
    (desk.round? engine p s).toList ++
      match desk.poll engine tree p s with
      | (.ok p, s) => rounds limit p s
      | (.error _, _) => []

end Desk

namespace Round

variable (desk : Desk σ) (engine : Engine) (tree : Node) (round : Round σ)

/-- The answer that becomes the snapshot of the round. -/
def answer : Except FeedError (List Bar) × σ :=
  desk.feed engine.symbol engine.interval engine.historyBars round.state

/-- The time of the latest bar of the snapshot. -/
def seen : Option Instant :=
  match (round.answer desk engine).1 with
  | .ok bars => lastTime bars
  | .error _ => none

/-- The tick of the round. -/
def tick : Ticked σ := engine.tick desk.feed tree round.context round.state

/-- The decisions of the round, which are recorded. -/
def decisions : List Decision :=
  match (round.tick desk engine tree).result with
  | .ok outcome => outcome.decisions
  | .error _ => []

/-- The poll of the round was told its time somewhere after the state `s`. -/
def Told (s : σ) : Prop :=
  ∃ u bars, desk.Reaches engine s u ∧
    desk.feed engine.symbol engine.interval 1 u = (.ok bars, round.state) ∧
    round.asked = lastTime bars

end Round

namespace Desk

variable {desk : Desk σ} {engine : Engine} {tree : Node} {p : Polling} {s : σ} {round : Round σ}

/-! ## Polls and rounds -/

theorem poll_eq (p : Polling) (s : σ) :
    desk.poll engine tree p s =
      match desk.feed engine.symbol engine.interval 1 (desk.paused p s) with
      | (.error _, t) => (.ok { p with done := p.done + 1 }, t)
      | (.ok bars, t) =>
        if p.isStale (lastTime bars) then (.ok { p with done := p.done + 1 }, t)
        else desk.runStrategy engine tree
          ⟨p.done + 1, (lastTime bars).or p.lastSeen, p.context⟩ t := rfl

/-- A poll without a round leaves the context. -/
theorem poll_of_idle (h : desk.round? engine p s = none) :
    desk.poll engine tree p s = (.ok { p with done := p.done + 1 },
      (desk.feed engine.symbol engine.interval 1 (desk.paused p s)).2) := by
  rw [poll_eq]
  unfold round? at h
  generalize desk.feed engine.symbol engine.interval 1 (desk.paused p s) = told at h ⊢
  rcases told with ⟨e | bars, t⟩
  · rfl
  · simp only [ite_eq_left_iff, reduceCtorEq, imp_false, Decidable.not_not] at h
    exact if_pos h

/-- A poll with a round runs its tick and records its decisions. -/
theorem poll_of_round (h : desk.round? engine p s = some round) :
    desk.poll engine tree p s =
      let t := round.tick desk engine tree
      let p' : Polling := ⟨p.done + 1, round.asked.or p.lastSeen, t.context⟩
      match t.result with
      | .error _ => (.ok p', t.feed)
      | .ok outcome =>
        match desk.recordAll outcome.decisions t.feed with
        | (.ok (), s) => (.ok p', s)
        | (.error e, s) => (.error e, s) := by
  rw [poll_eq]
  unfold round? at h
  generalize desk.feed engine.symbol engine.interval 1 (desk.paused p s) = told at h ⊢
  rcases told with ⟨e | bars, t⟩
  · cases h
  · simp only [Option.ite_none_left_eq_some] at h
    obtain ⟨fresh, h⟩ := h
    cases h
    exact if_neg fresh

/-! ## Where a session gets to -/

theorem reaches_of_leads {s t : σ} (h : desk.feed.Leads engine.symbol engine.interval s t) :
    desk.Reaches engine s t :=
  Relation.ReflTransGen.mono (fun s _ ⟨count, asked⟩ => asked ▸ .request count s) _ _ h

theorem reaches_paused (p : Polling) (s : σ) : desk.Reaches engine s (desk.paused p s) := by
  unfold paused
  split
  · exact .single (.pause s)
  · exact .refl

theorem reaches_recordAll (ds : List Decision) (s : σ) :
    desk.Reaches engine s (desk.recordAll ds s).2 := by
  induction ds generalizing s with
  | nil => exact .single (.flush s)
  | cons d ds ih =>
    have first : desk.Reaches engine s (desk.record d s).2 := .single (.record d s)
    unfold recordAll
    rcases hrec : desk.record d s with ⟨e | ⟨⟩, t⟩
    · rwa [hrec] at first
    · rw [hrec] at first
      exact first.trans (ih t)

/-! ## Rounds -/

/-- The round starts in a state that the session reaches. -/
theorem reaches_told (told : round.Told desk engine s) : desk.Reaches engine s round.state := by
  obtain ⟨u, bars, before, answer, -⟩ := told
  have request : desk.Moves engine u _ := .request 1 u
  rw [answer] at request
  exact before.tail request

theorem reaches_answer (round : Round σ) :
    desk.Reaches engine round.state (round.answer desk engine).2 :=
  .single (.request engine.historyBars round.state)

/-- After the request of its snapshot, a round only goes on to ask the feed. -/
theorem reaches_tick (round : Round σ) :
    desk.Reaches engine (round.answer desk engine).2 (round.tick desk engine tree).feed :=
  reaches_of_leads (Engine.leads_tick round.context round.state)

/-- The decisions of a round carry the time of the latest bar that it sees. -/
theorem seen_of_decision (round : Round σ) :
    ∀ d ∈ round.decisions desk engine tree, round.seen desk engine = some d.time := by
  intro d hd
  unfold Round.decisions at hd
  cases result : (round.tick desk engine tree).result with
  | error e =>
    rw [result] at hd
    cases hd
  | ok outcome =>
    rw [result] at hd
    unfold Round.seen Round.answer
    rcases answer : desk.feed engine.symbol engine.interval engine.historyBars round.state
      with ⟨e | bars, t⟩
    · rw [Round.tick, (Engine.refused_tick round.context answer).1] at result
      cases result
    · exact Engine.time_of_tick answer result d hd

/-! ## One poll -/

/-- The round of a poll is told a time that is newer than the one it remembers. -/
theorem told_of_round (h : desk.round? engine p s = some round) :
    round.Told desk engine s ∧ ∀ t ∈ p.lastSeen, ∀ t' ∈ round.asked, t < t' := by
  unfold round? at h
  rcases told : desk.feed engine.symbol engine.interval 1 (desk.paused p s) with ⟨e | bars, u⟩
  · rw [told] at h
    cases h
  · simp only [told, Option.ite_none_left_eq_some] at h
    obtain ⟨fresh, h⟩ := h
    cases h
    refine ⟨⟨_, bars, reaches_paused p s, told, rfl⟩, fun t ht t' ht' stale => fresh ?_⟩
    change lastTime bars = some t' at ht'
    rw [Option.mem_def] at ht
    simp only [Polling.isStale, ht, ht', stale, decide_true]

theorem poll_ok_of_idle (h : desk.round? engine p s = none) {p' : Polling} {s' : σ}
    (hp : desk.poll engine tree p s = (.ok p', s')) :
    p'.lastSeen = p.lastSeen ∧ desk.Reaches engine s s' := by
  rw [poll_of_idle h] at hp
  cases hp
  exact ⟨rfl, (reaches_paused p s).tail (.request 1 _)⟩

/-- A poll with a round remembers what it was told. -/
theorem poll_ok_of_round (h : desk.round? engine p s = some round) {p' : Polling} {s' : σ}
    (hp : desk.poll engine tree p s = (.ok p', s')) :
    p'.lastSeen = round.asked.or p.lastSeen ∧
      desk.Reaches engine (round.tick desk engine tree).feed s' := by
  rw [poll_of_round h] at hp
  simp only at hp
  split at hp
  · cases hp
    exact ⟨rfl, .refl⟩
  · rename_i outcome _
    have recorded := @reaches_recordAll _ desk engine outcome.decisions
      (round.tick desk engine tree).feed
    split at hp
    · rename_i t done
      rw [done] at recorded
      cases hp
      exact ⟨rfl, recorded⟩
    · cases hp

/-- Whether it makes a round or not, a poll that goes well remembers a time that is no older, and
the session goes on from a state that it reaches. -/
theorem poll_ok {p' : Polling} {s' : σ} (hp : desk.poll engine tree p s = (.ok p', s')) :
    desk.Reaches engine s s' ∧ ∀ t ∈ p.lastSeen, ∃ t' ∈ p'.lastSeen, t ≤ t' := by
  cases h : desk.round? engine p s with
  | none =>
    obtain ⟨kept, reaches⟩ := poll_ok_of_idle h hp
    rw [kept]
    exact ⟨reaches, fun t ht => ⟨t, ht, Instant.le_refl t⟩⟩
  | some round =>
    obtain ⟨remembers, reaches⟩ := poll_ok_of_round h hp
    obtain ⟨told, newer⟩ := told_of_round h
    have runs : desk.Reaches engine s (round.tick desk engine tree).feed :=
      ((reaches_told told).trans (reaches_answer round)).trans (reaches_tick round)
    refine ⟨runs.trans reaches, fun t ht => ?_⟩
    rw [remembers]
    cases asked : round.asked with
    | none => exact ⟨t, ht, Instant.le_refl t⟩
    | some t' =>
      exact ⟨t', rfl, (Instant.le_total t t').resolve_right (newer t ht t' asked)⟩

/-! ## Sessions -/

/-- Every round of a session is told a time that is newer than the one remembered at the start. -/
theorem rounds_fresh (limit : Nat) (p : Polling) (s : σ) :
    ∀ round ∈ desk.rounds engine tree limit p s,
      round.Told desk engine s ∧ ∀ t ∈ p.lastSeen, ∀ t' ∈ round.asked, t < t' := by
  induction limit generalizing p s with
  | zero => exact fun _ h => nomatch h
  | succ limit ih =>
    intro round h
    rcases List.mem_append.1 h with first | later
    · exact told_of_round (Option.mem_toList.1 first)
    · split at later
      · rename_i p' s' hp
        obtain ⟨reaches, remembers⟩ := poll_ok hp
        obtain ⟨⟨u, bars, before, answer⟩, newer⟩ := ih p' s' round later
        refine ⟨⟨u, bars, reaches.trans before, answer⟩, fun t ht t' ht' old => ?_⟩
        obtain ⟨seen, hseen, le⟩ := remembers t ht
        exact newer seen hseen t' ht' (Instant.le_trans old le)
      · cases later

/-- A later round is told its time after the tick of an earlier one, and it is told a newer time. -/
theorem rounds_later (limit : Nat) (p : Polling) (s : σ) :
    (desk.rounds engine tree limit p s).Pairwise fun a b =>
      b.Told desk engine (a.tick desk engine tree).feed ∧
        ∀ t ∈ a.asked, ∀ t' ∈ b.asked, t < t' := by
  induction limit generalizing p s with
  | zero => exact .nil
  | succ limit ih =>
    refine List.pairwise_append.2 ⟨?_, ?_, fun a first b later => ?_⟩
    · cases desk.round? engine p s with
      | none => exact .nil
      | some round => exact List.pairwise_singleton _ _
    · split
      · exact ih _ _
      · exact .nil
    · split at later
      · rename_i p' s' hp
        obtain ⟨remembers, reaches⟩ := poll_ok_of_round (Option.mem_toList.1 first) hp
        obtain ⟨⟨u, bars, before, answer⟩, newer⟩ := rounds_fresh limit p' s' b later
        refine ⟨⟨u, bars, reaches.trans before, answer⟩, fun t ht => newer t ?_⟩
        rw [remembers, Option.mem_def.1 ht]
        rfl
      · cases later

/-- The latest time that a round sees is that of the last bar that it was sent. -/
theorem answer_of_seen {t : Instant} (h : t ∈ round.seen desk engine) :
    ∃ bars, desk.feed engine.symbol engine.interval engine.historyBars round.state =
      (.ok bars, (round.answer desk engine).2) ∧ t ∈ lastTime bars := by
  unfold Round.seen at h
  split at h
  · rename_i bars answer
    exact ⟨bars, Prod.ext answer rfl, h⟩
  · cases h

/-- What a round sees is no older than what it was told. -/
theorem asked_le_seen (ascends : desk.feed.Ascends engine.symbol engine.interval
    (desk.Moves engine) s) (told : round.Told desk engine s) :
    ∀ t ∈ round.asked, ∀ t' ∈ round.seen desk engine, t ≤ t' := by
  obtain ⟨u, bars, before, answer, asked⟩ := told
  intro t ht t' ht'
  rw [asked] at ht
  obtain ⟨later, answer', ht'⟩ := answer_of_seen ht'
  exact ascends _ _ _ _ _ _ _ _ before answer .refl answer' t ht t' ht'

/-- What a later round is told is no older than what an earlier one saw. -/
theorem seen_le_asked {a b : Round σ} (ascends : desk.feed.Ascends engine.symbol engine.interval
    (desk.Moves engine) s) (told : a.Told desk engine s)
    (later : b.Told desk engine (a.tick desk engine tree).feed) :
    ∀ t ∈ a.seen desk engine, ∀ t' ∈ b.asked, t ≤ t' := by
  obtain ⟨u, bars, between, answer', asked⟩ := later
  intro t ht t' ht'
  rw [asked] at ht'
  obtain ⟨first, answer, ht⟩ := answer_of_seen ht
  exact ascends _ _ _ _ _ _ _ _ (reaches_told told) answer ((reaches_tick a).trans between)
    answer' t ht t' ht'

/-- What a later round sees is no older than what an earlier one saw. -/
theorem seen_le_seen {a b : Round σ} (ascends : desk.feed.Ascends engine.symbol engine.interval
    (desk.Moves engine) s) (told : a.Told desk engine s)
    (later : b.Told desk engine (a.tick desk engine tree).feed) :
    ∀ t ∈ a.seen desk engine, ∀ t' ∈ b.seen desk engine, t ≤ t' := by
  intro t ht t' ht'
  obtain ⟨first, answer, ht⟩ := answer_of_seen ht
  obtain ⟨second, answer', ht'⟩ := answer_of_seen ht'
  exact ascends _ _ _ _ _ _ _ _ (reaches_told told) answer
    ((reaches_tick a).trans (reaches_told later)) answer' t ht t' ht'

/-- If what the feed answers does not go back in time, a later run of the strategy sees a newer bar
than an earlier one, with two exceptions: the poll of the later run was told of no bar at all, or
the feed moved between the two requests of the earlier run, whose poll was told of an older bar than
the run saw. The decisions of a run carry the time of the bar that it saw. -/
theorem seen_twice_only_if_moved (desk : Desk σ) (engine : Engine) (tree : Node) (limit : Nat)
    (s : σ) (ascends : desk.feed.Ascends engine.symbol engine.interval (desk.Moves engine) s) :
    (desk.rounds engine tree limit .start s).Pairwise (fun a b =>
      ∀ t ∈ a.seen desk engine, ∀ t' ∈ b.seen desk engine, t < t' ∨
        t = t' ∧ (b.asked = none ∨ b.asked = some t ∧ a.asked ≠ some t)) ∧
    ∀ round ∈ desk.rounds engine tree limit .start s,
      ∀ d ∈ round.decisions desk engine tree, round.seen desk engine = some d.time := by
  refine ⟨?_, fun round _ => seen_of_decision round⟩
  have told : ∀ a ∈ desk.rounds engine tree limit .start s, a.Told desk engine s :=
    fun a ha => (rounds_fresh limit .start s a ha).1
  refine (rounds_later limit .start s).imp_of_mem fun {a b} ha hb ⟨later, newer⟩ t ht t' ht' => ?_
  have order : t ≤ t' := seen_le_seen ascends (told a ha) later t ht t' ht'
  by_cases back : t' ≤ t
  · obtain rfl := Instant.le_antisymm order back
    refine .inr ⟨rfl, ?_⟩
    cases asked : b.asked with
    | none => exact .inl rfl
    | some u =>
      have least : t ≤ u := seen_le_asked ascends (told a ha) later t ht u asked
      have most : u ≤ t := asked_le_seen ascends (told b hb) u asked t ht'
      obtain rfl := Instant.le_antisymm least most
      exact .inr ⟨rfl, fun same => newer t same t asked (Instant.le_refl t)⟩
  · exact .inl back

/-! ## A session that processes a bar twice -/

/-- A session over a market that moves after the first request. It keeps the decisions that it
records. -/
def arriving : Desk (Nat × List Decision) where
  feed symbol interval count s :=
    ((Feed.arriving symbol interval count s.1).1, s.1 + 1, s.2)
  pause s := s
  record d s := (.ok (), s.1, s.2 ++ [d])
  flush s := (.ok (), s)

theorem ascends_arriving (engine : Engine) :
    arriving.feed.Ascends engine.symbol engine.interval (arriving.Moves engine) (0, []) := by
  refine Feed.ascends_of_clock (fun s => Feed.arrivingClock s.1) ?_ ?_ _
  · intro s t move
    cases move with
    | request => exact Feed.arrivingClock_mono (Nat.le_succ s.1)
    | pause | record | flush => exact Instant.le_refl _
  · rintro ⟨asked, log⟩ n bars t answer time htime
    cases answer
    obtain ⟨-, told⟩ := Feed.told_arriving engine.symbol engine.interval
      (show Feed.arriving engine.symbol engine.interval n asked = (.ok _, asked + 1) from rfl)
    rw [told time htime]
    exact ⟨Instant.le_refl _, Feed.arrivingClock_mono (Nat.le_succ asked)⟩

theorem seen_twice_only_if_moved_arriving :
    let engine := Engine.ofMarket "BTCUSDT" "1m"
    let tree : Node := .order ⟨"BTC", "buy", .number 1, none, none⟩
    arriving.feed.Ascends engine.symbol engine.interval (arriving.Moves engine) (0, []) ∧
    (arriving.rounds engine tree 2 .start (0, [])).Pairwise (fun a b =>
      ∀ t ∈ a.seen arriving engine, ∀ t' ∈ b.seen arriving engine, t < t' ∨
        t = t' ∧ (b.asked = none ∨ b.asked = some t ∧ a.asked ≠ some t)) :=
  ⟨ascends_arriving _, (seen_twice_only_if_moved _ _ _ 2 _ (ascends_arriving _)).1⟩

/-- The market moves between the two requests of the first poll. The second poll takes the new bar,
which the first run saw, for one that has not been processed, and its decision is recorded again.
A feed that has no bars lets every poll run the strategy. -/
theorem records_twice :
    let engine := Engine.ofMarket "BTCUSDT" "1m"
    let tree : Node := .order ⟨"BTC", "buy", .number 1, none, none⟩
    let silent : Desk Unit :=
      ⟨fun _ _ _ s => (.ok [], s), id, fun _ s => (.ok (), s), fun s => (.ok (), s)⟩
    (arriving.feed.Ascends engine.symbol engine.interval (arriving.Moves engine) (0, []) ∧
      (arriving.rounds engine tree 2 .start (0, [])).map (·.asked) = [some ⟨0, 0⟩, some ⟨60, 0⟩] ∧
      (arriving.rounds engine tree 2 .start (0, [])).map (·.seen arriving engine) =
        [some ⟨60, 0⟩, some ⟨60, 0⟩] ∧
      (arriving.run engine tree 2 (0, [])).2.2.map Decision.time = [⟨60, 0⟩, ⟨60, 0⟩]) ∧
    (silent.rounds engine tree 2 .start ()).map (·.seen silent engine) = [none, none] := by
  intro engine tree silent
  refine ⟨⟨ascends_arriving engine, ?_, ?_, ?_⟩, ?_⟩ <;> decide +kernel

end Desk

end Stratagem
