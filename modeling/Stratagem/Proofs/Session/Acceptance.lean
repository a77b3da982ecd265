import Stratagem.Proofs.Plan.Definitions
import Stratagem.Proofs.Session.Foresight

/-!
# Strategies that pass the review

A strategy that passes the review can still fail: a feed may be down, a division may be by zero, an
indicator may be short of bars. What it cannot do is said by `Engine.sound_of_review`, for all ticks
of a session from the first one on.

Orders are reviewed as far as their quantities are constants. In a tree that was read from a
definition constants are finite, so a constant that passes the review is a positive number and the
order gives a decision (`Context.decision_of_constant`).
-/

namespace Stratagem

/-- An order of constants without issues gives a decision wherever there is a bar. -/
theorem Context.decision_of_constant {c : Context} {o : Order} {path : Path}
    {bound : Review.Names} (clean : Review.order o path bound = [])
    (finite : ∀ e ∈ o.expressions, ∀ x, e.constant? = some x → x.isFinite = true)
    (constant : o.Constant) (supplied : c.latestBar?.isSome = true) :
    ∃ d, c.decision o = .ok d := by
  cases h : c.decision o with
  | ok d => exact ⟨d, rfl⟩
  | error error =>
    exfalso
    cases refuses_of_decision h with
    | noMarketData noBar => simp [noBar] at supplied
    | side word =>
      obtain ⟨side, hside⟩ := Review.side_of_order clean
      rw [hside] at word
      cases word
    | @quantity q e fault given value =>
      obtain ⟨x, hx⟩ := constant e (Order.mem_expressions.2 ⟨q, given⟩)
      rw [Expr.evaluateNumber_constant hx] at value
      cases value
    | symbol blank =>
      rw [Review.symbol_of_order clean] at blank
      cases blank
    | @notPositive q e x given value outside =>
      have stands := Order.mem_expressions.2 ⟨q, given⟩
      obtain ⟨y, hy⟩ := constant e stands
      rw [Expr.evaluateNumber_constant hy] at value
      cases value
      have positive : 0.0 < x :=
        Finite.zero_lt_of_isFinite (finite e stands x hy) (Review.positive_of_order clean given hy)
      simp [finite e stands x hy, positive] at outside

variable {σ : Type}

/-- The tick failed because an order of the tree did, in the run that the tick ended with. -/
structure Ticked.StoppedBy (tree : Node) (o : Order) (fault : TradeFault) (t : Ticked σ) :
    Prop where
  stands : ∃ path, tree.at? path = some (.order o)
  fails : ∃ s : Run σ, (Exec.order o).after s = (.error (.trade fault), s) ∧
    t = ⟨.error (.trade fault), s.context.wake, s.feed⟩

/-- The tree was read from a JSON value. -/
def Node.Defined (tree : Node) : Prop := ∃ v : Json, v.Proper ∧ Node.ofJson v = .ok tree

/-- In a defined tree without issues, an order of constants gives a decision in every run that has
a bar, and changes nothing else. -/
theorem Node.Defined.after_order {tree : Node} (defined : tree.Defined) (clean : tree.review = [])
    {path : Path} {o : Order} (stands : tree.at? path = some (.order o)) (constant : o.Constant)
    {r : Run σ} (supplied : r.context.latestBar?.isSome = true) :
    ∃ d, (Exec.order o).after r = (.ok (), { r with decisions := r.decisions ++ [d] }) := by
  obtain ⟨v, proper, read⟩ := defined
  obtain ⟨before, hbefore⟩ := Review.clean_at clean stands
  simp only [Review.node] at hbefore
  obtain ⟨d, hd⟩ := Context.decision_of_constant hbefore
    (Node.every_ofJson Grammar.closed_finite proper read path _ stands) constant supplied
  refine ⟨d, ?_⟩
  rw [Exec.after_order, hd]

namespace Engine

variable {engine : Engine} {feed : Feed σ} {tree : Node}

/-- How a tick of a session of a tree without issues can fail. -/
theorem stops_tick (clean : tree.review = []) {c : Context} (fits : c.Fits tree)
    (kept : c.Kept tree) {s : σ}
    (answer : (feed engine.symbol engine.interval engine.historyBars s).1 ≠ .ok [])
    {e : StrategyError} (failed : (engine.tick feed tree c s).result = .error e) :
    ∃ r, Exec.Stops tree e r ∧ engine.tick feed tree c s = ⟨.error e, r.context.wake, r.feed⟩ := by
  refine ofRun_work (P := fun t => t.result = .error e →
    ∃ r, Exec.Stops tree e r ∧ t = ⟨.error e, r.context.wake, r.feed⟩) fits
    (ensures_work_covered clean fits kept answer) ?_ ?_ ?_ failed
  · rintro r - ⟨⟩
  · rintro n path rest r - ⟨⟩
  · rintro e r stops ⟨⟩
    exact ⟨r, stops, rfl⟩

/-- A session of a tree without issues, from the first tick on and whatever the feed answers, as
long as it does not answer the request at the start of a tick with no bars at all: no tick fails
with an error that the review rules out. If the tree was read from a definition, its orders of
constants never fail, and an error of a trade comes from another order. -/
theorem sound_of_review (clean : tree.review = []) {states : List σ}
    (answers : ∀ s ∈ states,
      (feed engine.symbol engine.interval engine.historyBars s).1 ≠ .ok []) :
    (∀ x ∈ engine.starts feed tree .empty states, ∀ e,
      (engine.tick feed tree x.1 x.2).result = .error e → ¬ e.RuledOut) ∧
    (tree.Defined →
      (∀ path o, tree.at? path = some (.order o) → o.Constant →
        ∀ r : Run σ, r.context.latestBar?.isSome = true →
          ∃ d, (Exec.order o).after r = (.ok (), { r with decisions := r.decisions ++ [d] })) ∧
      ∀ x ∈ engine.starts feed tree .empty states, ∀ fault,
        (engine.tick feed tree x.1 x.2).result = .error (.trade fault) →
          ∃ o, (engine.tick feed tree x.1 x.2).StoppedBy tree o fault ∧ ¬ o.Constant) := by
  have stops : ∀ x ∈ engine.starts feed tree .empty states, ∀ e,
      (engine.tick feed tree x.1 x.2).result = .error e → ∃ r, Exec.Stops tree e r ∧
        engine.tick feed tree x.1 x.2 = ⟨.error e, r.context.wake, r.feed⟩ := by
    intro x hx e failed
    obtain ⟨⟨fits, kept⟩, state⟩ := kept_starts clean answers x hx
    exact stops_tick clean fits kept (answers _ state) failed
  refine ⟨?_, fun defined => ⟨?_, ?_⟩⟩
  · intro x hx e failed
    obtain ⟨r, hr, -⟩ := stops x hx e failed
    exact hr.allowed
  · intro path o stands constant r supplied
    exact defined.after_order clean stands constant supplied
  · intro x hx fault failed
    obtain ⟨r, hr, htick⟩ := stops x hx _ failed
    obtain ⟨path, o, stands, supplied, fails⟩ := hr.trade fault rfl
    refine ⟨o, ⟨⟨path, stands⟩, r, fails, htick⟩, ?_⟩
    intro constant
    obtain ⟨d, hd⟩ := defined.after_order clean stands constant supplied
    rw [hd] at fails
    cases fails

/-- Two ticks of a strategy that reads a variable after the wait behind which it was bound. -/
theorem sound_of_review_two_ticks :
    let v : Json := .array [
      .object [("expression", .text "close * 2"), ("target", .text "limit"),
        ("type", .text "operation")],
      .object [("type", .text "wait"), ("until", .text "close > limit")],
      .object [("side", .text "buy"), ("size", .int 2), ("symbol", .text "BTC"),
        ("type", .text "trade")]]
    let o : Order := ⟨"BTC", "buy", .number (Float.ofInt 2), none, none⟩
    let tree : Node := .block [
      .assign "limit" (.binary .mul (.var "close") (.number 2)),
      .wait (.condition (.compare (.var "close") [(.gt, .var "limit")])),
      .order o]
    let engine := Engine.ofMarket "BTCUSDT" "1m"
    let feed : Feed Float := fun _ _ _ x => (.ok [⟨⟨0, 0⟩, x, x, x, x, x⟩], x)
    let first := engine.tick feed tree .empty 1
    let second := engine.tick feed tree first.context 3
    tree.review = [] ∧
      (∀ s ∈ [1, 3], (feed engine.symbol engine.interval engine.historyBars s).1 ≠ .ok []) ∧
      v.Proper ∧ Node.ofJson v = .ok tree ∧ o.Constant ∧
      first.context.suspension = some ⟨[.child 1], .condition⟩ ∧
      (∀ e, second.result = .error e → ¬ e.RuledOut) ∧
      ∀ fault, second.result = .error (.trade fault) → ∃ o, second.StoppedBy tree o fault ∧
        ¬ o.Constant := by
  intro v o tree engine feed first second
  have clean : tree.review = [] := by
    dsimp only [tree, o]
    rfl
  have answers : ∀ s ∈ [1, 3],
      (feed engine.symbol engine.interval engine.historyBars s).1 ≠ .ok [] := by
    intro s _ h
    cases h
  have proper : v.Proper := by
    refine .array fun item hitem => ?_
    simp only [List.mem_cons, List.not_mem_nil, or_false] at hitem
    rcases hitem with rfl | rfl | rfl <;> refine .object fun m hm => ?_
    all_goals simp only [List.mem_cons, List.not_mem_nil, or_false] at hm
    · rcases hm with rfl | rfl | rfl <;> exact .text _
    · rcases hm with rfl | rfl <;> exact .text _
    · rcases hm with rfl | rfl | rfl | rfl
      · exact .text _
      · exact .int (by decide) (by decide)
      · exact .text _
      · exact .text _
  have read : Node.ofJson v = .ok tree := rfl
  have constant : o.Constant := by
    intro e he
    obtain rfl : e = .number (Float.ofInt 2) := by simpa [Order.expressions, o] using he
    exact ⟨_, rfl⟩
  have sound := @sound_of_review Float engine feed tree clean [1, 3] answers
  have later : (first.context, 3) ∈ engine.starts feed tree .empty [1, 3] := by
    simp [starts, first]
  have paused : first.context.suspension = some ⟨[.child 1], .condition⟩ := by decide +kernel
  refine ⟨clean, answers, proper, read, constant, paused, ?_, ?_⟩
  · exact sound.1 (first.context, 3) later
  · exact (sound.2 ⟨v, proper, read⟩).2 (first.context, 3) later

end Engine

end Stratagem
