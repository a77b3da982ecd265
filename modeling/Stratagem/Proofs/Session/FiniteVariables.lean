import Stratagem.Proofs.Formula.FiniteResults
import Stratagem.Proofs.Session.Acceptance
import Stratagem.Proofs.Session.Untouched

/-!
# Sessions over finite numbers

A session of a strategy without indicators computes its variables with expressions only, and these
keep numbers finite (`Grammar.closed_staysFinite`). So if the feed gives finite bars, every number
that the session remembers is finite.

`Context.Finite` is the invariant. It holds in a new context, and it is kept by the start of a tick
(`Opens.finite`), by every instruction (`Enters.finite`), and so by whole ticks (`finite_tick`).
`numbers_stay_finite` says it of sessions.
-/

namespace Stratagem

variable {σ : Type}

/-! ## Contexts -/

/-- The five fields that strategies read are finite. -/
structure Bar.Finite (b : Bar) : Prop where
  opening : b.opening.isFinite = true
  high : b.high.isFinite = true
  low : b.low.isFinite = true
  close : b.close.isFinite = true
  volume : b.volume.isFinite = true

theorem Bar.Finite.field? {b : Bar} (h : b.Finite) {name : String} {x : Float}
    (hx : b.field? name = some x) : x.isFinite = true := by
  unfold Bar.field? at hx
  split at hx
  · cases hx
    exact h.opening
  · cases hx
    exact h.high
  · cases hx
    exact h.low
  · cases hx
    exact h.close
  · cases hx
    exact h.volume
  · cases hx

namespace Context

/-- All numbers that expressions can look up are finite: the variables and the fields of the latest
bar. -/
structure Finite (c : Context) : Prop where
  vars : ∀ name v, Keyed.find? name c.vars = some v → v.Finite
  latest : ∀ b, c.latestBar? = some b → b.Finite

theorem finite_empty : Context.empty.Finite where
  vars := by
    rintro name v ⟨⟩
  latest := by
    rintro b ⟨⟩

variable {c : Context}

theorem Finite.lookup (h : c.Finite) (name : String) (v : Value) (hv : c.lookup name = some v) :
    v.Finite := by
  unfold Context.lookup at hv
  split at hv
  · rename_i w found
    cases hv
    exact h.vars name v found
  · obtain ⟨x, hx, rfl⟩ := Option.map_eq_some_iff.1 hv
    obtain ⟨b, latest, field⟩ := Option.bind_eq_some_iff.1 hx
    exact (h.latest b latest).field? field

theorem Finite.bind (h : c.Finite) (target : String) {v : Value} (hv : v.Finite) :
    (c.bind target v).Finite where
  vars name w hw := by
    rw [Context.bind, Keyed.find?_insert] at hw
    split at hw
    · cases hw
      exact hv
    · exact h.vars name w hw
  latest := h.latest

end Context

/-! ## Runs -/

/-- No instruction of the tree is an indicator. -/
def Node.WithoutIndicators (tree : Node) : Prop :=
  ∀ path name params target, tree.at? path ≠ some (.indicator name params target)

namespace Exec

variable {engine : Engine} {feed : Feed σ} {tree n : Node} {path : Path} {r s t : Run σ}
  {more a b : Agenda}

/-- Of the instructions that are not indicators only assignments write, and what they write is
finite. -/
theorem Enters.finite (h : Enters engine feed n path r (.expand more) s)
    (other : ∀ name params target, n ≠ .indicator name params target)
    (stay : ∀ e ∈ n.expressions, e.StaysFinite) (finite : r.context.Finite) : s.context.Finite := by
  cases h with
  | @indicator name params target => exact absurd rfl (other name params target)
  | @assign target e path r v evaluates =>
    have he : e.StaysFinite := stay e List.mem_cons_self
    exact finite.bind target (he _ finite.lookup v evaluates)
  | _ => exact finite

theorem ComesBy.finite (h : ComesBy engine feed a r b t) (without : tree.WithoutIndicators)
    (stay : tree.Every Expr.StaysFinite) (placed : a.Placed tree) (finite : r.context.Finite) :
    t.context.Finite := by
  induction h with
  | here a r => exact finite
  | @enter n path rest more b r s t enters later ih =>
    have enters := enters_of_after enters
    have here := placed.1
    refine ih (enters.placed placed) (enters.finite ?_ (stay path n here) finite)
    rintro name params target rfl
    exact without path name params target here

end Exec

/-! ## Ticks -/

namespace Engine

variable {engine : Engine} {feed : Feed σ} {tree : Node} {c : Context} {s : σ} {bars : List Bar}

/-- What a tick finds first is finite if its context and its bars are. -/
theorem Opens.finite {a : Agenda} {r : Run σ} (opens : Opens engine feed tree c s bars a r)
    (finite : c.Finite) (supply : ∀ b ∈ bars, b.Finite) : r.context.Finite where
  vars name v hv := by
    rw [opens.begins.2.2.2, opening] at hv
    split at hv
    · cases hv
    · exact finite.vars name v hv
  latest b hb := by
    rw [Context.latestBar?, opens.start.1] at hb
    exact supply b (List.mem_of_getLast? hb)

theorem finite_tick (without : tree.WithoutIndicators) (stay : tree.Every Expr.StaysFinite)
    (finite : c.Finite)
    (supply : ∀ bars t, feed engine.symbol engine.interval engine.historyBars s = (.ok bars, t) →
      ∀ b ∈ bars, b.Finite) : (engine.tick feed tree c s).context.Finite where
  vars := by
    rcases @opens_or_vars_eq σ engine feed tree c s with ⟨bars, a, r, opens⟩ | still
    · obtain ⟨b, t, comes, vars⟩ := opens.exists_comesBy (.here a r)
      have first := opens.finite finite (supply bars _ opens.start.2.2)
      rw [vars]
      exact (comes.finite without stay opens.begins.1 first).vars
    · rw [still]
      exact finite.vars
  latest b hb := by
    rw [Context.latestBar?] at hb
    rcases answer : feed engine.symbol engine.interval engine.historyBars s with ⟨e | bars, t⟩
    · rw [tick_of_refused c answer] at hb
      exact finite.latest b hb
    · rw [snapshot_tick c answer] at hb
      exact supply bars t answer b (List.mem_of_getLast? hb)

/-- An expression that was read from a text gives no number but finite ones in a context of finite
numbers. So in a session of a strategy that was read from a definition and has no indicators, if all
bars that it gets are finite, all numbers that it remembers after any of its ticks are finite,
however the ticks end. -/
theorem numbers_stay_finite :
    (∀ source e, Expr.parse source = .ok e → ∀ c : Context, c.Finite →
      ∀ x, e.evaluate c.lookup = .ok (.number x) → x.isFinite = true) ∧
    ∀ (engine : Engine) (feed : Feed σ) (tree : Node), tree.Defined → tree.WithoutIndicators →
      ∀ states, (∀ s ∈ states, ∀ bars t,
        feed engine.symbol engine.interval engine.historyBars s = (.ok bars, t) →
          ∀ b ∈ bars, b.Finite) →
      ∀ t ∈ engine.session feed tree .empty states, t.context.Finite := by
  constructor
  · intro source e read c finite x value
    exact Grammar.closed_staysFinite.parse read _ finite.lookup _ value
  · rintro engine feed tree ⟨v, proper, read⟩ without states supply t ht
    have stay : tree.Every Expr.StaysFinite :=
      Node.every_ofJson Grammar.closed_staysFinite proper read
    obtain ⟨⟨c, s⟩, start, rfl⟩ := List.mem_map.1 ht
    obtain ⟨finite, state⟩ := @starts_induction σ engine feed tree Context.Finite states
      (fun _ finite s hs => finite_tick without stay finite (supply s hs)) .empty
      Context.finite_empty _ start
    exact finite_tick without stay finite (supply s state)

/-- Signs and functions of a variable and a price; and a strategy that squares the price, where the
second square is too great: the tick fails, and the first square stays. -/
theorem numbers_stay_finite_overflow :
    let e : Expr := .call .abs [.call .min [.var "x", .unary .minus (.var "close")]]
    let bar : Float → Bar := fun x => ⟨⟨0, 0⟩, x, x, x, x, x⟩
    let c : Context := ⟨[("x", .number 1)], some ⟨"BTCUSDT", "1m", [bar 2]⟩, none⟩
    let v : Json := .object [("expression", .text "close * close"), ("target", .text "x"),
      ("type", .text "operation")]
    let tree : Node := .block [.assign "x" (.binary .mul (.var "close") (.var "close"))]
    let engine := Engine.ofMarket "BTCUSDT" "1m"
    let feed : Feed Float := fun _ _ _ x => (.ok [bar x], x)
    let first := engine.tick feed tree .empty 2
    let second := engine.tick feed tree first.context 1e200
    Expr.parse "abs(min(x, -close))" = .ok e ∧ c.Finite ∧
      (∃ y, e.evaluate c.lookup = .ok (.number y) ∧ y.isFinite = true) ∧
      v.Proper ∧ Node.ofJson v = .ok tree ∧ tree.WithoutIndicators ∧
      (∀ s ∈ [2, 1e200], ∀ bars t,
        feed engine.symbol engine.interval engine.historyBars s = (.ok bars, t) →
          ∀ b ∈ bars, b.Finite) ∧
      second.result.toBool = false ∧ second.context.vars.keys = ["x"] ∧ second.context.Finite := by
  intro e bar c v tree engine feed first second
  have bar_finite : ∀ x : Float, x.isFinite = true → (bar x).Finite := fun x h => ⟨h, h, h, h, h⟩
  have one : Float.isFinite 1 = true := by decide +kernel
  have finite : c.Finite := by
    constructor
    · intro name w hw
      simp only [c, Keyed.find?] at hw
      split at hw
      · cases hw
        exact one
      · cases hw
    · rintro b ⟨⟩
      exact bar_finite 2 (by decide +kernel)
  have proper : v.Proper := by
    refine .object fun m hm => ?_
    simp only [List.mem_cons, List.not_mem_nil, or_false] at hm
    rcases hm with rfl | rfl | rfl <;> exact .text _
  have read : Node.ofJson v = .ok tree := rfl
  have without : tree.WithoutIndicators := by
    intro path name params target stands
    dsimp only [tree] at stands
    cases path with
    | nil => cases stands
    | cons s path =>
      obtain ⟨part, hs, stands⟩ := Option.bind_eq_some_iff.1 stands
      cases s with
      | child i =>
        obtain rfl := List.mem_singleton.1 (List.mem_of_getElem? hs)
        cases path with
        | nil => cases stands
        | cons s path => cases stands
      | yes => cases hs
      | no => cases hs
  have supply : ∀ s ∈ [2, 1e200], ∀ bars t,
      feed engine.symbol engine.interval engine.historyBars s = (.ok bars, t) →
        ∀ b ∈ bars, b.Finite := by
    rintro s hs bars t ⟨⟩ b hb
    obtain rfl := List.mem_singleton.1 hb
    simp only [List.mem_cons, List.not_mem_nil, or_false] at hs
    rcases hs with rfl | rfl
    · exact bar_finite 2 (by decide +kernel)
    · exact bar_finite 1e200 (by decide +kernel)
  have parsed : Expr.parse "abs(min(x, -close))" = .ok e := rfl
  have value : ∃ y, e.evaluate c.lookup = .ok (.number y) := ⟨_, rfl⟩
  have fails : second.result.toBool = false := by decide +kernel
  have names : second.context.vars.keys = ["x"] := by decide +kernel
  obtain ⟨y, value⟩ := value
  obtain ⟨results, sessions⟩ := @numbers_stay_finite Float
  have later : second ∈ engine.session feed tree .empty [2, 1e200] := by
    simp [session, starts, second, first]
  exact ⟨parsed, finite, ⟨y, value, results _ e parsed c finite y value⟩, proper, read, without,
    supply, fails, names,
    sessions engine feed tree ⟨v, proper, read⟩ without [2, 1e200] supply second later⟩

end Engine

end Stratagem
