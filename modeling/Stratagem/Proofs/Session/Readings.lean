import Stratagem.Failure
import Stratagem.Proofs.Chains
import Stratagem.Proofs.Formula.Reads
import Stratagem.Proofs.Plan.Expressions
import Stratagem.Session.Context

/-!
# What instructions read off a context

Orders and waits depend on the context of a session and on nothing else of a run. What they find
there is a function of the context, and so are the errors. Setting variables leaves the rest of a
context as it is (`Context.bindAll_frame`).

* `Context.decision` is the decision of an order; `Context.Refuses` lists the errors of an order
  (`refuses_of_decision`).
* `Context.beginWait` is what a wait has to wait for, and `Context.stillPending` what is left of it
  at a further tick. `Context.Begins` lists the ways in which a wait begins (`begins_of_beginWait`),
  and `Context.Hinders` the errors that keep it from that (`hinders_of_beginWait`).
* `Wait.Matches` says which pending states belong to a wait. A wait begins in one of them and stays
  in one of them (`matches_of_beginWait`, `matches_of_stillPending`).
* `Context.ReadAlike` compares two contexts at an instruction. They lead to the same if they show
  the same bars and agree on the variables of the instruction.
-/

namespace Stratagem

namespace Context

/-! ## Setting variables -/

/-- Setting variables changes the variables and nothing else. -/
theorem bindAll_frame (c : Context) (numbers : List (String × Float)) :
    ∃ vars, c.bindAll numbers = { c with vars := vars } := by
  unfold bindAll
  induction numbers generalizing c with
  | nil => exact ⟨c.vars, rfl⟩
  | cons p numbers ih => exact ih (c.bind p.1 (.number p.2))

theorem bindAll_suspension (c : Context) (numbers : List (String × Float)) :
    (c.bindAll numbers).suspension = c.suspension := by
  obtain ⟨vars, h⟩ := c.bindAll_frame numbers
  rw [h]

theorem bindAll_snapshot (c : Context) (numbers : List (String × Float)) :
    (c.bindAll numbers).snapshot = c.snapshot := by
  obtain ⟨vars, h⟩ := c.bindAll_frame numbers
  rw [h]

theorem bindAll_latestBar? (c : Context) (numbers : List (String × Float)) :
    (c.bindAll numbers).latestBar? = c.latestBar? := by
  obtain ⟨vars, h⟩ := c.bindAll_frame numbers
  rw [h]
  rfl

variable (c : Context)

/-! ## Orders -/

/-- The number of an expression in a context. -/
def number (e : Expr) : Except StrategyError Float := (e.evaluateNumber c.lookup).mapError .ofFault

/-- The number of an expression that may be missing. -/
def optionalNumber : Option Expr → Except StrategyError (Option Float)
  | none => .ok none
  | some e => (c.number e).map some

/-- The decision that an order leads to. -/
def decision (o : Order) : Except StrategyError Decision :=
  match c.latestBar? with
  | none => .error (.trade .noMarketData)
  | some bar => do
    let side ← (Side.ofWord o.side).mapError .trade
    let size ← c.number o.size
    let price ← c.optionalNumber o.price
    let stop ← c.optionalNumber o.stop
    (Decision.make o.symbol side size price stop bar.time).mapError .trade

/-- The errors of an order. -/
inductive Refuses (o : Order) : StrategyError → Prop
  | noMarketData (noBar : c.latestBar? = none) : Refuses o (.trade .noMarketData)
  | side {fault : TradeFault} (word : Side.ofWord o.side = .error fault) : Refuses o (.trade fault)
  | quantity (q : Quantity) {e : Expr} {fault : Fault} (given : o.quantity? q = some e)
      (value : e.evaluateNumber c.lookup = .error fault) : Refuses o (.ofFault fault)
  | symbol (blank : Text.isBlankText o.symbol = true) : Refuses o (.trade .emptySymbol)
  | notPositive (q : Quantity) {e : Expr} {x : Float} (given : o.quantity? q = some e)
      (value : e.evaluateNumber c.lookup = .ok x) (outside : (x.isFinite && 0.0 < x) = false) :
      Refuses o (.trade (.notPositive q x))

variable {c}

theorem optionalNumber_ok {e : Option Expr} {x : Float} (h : c.optionalNumber e = .ok (some x)) :
    ∃ given, e = some given ∧ given.evaluateNumber c.lookup = .ok x := by
  cases e with
  | none => cases h
  | some e =>
    rw [optionalNumber] at h
    cases he : c.number e with
    | error _ => rw [he] at h; cases h
    | ok y =>
      rw [he] at h
      cases h
      exact ⟨e, rfl, mapError_eq_ok.1 he⟩

theorem optionalNumber_error {e : Option Expr} {error : StrategyError}
    (h : c.optionalNumber e = .error error) :
    ∃ given fault, e = some given ∧ error = .ofFault fault ∧
      given.evaluateNumber c.lookup = .error fault := by
  cases e with
  | none => cases h
  | some e =>
    rw [optionalNumber] at h
    cases he : c.number e with
    | ok x => rw [he] at h; cases h
    | error _ =>
      rw [he] at h
      cases h
      obtain ⟨fault, value, rfl⟩ := mapError_eq_error.1 he
      exact ⟨e, fault, rfl, rfl, value⟩

/-- A quantity that is checked is given, and it is refused if it is no positive number. -/
theorem refuses_of_checkPositive {o : Order} {q : Quantity} {e : Expr} {x : Float}
    {fault : TradeFault} (given : o.quantity? q = some e)
    (value : e.evaluateNumber c.lookup = .ok x) (h : Decision.checkPositive q x = .error fault) :
    c.Refuses o (.trade fault) := by
  unfold Decision.checkPositive at h
  split at h
  · cases h
  · rename_i outside
    cases h
    exact .notPositive q given value (Bool.eq_false_iff.2 outside)

theorem refuses_of_checkOptional {o : Order} {q : Quantity} {value : Option Float}
    {fault : TradeFault} (read : c.optionalNumber (o.quantity? q) = .ok value)
    (h : Decision.checkOptional q value = .error fault) : c.Refuses o (.trade fault) := by
  cases value with
  | none => cases h
  | some x =>
    obtain ⟨e, given, value⟩ := optionalNumber_ok read
    exact refuses_of_checkPositive given value h

/-- The errors of a decision whose quantities are known. -/
theorem refuses_of_make {o : Order} {side : Side} {size : Float} {price stop : Option Float}
    {time : Instant} {fault : TradeFault} (sizes : c.number o.size = .ok size)
    (prices : c.optionalNumber o.price = .ok price) (stops : c.optionalNumber o.stop = .ok stop)
    (h : Decision.make o.symbol side size price stop time = .error fault) :
    c.Refuses o (.trade fault) := by
  unfold Decision.make at h
  split at h
  · rename_i blank
    cases h
    exact .symbol blank
  rcases bind_eq_error.1 h with h | ⟨_, -, h⟩
  · exact refuses_of_checkPositive rfl (mapError_eq_ok.1 sizes) h
  rcases bind_eq_error.1 h with h | ⟨_, -, h⟩
  · exact @refuses_of_checkOptional c o .price price _ prices h
  rcases bind_eq_error.1 h with h | ⟨_, -, h⟩
  · exact @refuses_of_checkOptional c o .stop stop _ stops h
  · cases h

theorem refuses_of_decision {o : Order} {error : StrategyError} (h : c.decision o = .error error) :
    c.Refuses o error := by
  unfold decision at h
  cases hbar : c.latestBar? with
  | none =>
    rw [hbar] at h
    cases h
    exact .noMarketData hbar
  | some bar =>
    simp only [hbar] at h
    rcases bind_eq_error.1 h with h | ⟨side, -, h⟩
    · obtain ⟨fault, word, rfl⟩ := mapError_eq_error.1 h
      exact .side word
    rcases bind_eq_error.1 h with h | ⟨size, sizes, h⟩
    · obtain ⟨fault, value, rfl⟩ := mapError_eq_error.1 h
      exact .quantity .size rfl value
    rcases bind_eq_error.1 h with h | ⟨price, prices, h⟩
    · obtain ⟨e, fault, given, rfl, value⟩ := optionalNumber_error h
      exact .quantity .price given value
    rcases bind_eq_error.1 h with h | ⟨stop, stops, h⟩
    · obtain ⟨e, fault, given, rfl, value⟩ := optionalNumber_error h
      exact .quantity .stop given value
    · obtain ⟨fault, made, rfl⟩ := mapError_eq_error.1 h
      exact refuses_of_make sizes prices stops made

/-! ## Waits -/

variable (c)

/-- What a wait that begins has to wait for; nothing if it is over at once. -/
def beginWait : Wait → Except StrategyError (Option Pending)
  | .ticks count =>
    if 0 < count then .ok (some (.ticks count.toNat)) else .error (.evaluation (.waitTicks count))
  | .elapsed span =>
    if 0 < span.nanos then
      match c.latestBar? with
      | none => .error (.evaluation .waitWithoutData)
      | some bar =>
        match bar.time.addNanos? span.nanos.toNat with
        | none => .error (.evaluation .deadlineOutOfRange)
        | some time => .ok (some (.deadline time))
    else .error (.evaluation (.waitElapsed span))
  | .condition e =>
    ((e.evaluateBool c.lookup).mapError .ofFault).map fun holds =>
      if holds then none else some .condition

/-- What is left of a wait at a further tick; nothing if it is over. -/
def stillPending (w : Wait) (s : Suspension) : Except StrategyError (Option Pending) :=
  match s.pending with
  | .ticks remaining => .ok (if 1 < remaining then some (.ticks (remaining - 1)) else none)
  | .deadline time =>
    match c.latestBar? with
    | some bar => .ok (if time ≤ bar.time then none else some (.deadline time))
    | none => .ok (some (.deadline time))
  | .condition =>
    match w with
    | .condition e =>
      ((e.evaluateBool c.lookup).mapError .ofFault).map fun holds =>
        if holds then none else some .condition
    | .ticks _ | .elapsed _ => .error (.evaluation (.noCondition s.path))

/-- The ways in which a wait begins, with what it has to wait for. -/
inductive Begins : Wait → Option Pending → Prop
  | ticks {count : Int} (pos : 0 < count) : Begins (.ticks count) (some (.ticks count.toNat))
  | elapsed {span : TimeSpan} {bar : Bar} {time : Instant} (pos : 0 < span.nanos)
      (latest : c.latestBar? = some bar) (later : bar.time.addNanos? span.nanos.toNat = some time) :
      Begins (.elapsed span) (some (.deadline time))
  | holds {e : Expr} (value : e.evaluateBool c.lookup = .ok true) : Begins (.condition e) none
  | fails {e : Expr} (value : e.evaluateBool c.lookup = .ok false) :
      Begins (.condition e) (some .condition)

/-- The errors of a wait that begins. -/
inductive Hinders : Wait → StrategyError → Prop
  | ticks {count : Int} (none : count ≤ 0) : Hinders (.ticks count) (.evaluation (.waitTicks count))
  | elapsed {span : TimeSpan} (none : span.nanos ≤ 0) :
      Hinders (.elapsed span) (.evaluation (.waitElapsed span))
  | withoutData (span : TimeSpan) (noBar : c.latestBar? = none) :
      Hinders (.elapsed span) (.evaluation .waitWithoutData)
  | outOfRange {span : TimeSpan} {bar : Bar} (someBar : c.latestBar? = some bar)
      (late : bar.time.addNanos? span.nanos.toNat = none) :
      Hinders (.elapsed span) (.evaluation .deadlineOutOfRange)
  | condition {e : Expr} {fault : Fault} (value : e.evaluateBool c.lookup = .error fault) :
      Hinders (.condition e) (.ofFault fault)

end Context

/-- The pending states that belong to a wait. Of a number of ticks at least one is left. -/
inductive Wait.Matches : Wait → Pending → Prop
  | ticks {count : Int} {remaining : Nat} (some : 1 ≤ remaining) (most : remaining ≤ count) :
      Matches (.ticks count) (.ticks remaining)
  | elapsed (span : TimeSpan) (time : Instant) : Matches (.elapsed span) (.deadline time)
  | condition (e : Expr) : Matches (.condition e) .condition

namespace Context

variable {c : Context} {w : Wait}

/-- A condition as the end of a wait: the error of the condition, or whether the wait goes on. -/
theorem awaited_eq {result : Except Fault Bool} {pending : Option Pending}
    (h : ((result.mapError StrategyError.ofFault).map fun holds =>
      if holds then none else some Pending.condition) = .ok pending) :
    pending = none ∨ pending = some .condition := by
  cases result with
  | error fault => cases h
  | ok holds => cases holds <;> cases h <;> simp

theorem hinders_of_beginWait {error : StrategyError} (h : c.beginWait w = .error error) :
    c.Hinders w error := by
  cases w with
  | ticks count =>
    simp only [beginWait] at h
    split at h
    · cases h
    · cases h
      exact .ticks (by omega)
  | elapsed span =>
    simp only [beginWait] at h
    split at h
    · cases hbar : c.latestBar? with
      | none =>
        rw [hbar] at h
        cases h
        exact .withoutData span hbar
      | some bar =>
        simp only [hbar] at h
        cases late : bar.time.addNanos? span.nanos.toNat with
        | none =>
          rw [late] at h
          cases h
          exact .outOfRange hbar late
        | some time => rw [late] at h; cases h
    · cases h
      exact .elapsed (by omega)
  | condition e =>
    simp only [beginWait] at h
    cases value : e.evaluateBool c.lookup with
    | ok holds => rw [value] at h; cases h
    | error fault =>
      rw [value] at h
      cases h
      exact .condition value

theorem begins_of_beginWait {next : Option Pending} (h : c.beginWait w = .ok next) :
    c.Begins w next := by
  cases w with
  | ticks count =>
    simp only [beginWait] at h
    split at h
    · rename_i pos
      cases h
      exact .ticks pos
    · cases h
  | elapsed span =>
    simp only [beginWait] at h
    split at h
    · rename_i pos
      cases latest : c.latestBar? with
      | none => rw [latest] at h; cases h
      | some bar =>
        simp only [latest] at h
        cases later : bar.time.addNanos? span.nanos.toNat with
        | none => rw [later] at h; cases h
        | some time =>
          rw [later] at h
          cases h
          exact .elapsed pos latest later
    · cases h
  | condition e =>
    simp only [beginWait] at h
    cases value : e.evaluateBool c.lookup with
    | error fault => rw [value] at h; cases h
    | ok holds =>
      rw [value] at h
      cases holds <;> cases h
      · exact .fails value
      · exact .holds value

/-- A wait begins in a state that belongs to it. -/
theorem matches_of_beginWait {pending : Pending} (h : c.beginWait w = .ok (some pending)) :
    w.Matches pending := by
  cases begins_of_beginWait h with
  | ticks pos => exact .ticks (by omega) (by omega)
  | elapsed pos latest later => exact .elapsed _ _
  | fails value => exact .condition _

variable {path : Path} {pending : Pending}

/-- A wait that goes on is in a state that belongs to it. -/
theorem matches_of_stillPending {next : Pending} (before : w.Matches pending)
    (h : c.stillPending w ⟨path, pending⟩ = .ok (some next)) : w.Matches next := by
  cases before with
  | @ticks count remaining some most =>
    simp only [stillPending] at h
    split at h
    · cases h
      exact .ticks (by omega) (by omega)
    · cases h
  | elapsed span time =>
    simp only [stillPending] at h
    cases hbar : c.latestBar? with
    | none =>
      rw [hbar] at h
      cases h
      exact .elapsed span time
    | some bar =>
      simp only [hbar] at h
      split at h
      · cases h
      · cases h
        exact .elapsed span time
  | condition e =>
    rcases awaited_eq h with h | h
    · cases h
    · cases h
      exact .condition e

/-- A further look at a wait fails only because of its condition. -/
theorem stillPending_error {error : StrategyError} (before : w.Matches pending)
    (h : c.stillPending w ⟨path, pending⟩ = .error error) :
    ∃ e fault, w = .condition e ∧ error = .ofFault fault ∧
      e.evaluateBool c.lookup = .error fault := by
  cases before with
  | ticks some most => cases h
  | elapsed span time =>
    simp only [stillPending] at h
    cases hbar : c.latestBar? with
    | none => rw [hbar] at h; cases h
    | some bar => rw [hbar] at h; cases h
  | condition e =>
    simp only [stillPending] at h
    cases value : e.evaluateBool c.lookup with
    | ok holds => rw [value] at h; cases h
    | error fault =>
      rw [value] at h
      cases h
      exact ⟨e, fault, rfl, rfl, value⟩

/-! ## Two contexts -/

/-- The contexts show the same bars and agree on the variables that an instruction reads. -/
structure ReadAlike (n : Node) (c d : Context) : Prop where
  snapshot : c.snapshot = d.snapshot
  lookup : ∀ e ∈ n.expressions, ∀ x ∈ e.occurrences, c.lookup x = d.lookup x

namespace ReadAlike

variable {d : Context} {e : Expr} {n : Node}

theorem refl (n : Node) (c : Context) : ReadAlike n c c := ⟨rfl, fun _ _ _ _ => rfl⟩

theorem latestBar? (h : ReadAlike n c d) : c.latestBar? = d.latestBar? := by
  rw [Context.latestBar?, Context.latestBar?, h.snapshot]

theorem evaluate (h : ReadAlike n c d) (mem : e ∈ n.expressions) :
    e.evaluate c.lookup = e.evaluate d.lookup :=
  e.evaluate_congr (h.lookup e mem)

theorem evaluateBool (h : ReadAlike n c d) (mem : e ∈ n.expressions) :
    e.evaluateBool c.lookup = e.evaluateBool d.lookup :=
  Expr.evaluateBool_congr (h.lookup e mem)

theorem number (h : ReadAlike n c d) (mem : e ∈ n.expressions) : c.number e = d.number e := by
  rw [Context.number, Context.number, Expr.evaluateNumber_congr (h.lookup e mem)]

theorem optionalNumber (h : ReadAlike n c d) {given : Option Expr}
    (mem : ∀ e, given = some e → e ∈ n.expressions) :
    c.optionalNumber given = d.optionalNumber given := by
  cases given with
  | none => rfl
  | some e => rw [Context.optionalNumber, Context.optionalNumber, h.number (mem e rfl)]

/-- An order comes to the same decision, or it is refused for the same reason. -/
theorem decision {o : Order} (h : ReadAlike (.order o) c d) : c.decision o = d.decision o := by
  have mem : ∀ q e, o.quantity? q = some e → e ∈ (Node.order o).expressions :=
    fun q e given => Order.mem_expressions.2 ⟨q, given⟩
  have size : c.number o.size = d.number o.size := h.number (mem .size _ rfl)
  have price : c.optionalNumber o.price = d.optionalNumber o.price := h.optionalNumber (mem .price)
  have stop : c.optionalNumber o.stop = d.optionalNumber o.stop := h.optionalNumber (mem .stop)
  rw [Context.decision, Context.decision, h.latestBar?, size, price, stop]

/-- A wait begins in the same way. -/
theorem beginWait {w : Wait} (h : ReadAlike (.wait w) c d) : c.beginWait w = d.beginWait w := by
  cases w with
  | ticks count => rfl
  | elapsed span => rw [Context.beginWait, Context.beginWait, h.latestBar?]
  | condition e =>
    rw [Context.beginWait, Context.beginWait, h.evaluateBool (List.mem_singleton_self e)]

/-- A wait is left in the same way. -/
theorem stillPending {w : Wait} (h : ReadAlike (.wait w) c d) (s : Suspension) :
    c.stillPending w s = d.stillPending w s := by
  unfold Context.stillPending
  cases s.pending with
  | ticks remaining => rfl
  | deadline time => rw [h.latestBar?]
  | condition =>
    cases w with
    | ticks count => rfl
    | elapsed span => rfl
    | condition e =>
      have holds := h.evaluateBool (e := e) (List.mem_singleton_self e)
      simp only [holds]

end ReadAlike

end Context

end Stratagem
