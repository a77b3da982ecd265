import Stratagem.Decimal.Reading
import Stratagem.Indicator.Kind
import Stratagem.Proofs.Chains

/-!
# Configured indicators

What comes of configuring a family of indicators. `Params.Gives` lists the ways in which it goes
well (`gives_of_configure`); the rest is read off this list.

* The indicator is of the family (`kind_configure`).
* Its parameters make sense (`Indicator.Sound`, `sound_configure`), so it has no parameter that must
  be positive and is zero (`Sound.hasZero`).
* If the parameters that were given are whole numbers of 64 bits, the number of bars that the
  indicator needs is one, too (`minBars_lt_of_configure`): it is at most a sum of two of them.
-/

namespace Stratagem

/-- The family of an indicator. -/
def Indicator.kind : Indicator → Kind
  | ema _ => .ema
  | rsi _ => .rsi
  | atr _ => .atr
  | vwap _ => .vwap
  | macd _ _ _ => .macd
  | bollinger _ _ => .bollinger

/-- Parameters that a family takes. -/
def Indicator.Sound : Indicator → Prop
  | ema n | rsi n | atr n => 0 < n
  | vwap (.rolling n) => 0 < n
  | vwap _ => True
  | macd fast slow signal => 0 < fast ∧ fast < slow ∧ 0 < signal
  | bollinger period hundredths => 2 ≤ period ∧ 0 < hundredths

/-! ## Single parameters -/

/-- A positive parameter is its default, or it was given as a positive number. -/
theorem positive_eq_ok {parameter : String} {value : Option Int} {default n : Nat}
    (h : positive parameter value default = .ok n) :
    value = none ∧ n = default ∨ ∃ v ∈ value, 0 < v ∧ n = v.toNat := by
  unfold positive at h
  cases value with
  | none =>
    cases h
    exact .inl ⟨rfl, rfl⟩
  | some v =>
    simp only at h
    split at h
    · rename_i pos
      cases h
      exact .inr ⟨v, rfl, pos, rfl⟩
    · cases h

theorem pos_of_positive {parameter : String} {value : Option Int} {default n : Nat}
    (h : positive parameter value default = .ok n) (given : value = none → 0 < default) :
    0 < n := by
  rcases positive_eq_ok h with ⟨none, rfl⟩ | ⟨v, -, pos, rfl⟩
  · exact given none
  · omega

/-- A multiplier comes to a positive number of hundredths. -/
theorem pos_of_hundredths {multiplier : Float} {n : Nat} (h : hundredths multiplier = .ok n) :
    0 < n := by
  unfold hundredths at h
  split at h
  · cases h
  · extract_lets scaled nearest at h
    split at h
    · cases h
    · split at h
      · cases h
      · split at h
        · cases h
        · rename_i inside
          cases h
          simp only [Bool.or_eq_true, decide_eq_true_eq, not_or] at inside
          exact Nat.pos_of_ne_zero fun zero => inside.1 (UInt64.toNat_inj.1 zero)

/-! ## Families -/

/-- The indicators of a family with some parameters. -/
inductive Params.Gives (p : Params) : Kind → Indicator → Prop
  | ema {n : Nat} (period : positive "period" p.period 14 = .ok n) : Gives p .ema (.ema n)
  | rsi {n : Nat} (period : positive "period" p.period 14 = .ok n) : Gives p .rsi (.rsi n)
  | atr {n : Nat} (period : positive "period" p.period 14 = .ok n) : Gives p .atr (.atr n)
  | macd {fast slow signal : Nat} (hfast : positive "fast" p.fast 12 = .ok fast)
      (hslow : positive "slow" p.slow 26 = .ok slow)
      (hsignal : positive "signal" p.signal 9 = .ok signal) (shorter : fast < slow) :
      Gives p .macd (.macd fast slow signal)
  | bollinger {n m : Nat} (period : positive "period" p.period 20 = .ok n) (long : 2 ≤ n)
      (multiplier : hundredths (p.multiplier.getD 2.0) = .ok m) :
      Gives p .bollinger (.bollinger n m)
  | cumulative : Gives p .vwap (.vwap .cumulative)
  | session : Gives p .vwap (.vwap .session)
  | rolling {w : Int} {n : Nat} (given : p.window = some w)
      (window : positive "window" p.window 0 = .ok n) : Gives p .vwap (.vwap (.rolling n))

theorem gives_of_configureSpan {p : Params} {span : Span}
    (h : configureSpan p.mode p.window = .ok span) : p.Gives .vwap (.vwap span) := by
  have rolling : ∀ w, p.window = some w →
      (positive "window" p.window 0).map Span.rolling = .ok span → p.Gives .vwap (.vwap span) := by
    intro w given h
    cases window : positive "window" p.window 0 with
    | error fault => rw [window] at h; cases h
    | ok n =>
      rw [window] at h
      cases h
      exact .rolling given window
  unfold configureSpan at h
  split at h
  · cases h
    exact .cumulative
  · cases h
    exact .cumulative
  · cases h
    exact .session
  · rename_i w _ given
    exact rolling w given (given ▸ h)
  · rename_i w _ given
    exact rolling w given (given ▸ h)
  all_goals cases h

/-- There are no other ways in which configuring goes well. -/
theorem gives_of_configure {k : Kind} {p : Params} {i : Indicator} (h : k.configure p = .ok i) :
    p.Gives k i := by
  have map {x : Except ParameterFault Nat} {f : Nat → Indicator} (h : x.map f = .ok i) :
      ∃ n, x = .ok n ∧ f n = i := by
    cases x with
    | error fault => cases h
    | ok n => exact ⟨n, rfl, Except.ok.inj h⟩
  unfold Kind.configure at h
  split at h
  · cases h
  · cases k with
    | ema =>
      obtain ⟨n, period, rfl⟩ := map h
      exact .ema period
    | rsi =>
      obtain ⟨n, period, rfl⟩ := map h
      exact .rsi period
    | atr =>
      obtain ⟨n, period, rfl⟩ := map h
      exact .atr period
    | macd =>
      obtain ⟨fast, hfast, h⟩ := bind_eq_ok.1 h
      obtain ⟨slow, hslow, h⟩ := bind_eq_ok.1 h
      obtain ⟨signal, hsignal, h⟩ := bind_eq_ok.1 h
      split at h
      · rename_i shorter
        cases h
        exact .macd hfast hslow hsignal shorter
      · cases h
    | bollinger =>
      obtain ⟨period, hperiod, h⟩ := bind_eq_ok.1 h
      split at h
      · cases h
      · rename_i long
        obtain ⟨m, multiplier, h⟩ := bind_eq_ok.1 h
        cases h
        exact .bollinger hperiod (Nat.not_lt.1 long) multiplier
    | vwap =>
      simp only at h
      cases hspan : configureSpan p.mode p.window with
      | error fault => rw [hspan] at h; cases h
      | ok span =>
        rw [hspan] at h
        cases h
        exact gives_of_configureSpan hspan

/-- Configuring a family gives an indicator of the family. -/
theorem Kind.kind_configure {k : Kind} {p : Params} {i : Indicator} (h : k.configure p = .ok i) :
    i.kind = k := by
  cases gives_of_configure h <;> rfl

/-- Configuring a family gives an indicator with parameters that make sense. -/
theorem Kind.sound_configure {k : Kind} {p : Params} {i : Indicator} (h : k.configure p = .ok i) :
    i.Sound := by
  cases gives_of_configure h with
  | ema period | rsi period | atr period => exact pos_of_positive period fun _ => by decide
  | macd hfast hslow hsignal shorter =>
    exact ⟨pos_of_positive hfast fun _ => by decide, shorter,
      pos_of_positive hsignal fun _ => by decide⟩
  | bollinger period long multiplier => exact ⟨long, pos_of_hundredths multiplier⟩
  | cumulative => trivial
  | session => trivial
  | rolling given window =>
    refine pos_of_positive window fun none => ?_
    rw [none] at given
    cases given

namespace Indicator

variable {i : Indicator}

theorem Sound.hasZero (h : i.Sound) : i.hasZero = false := by
  cases i with
  | ema n | rsi n | atr n =>
    have pos : 0 < n := h
    simp only [Indicator.hasZero, beq_eq_false_iff_ne]
    omega
  | vwap span =>
    cases span with
    | cumulative => rfl
    | session => rfl
    | rolling n =>
      have pos : 0 < n := h
      simp only [Indicator.hasZero, beq_eq_false_iff_ne]
      omega
  | macd fast slow signal =>
    obtain ⟨hfast, hslow, hsignal⟩ := h
    simp only [Indicator.hasZero, Bool.or_eq_false_iff, beq_eq_false_iff_ne]
    omega
  | bollinger period hundredths =>
    obtain ⟨hperiod, hhundredths⟩ := h
    simp only [Indicator.hasZero, Bool.or_eq_false_iff, beq_eq_false_iff_ne]
    omega

end Indicator

/-! ## Parameters of 64 bits -/

/-- The whole numbers among the parameters. -/
def Params.integers (p : Params) : List Int :=
  [p.period, p.fast, p.slow, p.signal, p.window].flatMap Option.toList

/-- The whole numbers among the parameters have 64 bits, the sign included. -/
def Params.Fits (p : Params) : Prop := ∀ v ∈ p.integers, Decimal.isInt64 v = true

theorem Params.Fits.lt {p : Params} (fits : p.Fits) {parameter : String} {value : Option Int}
    {default n : Nat} (h : positive parameter value default = .ok n)
    (mem : value ∈ [p.period, p.fast, p.slow, p.signal, p.window])
    (small : default < Decimal.int64Limit) : n < Decimal.int64Limit := by
  rcases positive_eq_ok h with ⟨-, rfl⟩ | ⟨v, given, pos, rfl⟩
  · exact small
  · have bits := fits v (List.mem_flatMap.2 ⟨value, mem, Option.mem_toList.2 given⟩)
    simp only [Decimal.isInt64, Bool.and_eq_true, decide_eq_true_eq] at bits
    omega

/-- The number of bars that a configured indicator needs is a number of 64 bits. -/
theorem minBars_lt_of_configure {k : Kind} {p : Params} {i : Indicator} (fits : p.Fits)
    (h : k.configure p = .ok i) : i.minBars < UInt64.size := by
  have limit : 2 * Decimal.int64Limit = UInt64.size := rfl
  cases gives_of_configure h with
  | @ema n period | @rsi n period | @atr n period =>
    have := fits.lt period (by simp) (by decide)
    simp only [Indicator.minBars]
    omega
  | @macd fast slow signal hfast hslow hsignal shorter =>
    have := fits.lt hslow (by simp) (by decide)
    have := fits.lt hsignal (by simp) (by decide)
    simp only [Indicator.minBars]
    omega
  | @bollinger n m period long multiplier =>
    have := fits.lt period (by simp) (by decide)
    simp only [Indicator.minBars]
    omega
  | cumulative => decide
  | session => decide
  | @rolling w n given window =>
    have := fits.lt window (by simp) (by decide)
    simp only [Indicator.minBars]
    omega

end Stratagem
