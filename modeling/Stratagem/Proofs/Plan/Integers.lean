import Stratagem.Proofs.Decimal.Exact
import Stratagem.Proofs.Plan.Located

/-!
# Whole numbers in definitions

The periods of an indicator and the ticks of a wait are whole numbers of 64 bits, and a document may
write them with or without a point. `Json.number?` is the number that a document writes.

* A parameter of an indicator is stored as it is written, or it is refused (`integerParam_cases`,
  `stores_setParams`).
* A number of ticks is refused if it is not whole, but a whole number of more than 64 bits counts as
  the nearest one of 64 bits (`readTicks_cases`).

`integers_as_written` says this of every tree that is read, and `ticks_not_as_written` shows that
the second rule differs from the first.
-/

namespace Stratagem

/-- The number that a value is written as. -/
def Json.number? : Json → Option ℚ
  | .int n => some n
  | .float x => (Decimal.Double.of x).value?
  | .null | .bool _ | .text _ | .array _ | .object _ => none

/-- The parameters of an indicator that are whole numbers. -/
def Params.integerKeys : List String := ["period", "fast", "slow", "signal", "window"]

/-- A parameter that is a whole number. -/
def Params.integer? (p : Params) (key : String) : Option Int :=
  match key with
  | "period" => p.period
  | "fast" => p.fast
  | "slow" => p.slow
  | "signal" => p.signal
  | "window" => p.window
  | _ => none

/-- The parameters with another whole number. -/
def Params.setInteger (p : Params) (key : String) (n : Int) : Params :=
  match key with
  | "period" => { p with period := some n }
  | "fast" => { p with fast := some n }
  | "slow" => { p with slow := some n }
  | "signal" => { p with signal := some n }
  | "window" => { p with window := some n }
  | _ => p

theorem Params.integer?_setInteger {p : Params} {n : Int} {key other : String}
    (integer : key ∈ integerKeys) (integer' : other ∈ integerKeys) :
    (p.setInteger key n).integer? other = if other = key then some n else p.integer? other := by
  simp only [integerKeys, List.mem_cons, List.not_mem_nil, or_false] at integer integer'
  rcases integer with rfl | rfl | rfl | rfl | rfl <;>
    rcases integer' with rfl | rfl | rfl | rfl | rfl <;> rfl

namespace Definition

variable {path : Path}

/-! ## Parameters -/

/-- A whole number of 64 bits is stored as it is written, and everything else is refused. -/
theorem integerParam_cases (v : Json) (key : String) (path : Path) :
    (∃ n : ℤ, v.number? = some (n : ℚ) ∧ Decimal.isInt64 n = true ∧
        integerParam v key path = .ok n) ∨
      integerParam v key path =
        failField path ("params." ++ key) (.expected "an integer" v.compact) := by
  cases v with
  | int n =>
    rw [integerParam]
    by_cases fits : Decimal.isInt64 n = true
    · rw [if_pos fits]
      exact .inl ⟨n, rfl, fits, rfl⟩
    · rw [if_neg fits]
      exact .inr rfl
  | float x =>
    rw [integerParam]
    cases whole : (Decimal.Double.of x).whole? with
    | none => exact .inr rfl
    | some n =>
      dsimp only
      by_cases small : (-Decimal.int64Limit < n && n < Decimal.int64Limit) = true
      · rw [if_pos small]
        refine .inl ⟨n, Decimal.Double.whole?_eq_some_iff.1 whole, ?_, rfl⟩
        simp only [Decimal.isInt64, Bool.and_eq_true, decide_eq_true_eq] at small ⊢
        omega
      · rw [if_neg small]
        exact .inr rfl
  | null | bool | text | array | object => exact .inr rfl

theorem setParam_integer {key : String} (integer : key ∈ Params.integerKeys) (params : Params)
    (v : Json) (path : Path) :
    setParam params key v path = do return params.setInteger key (← integerParam v key path) := by
  simp only [Params.integerKeys, List.mem_cons, List.not_mem_nil, or_false] at integer
  rcases integer with rfl | rfl | rfl | rfl | rfl <;> rfl

/-- Setting another parameter leaves the whole numbers as they are. -/
theorem integer?_setParam {params params' : Params} {key : String} {v : Json}
    (other : key ∉ Params.integerKeys) (h : setParam params key v path = .ok params') :
    params'.integer? = params.integer? := by
  simp only [Params.integerKeys, List.mem_cons, List.not_mem_nil, or_false, not_or] at other
  unfold setParam at h
  split at h
  · exact absurd rfl other.1
  · exact absurd rfl other.2.1
  · exact absurd rfl other.2.2.1
  · exact absurd rfl other.2.2.2.1
  · exact absurd rfl other.2.2.2.2
  · split at h
    · cases h
      rfl
    · cases h
  · split at h
    · cases h
      rfl
    · cases h
  · split at h
    · split at h
      · cases h
        rfl
      · cases h
    · cases h
  · cases h

/-- Each whole number among the parameters is the one that is written at its key, and it has 64
bits. One that is missing is not written. -/
def Stores (written : List (String × Json)) (params : Params) : Prop :=
  ∀ key ∈ Params.integerKeys,
    (∃ v n, (key, v) ∈ written ∧ v.number? = some ((n : ℤ) : ℚ) ∧ Decimal.isInt64 n = true ∧
      params.integer? key = some n) ∨
    (∀ v, (key, v) ∉ written) ∧ params.integer? key = none

theorem stores_nil : Stores [] {} := by
  intro key integer
  refine .inr ⟨fun v among => (List.not_mem_nil among).elim, ?_⟩
  simp only [Params.integerKeys, List.mem_cons, List.not_mem_nil, or_false] at integer
  rcases integer with rfl | rfl | rfl | rfl | rfl <;> rfl

theorem stores_setParam {written : List (String × Json)} {params params' : Params} {key : String}
    {v : Json} (stores : Stores written params) (h : setParam params key v path = .ok params') :
    Stores (written ++ [(key, v)]) params' := by
  intro other integer
  by_cases same : other = key
  · subst same
    rw [setParam_integer integer] at h
    obtain ⟨n, hn, h⟩ := bind_eq_ok.1 h
    cases h
    rcases integerParam_cases v other path with ⟨m, number, fits, stored⟩ | refused
    · rw [stored] at hn
      cases hn
      refine .inl ⟨v, n, by simp, number, fits, ?_⟩
      rw [Params.integer?_setInteger integer integer, if_pos rfl]
    · rw [refused] at hn
      cases hn
  · have kept : params'.integer? other = params.integer? other := by
      by_cases set : key ∈ Params.integerKeys
      · rw [setParam_integer set] at h
        obtain ⟨n, -, h⟩ := bind_eq_ok.1 h
        cases h
        rw [Params.integer?_setInteger set integer, if_neg same]
      · rw [integer?_setParam set h]
    rcases stores other integer with ⟨w, n, among, number, fits, stored⟩ | ⟨absent, none⟩
    · exact .inl ⟨w, n, List.mem_append_left _ among, number, fits, kept.trans stored⟩
    · refine .inr ⟨?_, kept.trans none⟩
      intro w among
      rcases List.mem_append.1 among with among | among
      · exact absent w among
      · cases List.mem_singleton.1 among
        exact same rfl

/-- Setting parameters one after the other stores the whole numbers among them. -/
theorem stores_setParams {written rest : List (String × Json)} {params params' : Params}
    (stores : Stores written params) (h : setParams rest params path = .ok params') :
    Stores (written ++ rest) params' := by
  induction rest generalizing written params with
  | nil =>
    cases h
    rwa [List.append_nil]
  | cons member rest ih =>
    obtain ⟨key, v⟩ := member
    obtain ⟨next, set, h⟩ := bind_eq_ok.1 h
    have later := ih (stores_setParam stores set) h
    rwa [List.append_assoc] at later

/-! ## Ticks -/

/-- The nearest whole number of 64 bits. -/
def nearestInt64 (n : Int) : Int := max (-Decimal.int64Limit) (min n (Decimal.int64Limit - 1))

theorem nearestInt64_eq_iff {n : Int} : nearestInt64 n = n ↔ Decimal.isInt64 n = true := by
  have limit : 0 < Decimal.int64Limit := by decide
  simp only [Decimal.isInt64, Bool.and_eq_true, decide_eq_true_eq]
  unfold nearestInt64
  omega

/-- What is not a whole number is refused as a number of ticks, and any other counts as the nearest
one of 64 bits. -/
theorem readTicks_cases (v : Json) (path : Path) :
    (∃ n : ℤ, v.number? = some (n : ℚ) ∧ readTicks v path = .ok (.ticks (nearestInt64 n))) ∨
      (∀ n : ℤ, v.number? ≠ some (n : ℚ)) ∧
        readTicks v path = failField path "bars" (.expectedPlain "an integer") := by
  cases v with
  | int n => exact .inl ⟨n, rfl, rfl⟩
  | float x =>
    rw [readTicks]
    cases whole : (Decimal.Double.of x).whole? with
    | none =>
      refine .inr ⟨?_, rfl⟩
      intro n number
      rw [Decimal.Double.whole?_eq_some_iff.2 number] at whole
      cases whole
    | some n => exact .inl ⟨n, Decimal.Double.whole?_eq_some_iff.1 whole, rfl⟩
  | null | bool | text | array | object => exact .inr ⟨nofun, rfl⟩

/-! ## Trees -/

/-- The parameters that an object gives. -/
def paramsOf (members : List (String × Json)) : List (String × Json) :=
  match Json.present? "params" members with
  | some (.object written) => written
  | _ => []

theorem stores_of_givesParams {members : List (String × Json)} {params : Params}
    (h : GivesParams members path params) : Stores (paramsOf members) params := by
  cases h with
  | none absent =>
    rw [paramsOf, absent]
    exact stores_nil
  | given present set =>
    rw [paramsOf, present]
    exact stores_setParams stores_nil set

theorem stores_of_readNode {v : Json} {name target : String} {params : Params}
    (h : readNode v path = .ok (.indicator name params target)) :
    ∃ members, v = .object members ∧ Stores (paramsOf members) params := by
  rcases readNode_cases h with ⟨items, ns, -, -, block⟩ | ⟨members, kind, rfl, -, reads⟩
  · cases block
  · cases reads with
    | indicator bindable given => exact ⟨members, rfl, stores_of_givesParams given⟩

theorem ticks_of_readNode {v : Json} {count : Int}
    (h : readNode v path = .ok (.wait (.ticks count))) :
    ∃ members w n, v = .object members ∧ Json.present? "bars" members = some w ∧
      w.number? = some ((n : ℤ) : ℚ) ∧ count = nearestInt64 n := by
  rcases readNode_cases h with ⟨items, ns, -, -, block⟩ | ⟨members, kind, rfl, -, reads⟩
  · cases block
  · cases reads with
    | wait ticks =>
      obtain ⟨w, bars, read⟩ := ticks count rfl
      rcases readTicks_cases w path with ⟨n, number, stored⟩ | ⟨-, refused⟩
      · rw [stored] at read
        cases read
        exact ⟨members, w, n, rfl, bars, number, rfl⟩
      · rw [refused] at read
        cases read

/-- The whole numbers of a tree are those of its document. The parameters of an indicator are stored
as they are written there, and have 64 bits. A number of ticks is stored as it is written exactly if
it has 64 bits, and counts as the nearest one that does otherwise. A value that is no whole number
is refused at its field, and so is a parameter of more than 64 bits. -/
theorem integers_as_written (v : Json) :
    (∀ tree, Node.ofJson v = .ok tree →
      (∀ path name params target, tree.at? path = some (.indicator name params target) →
        ∃ members, locate? (rooted v) path = some (.object members) ∧
          Stores (paramsOf members) params) ∧
      ∀ path count, tree.at? path = some (.wait (.ticks count)) →
        ∃ members w n, locate? (rooted v) path = some (.object members) ∧
          Json.present? "bars" members = some w ∧ w.number? = some ((n : ℤ) : ℚ) ∧
          count = nearestInt64 n ∧ (count = n ↔ Decimal.isInt64 n = true)) ∧
    (∀ params key path, key ∈ Params.integerKeys →
      (∀ n : ℤ, v.number? = some (n : ℚ) → Decimal.isInt64 n = false) →
      setParam params key v path =
        failField path ("params." ++ key) (.expected "an integer" v.compact)) ∧
    ∀ path, (∀ n : ℤ, v.number? ≠ some (n : ℚ)) →
      readTicks v path = failField path "bars" (.expectedPlain "an integer") := by
  refine ⟨?_, ?_, ?_⟩
  · intro tree h
    refine ⟨?_, ?_⟩
    · intro path name params target there
      obtain ⟨w, located, read⟩ := read_of_at h there
      obtain ⟨members, rfl, stores⟩ := stores_of_readNode read
      exact ⟨members, located, stores⟩
    · intro path count there
      obtain ⟨w, located, read⟩ := read_of_at h there
      obtain ⟨members, w, n, rfl, bars, number, rfl⟩ := ticks_of_readNode read
      exact ⟨members, w, n, located, bars, number, rfl, nearestInt64_eq_iff⟩
  · intro params key path integer beyond
    rw [setParam_integer integer]
    rcases integerParam_cases v key path with ⟨n, number, fits, -⟩ | refused
    · rw [beyond n number] at fits
      cases fits
    · rw [refused]
      rfl
  · intro path broken
    rcases readTicks_cases v path with ⟨n, number, -⟩ | ⟨-, refused⟩
    · exact absurd number (broken n)
    · exact refused

/-- An indicator whose period is written with a point, and a wait. -/
def twoIntegers : Json :=
  .array [.object [("name", .text "ema"), ("params", .object [("period", .float 14.0)]),
      ("target", .text "e"), ("type", .text "indicator")],
    .object [("bars", .int 3), ("type", .text "wait")]]

theorem integers_as_written_two_integers :
    ∃ tree, Node.ofJson twoIntegers = .ok tree ∧
      tree.at? [.child 0] = some (.indicator "ema" { period := some 14 } "e") ∧
      Stores [("period", .float 14.0)] { period := some 14 } ∧
      tree.at? [.child 1] = some (.wait (.ticks 3)) ∧
      (∃ w n, Json.number? w = some ((n : ℤ) : ℚ) ∧ (3 : Int) = nearestInt64 n) ∧
      setParam {} "window" (.text "3") [] =
        failField [] "params.window" (.expected "an integer" (Json.text "3").compact) ∧
      readTicks (.text "3") [] = failField [] "bars" (.expectedPlain "an integer") := by
  have read : Node.ofJson twoIntegers = .ok (.block [.indicator "ema" { period := some 14 } "e",
      .wait (.ticks 3)]) := by rfl
  obtain ⟨trees, -, -⟩ := integers_as_written twoIntegers
  obtain ⟨-, refusesParam, refusesTicks⟩ := integers_as_written (.text "3")
  obtain ⟨indicators, waits⟩ := trees _ read
  obtain ⟨members, located, stores⟩ := indicators [.child 0] "ema" _ "e" rfl
  obtain ⟨members', w, n, -, -, number, same, -⟩ := waits [.child 1] 3 rfl
  cases located
  refine ⟨_, read, rfl, stores, rfl, ⟨w, n, number, same⟩, ?_, refusesTicks [] nofun⟩
  exact refusesParam {} "window" [] (by decide) nofun

/-- A tree with a wait for more ticks than 64 bits can count. -/
def endless : Json := .object [("bars", .int 9223372036854775808), ("type", .text "wait")]

/-- A number of ticks that has more than 64 bits is changed, where a parameter is refused. -/
theorem ticks_not_as_written :
    (Json.int 9223372036854775808).number? = some ((9223372036854775808 : ℤ) : ℚ) ∧
      Node.ofJson endless = .ok (.block [.wait (.ticks 9223372036854775807)]) ∧
      setParam {} "period" (.int 9223372036854775808) [] =
        failField [] "params.period" (.expected "an integer" "9223372036854775808") :=
  ⟨rfl, rfl, rfl⟩

end Definition

end Stratagem
