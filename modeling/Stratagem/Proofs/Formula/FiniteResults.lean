import Stratagem.Proofs.Decimal.Finite
import Stratagem.Proofs.Formula.ChainedComparisons
import Stratagem.Proofs.Formula.Closure
import Stratagem.Proofs.Formula.Reads

/-!
# Expressions over finite numbers

The value of an expression that was read from a text is no infinite number and no number that is
none, as long as the numbers that it looks up are finite (`closed_staysFinite`). Every constructor
has a reason of its own for this:

* the literals that can be written are finite;
* an operator on two numbers refuses a result that is not finite (`BinaryOp.isFinite_apply`);
* signs and `abs` keep a number finite;
* `min` and `max` start from an infinity, which the first argument replaces. That there is one is
  seen to when the call is read (`isFinite_foldl`, `finite_apply`).
-/

namespace Stratagem

/-- A number is finite; values of other kinds always are. -/
def Value.Finite : Value → Prop
  | .number x => x.isFinite = true
  | .bool _ | .text _ => True

namespace Finite

/-- Choosing one of two doubles again and again ends with a finite one if all of them are finite. -/
theorem isFinite_foldl_of_finite {pick : Float → Float → Float}
    (either : ∀ a b, pick a b = a ∨ pick a b = b) {xs : List Float} {start : Float}
    (first : start.isFinite = true) (finite : ∀ x ∈ xs, x.isFinite = true) :
    (xs.foldl pick start).isFinite = true := by
  induction xs generalizing start with
  | nil => exact first
  | cons x xs ih =>
    obtain ⟨hx, hxs⟩ := List.forall_mem_cons.1 finite
    refine ih ?_ hxs
    rcases either start x with eq | eq
    · rwa [eq]
    · rwa [eq]

/-- The same from a double that any finite one is preferred to, if there is another one. -/
theorem isFinite_foldl {pick : Float → Float → Float}
    (either : ∀ a b, pick a b = a ∨ pick a b = b) {xs : List Float} {start : Float}
    (yields : ∀ x : Float, x.isFinite = true → pick start x = x) (some : xs ≠ [])
    (finite : ∀ x ∈ xs, x.isFinite = true) : (xs.foldl pick start).isFinite = true := by
  cases xs with
  | nil => exact absurd rfl some
  | cons x xs =>
    obtain ⟨hx, hxs⟩ := List.forall_mem_cons.1 finite
    rw [List.foldl_cons, yields x hx]
    exact isFinite_foldl_of_finite either hx hxs

theorem minDouble_eq_or (a b : Float) : minDouble a b = a ∨ minDouble a b = b := by
  unfold minDouble
  split
  · exact .inr rfl
  · exact .inl rfl

theorem maxDouble_eq_or (a b : Float) : maxDouble a b = a ∨ maxDouble a b = b := by
  unfold maxDouble
  split
  · exact .inr rfl
  · exact .inl rfl

variable {xs : List Float}

theorem isFinite_foldl_minDouble (some : xs ≠ []) (finite : ∀ x ∈ xs, x.isFinite = true) :
    (xs.foldl minDouble (1.0 / 0.0)).isFinite = true := by
  refine isFinite_foldl minDouble_eq_or ?_ some finite
  intro x hx
  simp [minDouble, lt_infinity hx]

theorem isFinite_foldl_maxDouble (some : xs ≠ []) (finite : ∀ x ∈ xs, x.isFinite = true) :
    (xs.foldl maxDouble (-1.0 / 0.0)).isFinite = true := by
  refine isFinite_foldl maxDouble_eq_or ?_ some finite
  intro x hx
  simp [maxDouble, neg_infinity_lt hx]

end Finite

/-! ## Operators and functions -/

theorem Value.eq_number_of_asNumber {operator : String} {v : Value} {x : Float}
    (h : v.asNumber operator = .ok x) : v = .number x := by
  cases v <;> cases h
  rfl

/-- The numbers of several values, if all of them are numbers. -/
theorem Value.eq_map_of_asNumber {operator : String} {values : List Value} {xs : List Float}
    (h : values.mapM (Value.asNumber operator) = .ok xs) : values = xs.map Value.number := by
  induction values generalizing xs with
  | nil =>
    cases h
    rfl
  | cons v values ih =>
    rw [List.mapM_cons] at h
    obtain ⟨x, hx, h⟩ := bind_eq_ok.1 h
    obtain ⟨xs, hxs, h⟩ := bind_eq_ok.1 h
    cases h
    rw [List.map_cons, Value.eq_number_of_asNumber hx, ih hxs]

theorem UnaryOp.finite_apply {op : UnaryOp} {v w : Value} (finite : v.Finite)
    (h : op.apply v = .ok w) : w.Finite := by
  cases op with
  | minus =>
    obtain ⟨x, hx, h⟩ := bind_eq_ok.1 h
    cases h
    rw [Value.eq_number_of_asNumber hx] at finite
    exact Finite.isFinite_neg finite
  | plus =>
    obtain ⟨x, hx, h⟩ := bind_eq_ok.1 h
    cases h
    rwa [Value.eq_number_of_asNumber hx] at finite
  | not =>
    obtain ⟨b, -, h⟩ := bind_eq_ok.1 h
    cases h
    trivial

/-- What an operator on two numbers gives is finite, whatever the two are. -/
theorem BinaryOp.isFinite_apply {op : BinaryOp} {a b x : Float} (h : op.apply a b = .ok x) :
    x.isFinite = true := by
  have checked : ∀ {y}, op.finite a b y = .ok x → x.isFinite = true := by
    intro y h
    unfold BinaryOp.finite at h
    split at h
    · rename_i finite
      cases h
      exact finite
    · cases h
  cases op with
  | div | rem =>
    simp only [BinaryOp.apply] at h
    split at h
    · cases h
    · exact checked h
  | _ => exact checked h

namespace Builtin

variable {f : Builtin} {values : List Value} {v : Value}

/-- The numbers that a function takes: as many as it has arguments, and finite as these are. -/
theorem numbers_of_accepted {xs : List Float} (takes : f.accepts values.length = true)
    (finite : ∀ v ∈ values, v.Finite) (h : values.mapM (Value.asNumber f.name) = .ok xs) :
    xs ≠ [] ∧ ∀ x ∈ xs, x.isFinite = true := by
  obtain rfl := Value.eq_map_of_asNumber h
  refine ⟨?_, fun x hx => finite (.number x) (List.mem_map_of_mem hx)⟩
  rintro rfl
  cases f <;> cases takes

/-- What a function of finite values gives is finite, if it takes so many. -/
theorem finite_apply (takes : f.accepts values.length = true) (finite : ∀ v ∈ values, v.Finite)
    (h : f.apply values = .ok v) : v.Finite := by
  cases f with
  | min =>
    obtain ⟨xs, hxs, h⟩ := bind_eq_ok.1 h
    cases h
    obtain ⟨some, finite⟩ := numbers_of_accepted takes finite hxs
    exact Finite.isFinite_foldl_minDouble some finite
  | max =>
    obtain ⟨xs, hxs, h⟩ := bind_eq_ok.1 h
    cases h
    obtain ⟨some, finite⟩ := numbers_of_accepted takes finite hxs
    exact Finite.isFinite_foldl_maxDouble some finite
  | abs =>
    simp only [apply] at h
    split at h
    · rename_i w
      obtain ⟨x, hx, h⟩ := bind_eq_ok.1 h
      cases h
      have finite := finite w List.mem_cons_self
      rw [Value.eq_number_of_asNumber hx] at finite
      exact Finite.isFinite_abs finite
    · cases h
  | implies | iff | xor | nand | nor =>
    simp only [apply] at h
    split at h
    · obtain ⟨a, -, h⟩ := bind_eq_ok.1 h
      obtain ⟨b, -, h⟩ := bind_eq_ok.1 h
      cases h
      trivial
    · cases h

end Builtin

/-! ## Expressions -/

namespace Expr

/-- The value of the expression is finite wherever the values that it looks up are. -/
def StaysFinite (e : Expr) : Prop :=
  ∀ lookup : String → Option Value, (∀ name v, lookup name = some v → v.Finite) →
    ∀ v, e.evaluate lookup = .ok v → v.Finite

theorem finite_evaluateAll {lookup : String → Option Value} {es : List Expr} {values : List Value}
    (finite : ∀ name v, lookup name = some v → v.Finite) (stay : ∀ e ∈ es, e.StaysFinite)
    (h : evaluateAll lookup es = .ok values) : ∀ v ∈ values, v.Finite := by
  induction es generalizing values with
  | nil =>
    cases h
    exact List.forall_mem_nil _
  | cons e es ih =>
    obtain ⟨he, hes⟩ := List.forall_mem_cons.1 stay
    rw [evaluateAll] at h
    obtain ⟨v, hv, h⟩ := bind_eq_ok.1 h
    obtain ⟨vs, hvs, h⟩ := bind_eq_ok.1 h
    cases h
    exact List.forall_mem_cons.2 ⟨he lookup finite v hv, ih hes hvs⟩

theorem staysFinite_number {x : Float} (finite : x.isFinite = true) : (number x).StaysFinite := by
  rintro lookup - v h
  cases h
  exact finite

theorem staysFinite_bool (b : Bool) : (bool b).StaysFinite := by
  rintro lookup - v h
  cases h
  trivial

theorem staysFinite_text (s : String) : (text s).StaysFinite := by
  rintro lookup - v h
  cases h
  trivial

theorem staysFinite_var (name : String) : (var name).StaysFinite := by
  intro lookup finite v h
  rw [evaluate] at h
  split at h
  · rename_i w found
    cases h
    exact finite name v found
  · cases h

theorem StaysFinite.unary (op : UnaryOp) {e : Expr} (he : e.StaysFinite) :
    (unary op e).StaysFinite := by
  intro lookup finite v h
  rw [evaluate] at h
  obtain ⟨w, hw, h⟩ := bind_eq_ok.1 h
  exact UnaryOp.finite_apply (he lookup finite w hw) h

/-- What the operands are makes no difference. -/
theorem staysFinite_binary (op : BinaryOp) (l r : Expr) : (binary op l r).StaysFinite := by
  rintro lookup - v h
  rw [evaluate] at h
  obtain ⟨_, -, h⟩ := bind_eq_ok.1 h
  obtain ⟨a, -, h⟩ := bind_eq_ok.1 h
  obtain ⟨_, -, h⟩ := bind_eq_ok.1 h
  obtain ⟨b, -, h⟩ := bind_eq_ok.1 h
  obtain ⟨x, hx, h⟩ := bind_eq_ok.1 h
  cases h
  exact BinaryOp.isFinite_apply hx

theorem staysFinite_compare (first : Expr) (rest : List (CompareOp × Expr)) :
    (compare first rest).StaysFinite := by
  rintro lookup - v h
  rw [evaluate] at h
  obtain ⟨w, -, h⟩ := bind_eq_ok.1 h
  obtain ⟨b, rfl⟩ := bool_of_evaluateChain h
  trivial

theorem staysFinite_and (l r : Expr) : (and l r).StaysFinite := by
  rintro lookup - v h
  rw [evaluate] at h
  obtain ⟨_, -, h⟩ := bind_eq_ok.1 h
  obtain ⟨a, -, h⟩ := bind_eq_ok.1 h
  split at h
  · obtain ⟨_, -, h⟩ := bind_eq_ok.1 h
    obtain ⟨b, -, h⟩ := bind_eq_ok.1 h
    cases h
    trivial
  · cases h
    trivial

theorem staysFinite_or (l r : Expr) : (or l r).StaysFinite := by
  rintro lookup - v h
  rw [evaluate] at h
  obtain ⟨_, -, h⟩ := bind_eq_ok.1 h
  obtain ⟨a, -, h⟩ := bind_eq_ok.1 h
  split at h
  · cases h
    trivial
  · obtain ⟨_, -, h⟩ := bind_eq_ok.1 h
    obtain ⟨b, -, h⟩ := bind_eq_ok.1 h
    cases h
    trivial

theorem staysFinite_call {f : Builtin} {args : List Expr} (takes : f.accepts args.length = true)
    (stay : ∀ e ∈ args, e.StaysFinite) : (call f args).StaysFinite := by
  intro lookup finite v h
  rw [evaluate, if_pos takes] at h
  obtain ⟨values, hvalues, h⟩ := bind_eq_ok.1 h
  rw [← length_of_evaluateAll hvalues] at takes
  exact Builtin.finite_apply takes (finite_evaluateAll finite stay hvalues) h

end Expr

/-- The values of all expressions that can be read stay finite. -/
theorem Grammar.closed_staysFinite : Grammar.Closed Expr.StaysFinite where
  number := Expr.staysFinite_number
  bool := Expr.staysFinite_bool
  text := Expr.staysFinite_text
  var := Expr.staysFinite_var
  unary := Expr.StaysFinite.unary
  binary op l r _ _ := Expr.staysFinite_binary op l r
  compare _ _ := Expr.staysFinite_compare _ _
  and _ _ := Expr.staysFinite_and _ _
  or _ _ := Expr.staysFinite_or _ _
  call := Expr.staysFinite_call

end Stratagem
