import Stratagem.Formula.Evaluation
import Stratagem.Proofs.Chains

/-!
# What expressions read

An expression that has no value for want of a variable names that variable: it occurs in the
expression, and it has no value (`unbound_evaluate`). Short circuits only take errors away, so the
occurrences are an upper bound. Operators and functions find faults in the values of their operands
only (`Fault.OfValues`). No other variable has a say in the value (`evaluate_congr`), and a constant
has its value whatever the variables are (`evaluate_constant`).
-/

namespace Stratagem

variable {α β : Type}

/-! ## Operators -/

/-- What goes wrong, if anything does, has a property. -/
def Faults (P : Fault → Prop) (x : Except Fault α) : Prop := ∀ fault, x = .error fault → P fault

namespace Faults

variable {P Q : Fault → Prop} {x : Except Fault α}

theorem ok (a : α) : Faults P (.ok a : Except Fault α) := by
  intro fault h
  cases h

theorem bind {f : α → Except Fault β} (hx : Faults P x) (hf : ∀ a, Faults P (f a)) :
    Faults P (x >>= f) := by
  intro fault h
  rcases bind_eq_error.1 h with h | ⟨a, -, h⟩
  · exact hx fault h
  · exact hf a fault h

theorem mono (h : Faults P x) (imp : ∀ fault, P fault → Q fault) : Faults Q x :=
  fun fault failed => imp fault (h fault failed)

end Faults

/-- The fault lies in the values of operands. -/
def Fault.OfValues : Fault → Prop
  | unbound _ | argumentCount _ _ | conditionKind _ _ | numberKind _ _ => False
  | numberOperand _ _ | boolOperand _ _ | divisionByZero _ | remainderByZero _ | notFinite _ _ _
  | unordered _ _ | incomparable _ _ => True

theorem faults_asNumber (v : Value) (operator : String) :
    Faults Fault.OfValues (v.asNumber operator) := by
  intro fault h
  cases v <;> cases h <;> trivial

theorem faults_asBool (v : Value) (operator : String) :
    Faults Fault.OfValues (v.asBool operator) := by
  intro fault h
  cases v <;> cases h <;> trivial

theorem faults_unary (op : UnaryOp) (v : Value) : Faults Fault.OfValues (op.apply v) := by
  cases op with
  | minus => exact (faults_asNumber v _).bind fun _ => .ok _
  | plus => exact (faults_asNumber v _).bind fun _ => .ok _
  | not => exact (faults_asBool v _).bind fun _ => .ok _

theorem faults_binary (op : BinaryOp) (a b : Float) : Faults Fault.OfValues (op.apply a b) := by
  have finite : ∀ result, Faults Fault.OfValues (op.finite a b result) := by
    intro result fault h
    unfold BinaryOp.finite at h
    split at h <;> cases h
    trivial
  intro fault h
  cases op with
  | add => exact finite _ fault h
  | sub => exact finite _ fault h
  | mul => exact finite _ fault h
  | div =>
    simp only [BinaryOp.apply] at h
    split at h
    · cases h
      trivial
    · exact finite _ fault h
  | rem =>
    simp only [BinaryOp.apply] at h
    split at h
    · cases h
      trivial
    · exact finite _ fault h
  | pow => exact finite _ fault h

theorem faults_compare (op : CompareOp) (v w : Value) : Faults Fault.OfValues (op.holds v w) := by
  intro fault h
  cases v <;> cases w <;> cases op <;> cases h <;> trivial

theorem faults_numbers (operator : String) (values : List Value) :
    Faults Fault.OfValues (values.mapM (Value.asNumber operator)) := by
  induction values with
  | nil => exact .ok []
  | cons v values ih =>
    rw [List.mapM_cons]
    exact (faults_asNumber v operator).bind fun _ => ih.bind fun _ => .ok _

theorem faults_connective (f : Builtin) (v w : Value) :
    Faults Fault.OfValues (do
      let a ← v.asBool f.name
      let b ← w.asBool f.name
      return Value.bool (f.connect a b)) :=
  (faults_asBool v _).bind fun _ => (faults_asBool w _).bind fun _ => .ok _

/-- A function that takes so many arguments finds faults in their values only. -/
theorem faults_call {f : Builtin} {values : List Value} (takes : f.accepts values.length = true) :
    Faults Fault.OfValues (f.apply values) := by
  cases f with
  | min => exact (faults_numbers _ values).bind fun _ => .ok _
  | max => exact (faults_numbers _ values).bind fun _ => .ok _
  | abs =>
    match values with
    | [v] => exact (faults_asNumber v _).bind fun _ => .ok _
    | [] => cases takes
    | _ :: _ :: _ => simp [Builtin.accepts, Builtin.arity] at takes
  | implies | iff | xor | nand | nor =>
    match values with
    | [v, w] => exact faults_connective _ v w
    | [] => cases takes
    | [_] => cases takes
    | _ :: _ :: _ :: _ => simp [Builtin.accepts, Builtin.arity] at takes

/-! ## Expressions -/

namespace Expr

variable {lookup : String → Option Value} {x : String}

/-- As many values as expressions. -/
theorem length_of_evaluateAll {es : List Expr} {values : List Value}
    (h : evaluateAll lookup es = .ok values) : values.length = es.length := by
  induction es generalizing values with
  | nil =>
    cases h
    rfl
  | cons e es ih =>
    rw [evaluateAll] at h
    obtain ⟨v, -, h⟩ := bind_eq_ok.1 h
    obtain ⟨vs, hvs, h⟩ := bind_eq_ok.1 h
    cases h
    exact congrArg Nat.succ (ih hvs)

/-- If the fault is that a variable has no value, it is one of these variables, and it has none. -/
def Wants (lookup : String → Option Value) (names : List String) (fault : Fault) : Prop :=
  ∀ x, fault = .unbound x → x ∈ names ∧ lookup x = none

theorem Wants.left {xs : List String} (ys : List String) {fault : Fault}
    (h : Wants lookup xs fault) : Wants lookup (xs ++ ys) fault :=
  fun x same => (h x same).imp_left (List.mem_append_left ys)

theorem Wants.right (xs : List String) {ys : List String} {fault : Fault}
    (h : Wants lookup ys fault) : Wants lookup (xs ++ ys) fault :=
  fun x same => (h x same).imp_left (List.mem_append_right xs)

/-- Faults in values are not for want of a variable. -/
theorem wants_ofValues {α : Type} {y : Except Fault α} (h : Faults Fault.OfValues y)
    (names : List String) : Faults (Wants lookup names) y := by
  refine h.mono fun fault ofValues x same => ?_
  subst same
  exact ofValues.elim

mutual
/-- An expression that fails for want of a variable mentions it, and it has no value. -/
theorem wants_evaluate (e : Expr) : Faults (Wants lookup e.occurrences) (e.evaluate lookup) := by
  match e with
  | number _ => exact .ok _
  | bool _ => exact .ok _
  | text _ => exact .ok _
  | var name =>
    rw [evaluate]
    split
    · exact .ok _
    · rintro fault ⟨⟩ x ⟨⟩
      exact ⟨List.mem_singleton_self _, by assumption⟩
  | unary op e =>
    rw [evaluate]
    exact (wants_evaluate e).bind fun v => wants_ofValues (faults_unary op v) _
  | binary op l r =>
    have left := (wants_evaluate l).mono fun _ => Wants.left r.occurrences
    have right := (wants_evaluate r).mono fun _ => Wants.right l.occurrences
    rw [evaluate]
    refine left.bind fun v => (wants_ofValues (faults_asNumber v _) _).bind fun a => ?_
    refine right.bind fun w => (wants_ofValues (faults_asNumber w _) _).bind fun b => ?_
    exact (wants_ofValues (faults_binary op a b) _).bind fun _ => .ok _
  | compare first rest =>
    rw [evaluate]
    refine ((wants_evaluate first).mono fun _ => Wants.left _).bind fun v => ?_
    exact (wants_evaluateChain v rest).mono fun _ => Wants.right _
  | and l r =>
    have left := (wants_evaluate l).mono fun _ => Wants.left r.occurrences
    have right := (wants_evaluate r).mono fun _ => Wants.right l.occurrences
    rw [evaluate]
    refine left.bind fun v => (wants_ofValues (faults_asBool v _) _).bind fun a => ?_
    cases a with
    | false => exact .ok _
    | true => exact right.bind fun w => (wants_ofValues (faults_asBool w _) _).bind fun _ => .ok _
  | or l r =>
    have left := (wants_evaluate l).mono fun _ => Wants.left r.occurrences
    have right := (wants_evaluate r).mono fun _ => Wants.right l.occurrences
    rw [evaluate]
    refine left.bind fun v => (wants_ofValues (faults_asBool v _) _).bind fun a => ?_
    cases a with
    | true => exact .ok _
    | false => exact right.bind fun w => (wants_ofValues (faults_asBool w _) _).bind fun _ => .ok _
  | call f args =>
    rw [evaluate]
    split
    · rename_i takes
      intro fault h
      rcases bind_eq_error.1 h with h | ⟨values, hvalues, h⟩
      · exact wants_evaluateAll args fault h
      · rw [← length_of_evaluateAll hvalues] at takes
        exact wants_ofValues (faults_call takes) _ fault h
    · rintro fault ⟨⟩ x ⟨⟩

theorem wants_evaluateChain (left : Value) (rest : List (CompareOp × Expr)) :
    Faults (Wants lookup (occurrencesInPairs rest)) (evaluateChain lookup left rest) := by
  match rest with
  | [] => exact .ok _
  | (op, e) :: rest =>
    rw [evaluateChain]
    refine ((wants_evaluate e).mono fun _ => Wants.left _).bind fun right => ?_
    refine (wants_ofValues (faults_compare op left right) _).bind fun holds => ?_
    cases holds with
    | false => exact .ok _
    | true => exact (wants_evaluateChain right rest).mono fun _ => Wants.right _

theorem wants_evaluateAll (es : List Expr) :
    Faults (Wants lookup (occurrencesInAll es)) (evaluateAll lookup es) := by
  match es with
  | [] => exact .ok _
  | e :: es =>
    rw [evaluateAll]
    refine ((wants_evaluate e).mono fun _ => Wants.left _).bind fun v => ?_
    exact ((wants_evaluateAll es).mono fun _ => Wants.right _).bind fun vs => .ok _
end

theorem unbound_evaluate (e : Expr) (h : e.evaluate lookup = .error (.unbound x)) :
    x ∈ e.occurrences ∧ lookup x = none :=
  wants_evaluate e _ h x rfl

theorem unbound_evaluateBool {e : Expr} (h : e.evaluateBool lookup = .error (.unbound x)) :
    x ∈ e.occurrences ∧ lookup x = none := by
  unfold evaluateBool at h
  rcases bind_eq_error.1 h with h | ⟨v, -, h⟩
  · exact unbound_evaluate e h
  · cases v <;> cases h

theorem unbound_evaluateNumber {e : Expr} (h : e.evaluateNumber lookup = .error (.unbound x)) :
    x ∈ e.occurrences ∧ lookup x = none := by
  unfold evaluateNumber at h
  rcases bind_eq_error.1 h with h | ⟨v, -, h⟩
  · exact unbound_evaluate e h
  · cases v <;> cases h

/-! ## Other variables -/

section

variable {other : String → Option Value}

mutual
/-- Only the variables of an expression have a say in its value. -/
theorem evaluate_congr (e : Expr) (agree : ∀ x ∈ e.occurrences, lookup x = other x) :
    e.evaluate lookup = e.evaluate other := by
  match e with
  | number _ => rfl
  | bool _ => rfl
  | text _ => rfl
  | var name => rw [evaluate, evaluate, agree name (List.mem_singleton_self name)]
  | unary op e => rw [evaluate, evaluate, evaluate_congr e agree]
  | binary op l r =>
    obtain ⟨left, right⟩ := List.forall_mem_append.1 agree
    rw [evaluate, evaluate, evaluate_congr l left, evaluate_congr r right]
  | compare first rest =>
    obtain ⟨left, right⟩ := List.forall_mem_append.1 agree
    rw [evaluate, evaluate, evaluate_congr first left]
    exact congrArg _ (funext fun v => evaluateChain_congr v rest right)
  | and l r =>
    obtain ⟨left, right⟩ := List.forall_mem_append.1 agree
    rw [evaluate, evaluate, evaluate_congr l left, evaluate_congr r right]
  | or l r =>
    obtain ⟨left, right⟩ := List.forall_mem_append.1 agree
    rw [evaluate, evaluate, evaluate_congr l left, evaluate_congr r right]
  | call f args => rw [evaluate, evaluate, evaluateAll_congr args agree]

theorem evaluateChain_congr (v : Value) (rest : List (CompareOp × Expr))
    (agree : ∀ x ∈ occurrencesInPairs rest, lookup x = other x) :
    evaluateChain lookup v rest = evaluateChain other v rest := by
  match rest with
  | [] => rfl
  | (op, e) :: rest =>
    obtain ⟨first, later⟩ := List.forall_mem_append.1 agree
    have chain := fun right => evaluateChain_congr right rest later
    simp only [evaluateChain, evaluate_congr e first, chain]

theorem evaluateAll_congr (es : List Expr)
    (agree : ∀ x ∈ occurrencesInAll es, lookup x = other x) :
    evaluateAll lookup es = evaluateAll other es := by
  match es with
  | [] => rfl
  | e :: es =>
    obtain ⟨first, later⟩ := List.forall_mem_append.1 agree
    rw [evaluateAll, evaluateAll, evaluate_congr e first, evaluateAll_congr es later]
end

variable {e : Expr} (agree : ∀ x ∈ e.occurrences, lookup x = other x)
include agree

theorem evaluateBool_congr : e.evaluateBool lookup = e.evaluateBool other := by
  rw [evaluateBool, evaluateBool, evaluate_congr e agree]

theorem evaluateNumber_congr : e.evaluateNumber lookup = e.evaluateNumber other := by
  rw [evaluateNumber, evaluateNumber, evaluate_congr e agree]

end

/-! ## Constants -/

/-- A constant has its value whatever the variables are. -/
theorem evaluate_constant {e : Expr} {c : Float} (h : e.constant? = some c) :
    e.evaluate lookup = .ok (.number c) := by
  fun_induction constant? e generalizing c with
  | case1 x =>
    cases h
    rfl
  | case2 e ih =>
    obtain ⟨y, hy, rfl⟩ := Option.map_eq_some_iff.1 h
    rw [evaluate, ih hy]
    rfl
  | case3 e ih =>
    rw [evaluate, ih h]
    rfl
  | case4 => cases h

theorem evaluateNumber_constant {e : Expr} {c : Float} (h : e.constant? = some c) :
    e.evaluateNumber lookup = .ok c := by
  rw [evaluateNumber, evaluate_constant h]
  rfl

end Expr

end Stratagem
