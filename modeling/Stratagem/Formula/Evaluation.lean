import Stratagem.Formula.Expr
import Stratagem.Formula.Value
import Stratagem.Scalar

/-!
# Evaluation

The value of an expression where `lookup` gives the values of variables. Evaluation is pure and
depends on `lookup` only.

* Arithmetic is that of doubles. Division and remainder by zero and results that are not finite are
  faults; a remainder has the sign of the divisor.
* `==` and `!=` on numbers compare within `tolerance`; texts and truth values know these two only,
  and values of different kinds are never compared.
* `and` and `or` look at their second operand only if the first leaves the answer open, and a chain
  of comparisons stops at the first pair that does not hold.
-/

namespace Stratagem

/-- Why an expression has no value. -/
inductive Fault
  /-- A variable has no value. -/
  | unbound (name : String)
  /-- An operator or function of numbers got something else. -/
  | numberOperand (operator : String) (value : Value)
  /-- A connective got something that is not a truth value. -/
  | boolOperand (operator : String) (value : Value)
  /-- A condition has a value that is not a truth value. -/
  | conditionKind (condition : Expr) (value : Value)
  /-- An expression that stands for a number has another value. -/
  | numberKind (expression : Expr) (value : Value)
  | divisionByZero (dividend : Float)
  | remainderByZero (dividend : Float)
  /-- A result is infinite or no number. -/
  | notFinite (left : Float) (op : BinaryOp) (right : Float)
  /-- Texts and truth values have no order. -/
  | unordered (op : CompareOp) (value : Value)
  /-- The values of a comparison are of different kinds. -/
  | incomparable (left right : Value)
  /-- A function got a number of arguments that it does not take. -/
  | argumentCount (function : Builtin) (count : Nat)

namespace Fault

/-- What is wrong, in words. -/
def describe : Fault → String
  | unbound name => s!"unknown variable '{name}'"
  | numberOperand op v => s!"operator '{op}' expects a number, got {v.described}"
  | boolOperand op v => s!"'{op}' expects a boolean, got {v.described}"
  | conditionKind e v =>
    s!"condition '{e.render}' evaluated to {v.described}, expected a boolean"
  | numberKind e v => s!"expression '{e.render}' evaluated to {v.described}, expected a number"
  | divisionByZero x => s!"division by zero: {Decimal.plain x} / 0"
  | remainderByZero x => s!"modulo by zero: {Decimal.plain x} % 0"
  | notFinite x op y =>
    s!"{Decimal.plain x} {op.symbol} {Decimal.plain y} is not a finite number"
  | unordered op v => s!"operator '{op.symbol}' is not defined for {v.kindName} values"
  | incomparable v w => s!"cannot compare {v.described} with {w.described}"
  | argumentCount f n => s!"{f.name}() called with {n} argument(s)"

end Fault

namespace Value

/-- The number of a value that an operator needs one of. -/
def asNumber (operator : String) : Value → Except Fault Float
  | number x => .ok x
  | v => .error (.numberOperand operator v)

/-- The truth value of a value that a connective needs one of. -/
def asBool (operator : String) : Value → Except Fault Bool
  | bool b => .ok b
  | v => .error (.boolOperand operator v)

end Value

/-- Numbers closer than this are equal. -/
def tolerance : Float := 1e-9

namespace UnaryOp

/-- The value of an operator on a value. -/
def apply : UnaryOp → Value → Except Fault Value
  | minus, v => do return .number (-(← v.asNumber "-"))
  | plus, v => do return .number (← v.asNumber "+")
  | not, v => do return .bool (!(← v.asBool "not"))

end UnaryOp

namespace BinaryOp

/-- A number as a result, if it is finite. -/
def finite (op : BinaryOp) (a b result : Float) : Except Fault Float :=
  if result.isFinite then .ok result else .error (.notFinite a op b)

/-- The value of an operator on two numbers. -/
def apply (op : BinaryOp) (a b : Float) : Except Fault Float :=
  match op with
  | add => op.finite a b (a + b)
  | sub => op.finite a b (a - b)
  | mul => op.finite a b (a * b)
  | div => if b == 0.0 then .error (.divisionByZero a) else op.finite a b (a / b)
  | rem =>
    if b == 0.0 then .error (.remainderByZero a) else op.finite a b (a - b * (a / b).floor)
  | pow => op.finite a b (a.pow b)

end BinaryOp

namespace CompareOp

/-- Whether two numbers compare. -/
def holdsForNumbers (op : CompareOp) (a b : Float) : Bool :=
  match op with
  | lt => a < b
  | le => a ≤ b
  | gt => b < a
  | ge => b ≤ a
  | eq => (a - b).abs < tolerance
  | ne => tolerance ≤ (a - b).abs

/-- Whether two values without an order compare; `same` tells whether they are equal. -/
def holdsForEqual (op : CompareOp) (value : Value) (same : Bool) : Except Fault Bool :=
  match op with
  | eq => .ok same
  | ne => .ok (!same)
  | lt | le | gt | ge => .error (.unordered op value)

/-- Whether two values compare. -/
def holds (op : CompareOp) : Value → Value → Except Fault Bool
  | .number a, .number b => .ok (op.holdsForNumbers a b)
  | .bool a, .bool b => op.holdsForEqual (.bool a) (a == b)
  | .text a, .text b => op.holdsForEqual (.text a) (a == b)
  | v, w => .error (.incomparable v w)

end CompareOp

namespace Builtin

/-- The truth value of a connective. -/
def connect : Builtin → Bool → Bool → Bool
  | implies, a, b => !a || b
  | iff, a, b => a == b
  | xor, a, b => a != b
  | nand, a, b => !(a && b)
  | _, a, b => !(a || b)

/-- The value of a function on its arguments. -/
def apply (f : Builtin) (values : List Value) : Except Fault Value :=
  match f with
  | min => do
    let xs ← values.mapM (Value.asNumber f.name)
    return .number (xs.foldl minDouble (1.0 / 0.0))
  | max => do
    let xs ← values.mapM (Value.asNumber f.name)
    return .number (xs.foldl maxDouble (-1.0 / 0.0))
  | abs =>
    match values with
    | [v] => do return .number (← v.asNumber f.name).abs
    | _ => .error (.argumentCount f values.length)
  | implies | iff | xor | nand | nor =>
    match values with
    | [v, w] => do
      let a ← v.asBool f.name
      let b ← w.asBool f.name
      return .bool (f.connect a b)
    | _ => .error (.argumentCount f values.length)

end Builtin

namespace Expr

mutual
/-- The value of an expression. -/
def evaluate (lookup : String → Option Value) : Expr → Except Fault Value
  | number x => .ok (.number x)
  | bool b => .ok (.bool b)
  | text s => .ok (.text s)
  | var name =>
    match lookup name with
    | some v => .ok v
    | none => .error (.unbound name)
  | unary op e => do
    let v ← evaluate lookup e
    op.apply v
  | binary op l r => do
    let v ← evaluate lookup l
    let a ← v.asNumber op.symbol
    let w ← evaluate lookup r
    let b ← w.asNumber op.symbol
    return .number (← op.apply a b)
  | compare first rest => do
    let v ← evaluate lookup first
    evaluateChain lookup v rest
  | and l r => do
    let v ← evaluate lookup l
    if ← v.asBool "and" then
      let w ← evaluate lookup r
      return .bool (← w.asBool "and")
    else return .bool false
  | or l r => do
    let v ← evaluate lookup l
    if ← v.asBool "or" then return .bool true
    else
      let w ← evaluate lookup r
      return .bool (← w.asBool "or")
  | call f args =>
    if f.accepts args.length then do
      let values ← evaluateAll lookup args
      f.apply values
    else .error (.argumentCount f args.length)

/-- The value of a chain of comparisons after an operand of value `left`. -/
def evaluateChain (lookup : String → Option Value) (left : Value) :
    List (CompareOp × Expr) → Except Fault Value
  | [] => .ok (.bool true)
  | (op, e) :: rest => do
    let right ← evaluate lookup e
    if ← op.holds left right then evaluateChain lookup right rest
    else return .bool false

/-- The values of several expressions. -/
def evaluateAll (lookup : String → Option Value) : List Expr → Except Fault (List Value)
  | [] => .ok []
  | e :: es => do
    let v ← evaluate lookup e
    let vs ← evaluateAll lookup es
    return v :: vs
end

/-- The truth value of a condition. -/
def evaluateBool (lookup : String → Option Value) (e : Expr) : Except Fault Bool := do
  match ← e.evaluate lookup with
  | .bool b => return b
  | v => throw (.conditionKind e v)

/-- The number that an expression stands for. -/
def evaluateNumber (lookup : String → Option Value) (e : Expr) : Except Fault Float := do
  match ← e.evaluate lookup with
  | .number x => return x
  | v => throw (.numberKind e v)

end Expr

end Stratagem
