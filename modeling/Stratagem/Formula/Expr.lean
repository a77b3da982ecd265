import Stratagem.Decimal.Layout

/-!
# Expressions

The expressions of conditions, operations and trades: literals, variables, arithmetic, chained
comparisons, logic and calls of eight built-in functions. This module holds the syntax trees, the
names and arities of operators and built-ins, the text of an expression with every parenthesis
written out (`Expr.render`), the variables it reads (`Expr.vars`) and the value of a constant
one (`Expr.constant?`).
-/

namespace Stratagem

/-- Operators with one operand. -/
inductive UnaryOp
  | minus
  | plus
  | not
  deriving DecidableEq, Repr

/-- Arithmetic operators. -/
inductive BinaryOp
  | add
  | sub
  | mul
  | div
  | rem
  | pow
  deriving DecidableEq, Repr

/-- Comparison operators. -/
inductive CompareOp
  | lt
  | le
  | gt
  | ge
  | eq
  | ne
  deriving DecidableEq, Repr

/-- The functions that can be called. -/
inductive Builtin
  | min
  | max
  | abs
  | implies
  | iff
  | xor
  | nand
  | nor
  deriving DecidableEq, Repr

/-- An expression. -/
inductive Expr
  | number (x : Float)
  | bool (b : Bool)
  | text (s : String)
  | var (name : String)
  | unary (op : UnaryOp) (operand : Expr)
  | binary (op : BinaryOp) (left right : Expr)
  /-- `a < b <= c` holds when every adjacent pair holds. -/
  | compare (first : Expr) (rest : List (CompareOp × Expr))
  | and (left right : Expr)
  | or (left right : Expr)
  | call (function : Builtin) (arguments : List Expr)
  deriving Inhabited

namespace UnaryOp

/-- The operator as it is written. -/
def symbol : UnaryOp → String
  | minus => "-"
  | plus => "+"
  | not => "not"

end UnaryOp

namespace BinaryOp

/-- The operator as it is written. -/
def symbol : BinaryOp → String
  | add => "+"
  | sub => "-"
  | mul => "*"
  | div => "/"
  | rem => "%"
  | pow => "**"

end BinaryOp

namespace CompareOp

/-- The operator as it is written. -/
def symbol : CompareOp → String
  | lt => "<"
  | le => "<="
  | gt => ">"
  | ge => ">="
  | eq => "=="
  | ne => "!="

end CompareOp

namespace Builtin

/-- All built-in functions. -/
def all : List Builtin := [min, max, abs, implies, iff, xor, nand, nor]

/-- The name of a function. -/
def name : Builtin → String
  | min => "min"
  | max => "max"
  | abs => "abs"
  | implies => "implies"
  | iff => "iff"
  | xor => "xor"
  | nand => "nand"
  | nor => "nor"

/-- The function of a name. -/
def ofName? (name : String) : Option Builtin := all.find? fun f => f.name == name

/-- The least number of arguments, and the greatest one if there is a limit. -/
def arity : Builtin → Nat × Option Nat
  | min | max => (1, none)
  | abs => (1, some 1)
  | implies | iff | xor | nand | nor => (2, some 2)

/-- Whether a function takes `count` arguments. -/
def accepts (f : Builtin) (count : Nat) : Bool :=
  f.arity.1 ≤ count && f.arity.2.all fun most => count ≤ most

end Builtin

/-- Adds a name to a list of names in ascending order, unless it is there. -/
def insertName (name : String) : List String → List String
  | [] => [name]
  | n :: ns => if name < n then name :: n :: ns else if n = name then n :: ns
    else n :: insertName name ns

/-- The names of a list in ascending order, each once. -/
def sortNames (names : List String) : List String := names.foldr insertName []

namespace Expr

mutual
/-- An expression with all its parentheses. -/
def render : Expr → String
  | number x => Decimal.plain x
  | bool b => if b then "true" else "false"
  | text s => "\"" ++ s ++ "\""
  | var name => name
  | unary .minus e => "-(" ++ render e ++ ")"
  | unary .plus e => "+(" ++ render e ++ ")"
  | unary .not e => "not (" ++ render e ++ ")"
  | binary op l r => "(" ++ render l ++ " " ++ op.symbol ++ " " ++ render r ++ ")"
  | compare first rest => "(" ++ render first ++ renderPairs rest ++ ")"
  | and l r => "(" ++ render l ++ " and " ++ render r ++ ")"
  | or l r => "(" ++ render l ++ " or " ++ render r ++ ")"
  | call f args => f.name ++ "(" ++ ", ".intercalate (renderAll args) ++ ")"

/-- The operators and operands after the first operand of a comparison. -/
def renderPairs : List (CompareOp × Expr) → String
  | [] => ""
  | (op, e) :: rest => " " ++ op.symbol ++ " " ++ render e ++ renderPairs rest

/-- The texts of several expressions. -/
def renderAll : List Expr → List String
  | [] => []
  | e :: es => render e :: renderAll es
end

mutual
/-- The names of the variables of an expression from left to right. -/
def occurrences : Expr → List String
  | number _ | bool _ | text _ => []
  | var name => [name]
  | unary _ e => occurrences e
  | binary _ l r | and l r | or l r => occurrences l ++ occurrences r
  | compare first rest => occurrences first ++ occurrencesInPairs rest
  | call _ args => occurrencesInAll args

/-- The names of the variables in the later operands of a comparison. -/
def occurrencesInPairs : List (CompareOp × Expr) → List String
  | [] => []
  | (_, e) :: rest => occurrences e ++ occurrencesInPairs rest

/-- The names of the variables of several expressions. -/
def occurrencesInAll : List Expr → List String
  | [] => []
  | e :: es => occurrences e ++ occurrencesInAll es
end

/-- The names of the variables that an expression reads, in ascending order. -/
def vars (e : Expr) : List String := sortNames e.occurrences

/-- The value of a number with signs in front of it, such as `-2.5`. -/
def constant? : Expr → Option Float
  | number x => some x
  | unary .minus e => (constant? e).map fun x => -x
  | unary .plus e => constant? e
  | _ => none

end Expr

end Stratagem
