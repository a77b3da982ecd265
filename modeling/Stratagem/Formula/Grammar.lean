import Stratagem.Formula.Literal

/-!
# The grammar of expressions

A reader for each level of binding strength, from the weakest:

* the connectives `→ ↔ ⊕ ↑ ↓`, then `or` and `||`, then `and` and `&&`, which group to the left;
* `not` and `!`;
* comparisons, which chain;
* `+ -` and `* / %`, which group to the left;
* the signs `- +`;
* `**`, whose exponent is a signed expression;
* literals, variables, parentheses and calls.

Three levels come up again inside tighter ones: whole expressions in parentheses and calls,
negations after `not`, and signed expressions after a sign or `**`. Each of these steps opens a
nested part. The readers get these three as an argument (`Inner`) and `nested` ties the knot by
recursion on how many parts may still be opened, so the grammar is total by construction. The loops
of the chaining levels count the characters that are left.

`Expr.parse` reads an expression and `Expr.parseAssignment` a name, `=` and an expression.
-/

namespace Stratagem

namespace Grammar

/-- The readers of what stands inside a further nested part. -/
structure Inner where
  connective : Parse Expr
  negation : Parse Expr
  signed : Parse Expr

/-! ## Chains -/

/-- An operator that comes next: how it combines its operands, and the cursor after it. -/
abbrev Operator := Cursor → Option ((Expr → Expr → Expr) × Cursor)

/-- The rest of a chain of operands, grouped to the left. -/
def chainLoop (operand : Parse Expr) (operator : Operator) : (budget : Nat) → Expr → Parse Expr
  | 0, left, c => .ok (left, c.skipBlanks)
  | budget + 1, left, c =>
    let c := c.skipBlanks
    match operator c with
    | none => .ok (left, c)
    | some (combine, c) => do
      let (right, c) ← operand c
      chainLoop operand operator budget (combine left right) c

/-- A chain of operands, grouped to the left. -/
def chain (operand : Parse Expr) (operator : Operator) : Parse Expr := fun c => do
  let (first, c) ← operand c
  chainLoop operand operator c.rest.length first c

/-! ## Operators -/

/-- One of the connectives. -/
def connectiveOperator : Operator := fun c =>
  let call := fun f => some (fun l r => Expr.call f [l, r], c.skip 1)
  match c.rest.head? with
  | some '→' => call .implies
  | some '↔' => call .iff
  | some '⊕' => call .xor
  | some '↑' => call .nand
  | some '↓' => call .nor
  | _ => none

/-- The operator `or` or `||`. -/
def orOperator : Operator := fun c =>
  ((c.takeKeyword? "or").or (c.take? "||")).map fun c => (Expr.or, c)

/-- The operator `and` or `&&`. -/
def andOperator : Operator := fun c =>
  ((c.takeKeyword? "and").or (c.take? "&&")).map fun c => (Expr.and, c)

/-- The operator `+` or `-`. -/
def sumOperator : Operator := fun c =>
  match c.rest.head? with
  | some '+' => some (.binary .add, c.skip 1)
  | some '-' => some (.binary .sub, c.skip 1)
  | _ => none

/-- The operator `*`, `/` or `%`, but not `**`. -/
def productOperator : Operator := fun c =>
  if c.startsWith "**" then none
  else
    match c.rest.head? with
    | some '*' => some (.binary .mul, c.skip 1)
    | some '/' => some (.binary .div, c.skip 1)
    | some '%' => some (.binary .rem, c.skip 1)
    | _ => none

/-- The comparison operators in the order in which they are tried. -/
def comparisons : List CompareOp := [.le, .ge, .eq, .ne, .lt, .gt]

/-- A comparison operator that comes next, if any. -/
def comparisonOperator (c : Cursor) : Except SyntaxError (Option (CompareOp × Cursor)) :=
  let c := c.skipBlanks
  match comparisons.findSome? fun op => (c.take? op.symbol).map fun c => (op, c) with
  | some found => .ok (some found)
  | none => if c.startsWith "=" then c.fail .strayAssignment else .ok none

/-- The cursor after `not` or `!`, if one of them comes next. -/
def notOperator (c : Cursor) : Option Cursor :=
  (c.takeKeyword? "not").or (if c.startsWith "!=" then none else c.take? "!")

/-! ## Levels -/

section Levels

variable (inner : Inner)

/-- An expression in parentheses; the opening one comes next. -/
def parenthesized : Parse Expr := fun c => do
  let c ← (c.skip 1).enter
  let (e, c) ← inner.connective c
  let c ← c.expect ')'
  return (e, c.leave)

/-- The arguments of a call, at least one, after those of `read`, which stand in reverse. -/
def argumentLoop : (budget : Nat) → (read : List Expr) → Parse (List Expr)
  | 0, _, c => c.fail .unexpectedEnd
  | budget + 1, read, c => do
    let (e, c) ← inner.connective c
    let c := c.skipBlanks
    if c.rest.head? = some ')' then return ((e :: read).reverse, c.skip 1)
    else
      let c ← c.expect ','
      argumentLoop budget (e :: read) c

/-- The arguments of a call up to the closing parenthesis. -/
def arguments : Parse (List Expr) := fun c =>
  let c := c.skipBlanks
  if c.rest.head? = some ')' then .ok ([], c.skip 1)
  else argumentLoop inner (c.rest.length + 1) [] c

/-- A call of a function whose name starts at `start`; the opening parenthesis comes next. -/
def call (start : Cursor) (name : String) : Parse Expr := fun c =>
  match Builtin.ofName? name with
  | none => start.fail (.unknownFunction name)
  | some f => do
    let c ← (c.skip 1).enter
    let (args, c) ← arguments inner c
    if f.accepts args.length then return (.call f args, c.leave)
    else start.fail (.argumentCount f args.length)

/-- A truth value, a variable or a call. -/
def named : Parse Expr := fun start => do
  let (name, c) ← Literal.name start
  if name = "true" then return (.bool true, c)
  else if name = "false" then return (.bool false, c)
  else if name ∈ ["and", "or", "not"] then start.fail (.unexpectedKeyword name)
  else
    let c := c.skipBlanks
    if c.rest.head? = some '(' then call inner start name c else return (.var name, c)

/-- A literal, a variable, a call or an expression in parentheses. -/
def primary : Parse Expr := fun c =>
  let c := c.skipBlanks
  match c.rest with
  | [] => c.fail .unexpectedEnd
  | first :: more =>
    if first.isDigit then Literal.number c
    else if first = '.' then
      if more.head?.any Char.isDigit then Literal.number c else c.fail .memberAccess
    else if first = '(' then parenthesized inner c
    else if first = '"' ∨ first = '\'' then Literal.quoted first c
    else if isNameStart first then named inner c
    else c.fail (.unexpectedCharacter first)

/-- A primary expression, after which no member, index or call may follow. -/
def operand : Parse Expr := fun c => do
  let (e, c) ← primary inner c
  let c := c.skipBlanks
  match c.rest.head? with
  | some '.' => c.fail .memberAccess
  | some '[' => c.fail .indexing
  | some '(' => c.fail .callOfValue
  | _ => return (e, c)

/-- An operand, with an exponent if `**` follows. -/
def power : Parse Expr := fun c => do
  let (base, c) ← operand inner c
  let c := c.skipBlanks
  match c.take? "**" with
  | none => return (base, c)
  | some c =>
    let c ← c.enter
    let (exponent, c) ← inner.signed c
    return (.binary .pow base exponent, c.leave)

/-- A power with signs in front. -/
def signed : Parse Expr := fun c =>
  let c := c.skipBlanks
  let sign := fun op => do
    let c ← (c.skip 1).enter
    let (e, c) ← inner.signed c
    return (Expr.unary op e, c.leave)
  match c.rest.head? with
  | some '-' => sign .minus
  | some '+' => sign .plus
  | _ => power inner c

/-- Signed expressions with `*`, `/` and `%` between them. -/
def product : Parse Expr := chain (signed inner) productOperator

/-- Products with `+` and `-` between them. -/
def sum : Parse Expr := chain (product inner) sumOperator

/-- The rest of a chain of comparisons, after the pairs of `read`, which stand in reverse. -/
def comparisonLoop :
    (budget : Nat) → (read : List (CompareOp × Expr)) → Parse (List (CompareOp × Expr))
  | 0, read, c => .ok (read.reverse, c.skipBlanks)
  | budget + 1, read, c => do
    match ← comparisonOperator c with
    | none => return (read.reverse, c.skipBlanks)
    | some (op, c) =>
      let (e, c) ← sum inner c
      comparisonLoop budget ((op, e) :: read) c

/-- A sum, or a chain of comparisons of sums. -/
def comparison : Parse Expr := fun c => do
  let (first, c) ← sum inner c
  let (rest, c) ← comparisonLoop inner c.rest.length [] c
  if rest.isEmpty then return (first, c) else return (.compare first rest, c)

/-- A comparison, or the negation of a negation. -/
def negation : Parse Expr := fun c =>
  let c := c.skipBlanks
  match notOperator c with
  | none => comparison inner c
  | some c => do
    let c ← c.enter
    let (e, c) ← inner.negation c
    return (.unary .not e, c.leave)

/-- Negations with `and` between them. -/
def conjunction : Parse Expr := chain (negation inner) andOperator

/-- Conjunctions with `or` between them. -/
def disjunction : Parse Expr := chain (conjunction inner) orOperator

/-- Disjunctions with connectives between them: a whole expression. -/
def connective : Parse Expr := chain (disjunction inner) connectiveOperator

end Levels

/-! ## Nesting -/

/-- The three levels that come up again, with `inner` for what stands inside their nested parts. -/
def levels (inner : Inner) : Inner where
  connective := connective inner
  negation := negation inner
  signed := signed inner

/-- Readers that refuse to go deeper. -/
def tooDeep : Inner where
  connective c := c.fail .tooDeep
  negation c := c.fail .tooDeep
  signed c := c.fail .tooDeep

/-- The readers of the three levels in which at most `depth - 1` further parts may be opened. -/
def nested : (depth : Nat) → Inner
  | 0 => tooDeep
  | depth + 1 => levels (nested depth)

/-- A whole expression at the top of a text. -/
def whole : Parse Expr := (nested (maxNesting + 1)).connective

/-- Refuses texts that are too long or blank. -/
def checkSource (source : String) : Except SyntaxError Unit :=
  if maxSourceBytes < source.utf8ByteSize then .error ⟨.tooLong, maxSourceBytes⟩
  else if Text.isBlankText source then .error ⟨.empty, 0⟩
  else .ok ()

/-- Refuses whatever follows an expression. -/
def finish (c : Cursor) : Except SyntaxError Unit :=
  let c := c.skipBlanks
  if c.rest.isEmpty then .ok ()
  else if c.startsWith "=" then c.fail .strayAssignment
  else c.fail (.trailing (String.ofList c.rest))

end Grammar

/-- The expression of a text. -/
def Expr.parse (source : String) : Except SyntaxError Expr := do
  Grammar.checkSource source
  let (e, c) ← Grammar.whole (Cursor.start source)
  Grammar.finish c
  return e

/-- The name and the expression of a text `name = expression`. -/
def Expr.parseAssignment (source : String) : Except SyntaxError (String × Expr) := do
  Grammar.checkSource source
  let start := Cursor.start source
  let (target, c) ← Literal.name start.skipBlanks
  if Literal.reservedWords.contains target || (Builtin.ofName? target).isSome then
    start.fail (.reservedTarget target)
  else
    let c := c.skipBlanks
    match if c.startsWith "==" then none else c.take? "=" with
    | none => c.fail (.expectedAssignment target)
    | some c =>
      let (e, c) ← Grammar.whole c
      Grammar.finish c
      return (target, e)

end Stratagem
