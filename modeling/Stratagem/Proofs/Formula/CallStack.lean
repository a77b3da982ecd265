import Mathlib.Logic.Relation
import Stratagem.Proofs.Formula.Completeness

/-!
# The calls of the parser

A small-step machine for the routines of the parser: a configuration is a control (a routine that is
called, or what a call comes to) and the stack of the calls that wait for it. The readers of the
grammar are total by the way they are built, which hides how deep their calls nest and what becomes
of the depth on the way out of a part. The machine shows both: it has no budget, it counts the depth
up before it is checked, and it stops in `underflow` rather than count below zero.

`Control.Fits` and `Nested` say what the depth and the stack have to do with each other. Every call
opens a part or is one of a tighter routine (`Move.Fits`), every step keeps that (`fits_step`), and
so does every run (`fits_of_reaches`). The weight of a call, its depth and then its rank, grows
inward, so the stack is bounded and no routine waits for itself at its own depth.
-/

namespace Stratagem

namespace Grammar

/-- The routines of the parser: one for each level and one for what an operand can be. -/
inductive Routine
  | level (L : Level)
  | primary
  deriving DecidableEq, Repr

namespace Routine

/-- The place of a routine, counted from the loosest. -/
def rank : Routine → Nat
  | level L => L.rank
  | primary => 10

/-- The reader that a routine is. -/
def reader (inner : Inner) : Routine → Parse Expr
  | level L => L.reader inner
  | primary => Grammar.primary inner

/-- What a routine reads where as many parts may be opened as at the top of a text. -/
def read (r : Routine) : Parse Expr := r.reader (nested maxNesting)

theorem rank_le (r : Routine) : r.rank ≤ 10 := by
  cases r with
  | level L => cases L <;> decide
  | primary => exact Nat.le_refl 10

end Routine

namespace Machine

/-! ## Configurations -/

/-- Where a call goes on when the call that it waits for answers. -/
inductive Point
  /-- The first operand of a chain. -/
  | firstOperand (L : Level)
  /-- A later operand of a chain, which is joined with what is left of it. -/
  | nextOperand (L : Level) (combine : Expr → Expr → Expr) (left : Expr)
  /-- The first operand of a comparison. -/
  | firstCompared
  /-- A later operand of a comparison, after the pairs of `read`, which stand in reverse. -/
  | nextCompared (first : Expr) (read : List (CompareOp × Expr)) (op : CompareOp)
  /-- What stands for a whole expression of a level. -/
  | tighter (L : Level)
  /-- What a sign or a negation is in front of. -/
  | unary (L : Level) (op : UnaryOp)
  | base
  | exponent (base : Expr)
  /-- What an operand is. -/
  | primary
  /-- What stands in parentheses. -/
  | parentheses
  /-- An argument of a call whose name starts at `origin`, after those of `read`, which stand in
  reverse. -/
  | argument (origin : Cursor) (f : Builtin) (read : List Expr)

namespace Point

/-- The routine that waits. -/
def routine : Point → Routine
  | firstOperand L | nextOperand L _ _ | tighter L | unary L _ => .level L
  | firstCompared | nextCompared _ _ _ => .level .comparison
  | base | exponent _ => .level .power
  | primary => .level .operand
  | parentheses | argument _ _ _ => .primary

/-- How many parts have been opened for the call that is waited for. -/
def opens : Point → Nat
  | unary _ _ | exponent _ | parentheses | argument _ _ _ => 1
  | _ => 0

end Point

/-- A call that waits: where it started and where it goes on. -/
structure Waiting where
  start : Cursor
  point : Point

/-- What is being done. -/
inductive Control
  /-- A routine is called. -/
  | call (r : Routine) (c : Cursor)
  /-- A call has answered. -/
  | answer (e : Expr) (c : Cursor)
  /-- A call has failed, and all that wait for it fail with it. -/
  | fail (error : SyntaxError) (c : Cursor)
  /-- The depth has been counted below zero. -/
  | underflow

/-- A configuration of the machine. -/
structure State where
  control : Control
  waiting : List Waiting

/-- What a call does next. -/
inductive Move
  /-- It calls a routine and waits. -/
  | call (point : Point) (r : Routine) (c : Cursor)
  | answer (e : Expr) (c : Cursor)
  | fail (error : SyntaxError) (c : Cursor)
  | underflow

/-- The configuration after a move of the call that started at `start`. -/
def Move.state (m : Move) (start : Cursor) (ws : List Waiting) : State :=
  match m with
  | call point r c => ⟨.call r c, ⟨start, point⟩ :: ws⟩
  | answer e c => ⟨.answer e c, ws⟩
  | fail error c => ⟨.fail error c, ws⟩
  | underflow => ⟨.underflow, ws⟩

/-! ## Moves -/

variable {α : Type}

/-- Goes on with a result, or fails. -/
def attempt (c : Cursor) (x : Except SyntaxError α) (go : α → Move) : Move :=
  match x with
  | .ok a => go a
  | .error error => .fail error c

/-- Opens a part. -/
def entering (c : Cursor) (go : Cursor → Move) : Move :=
  let inside := { c with depth := c.depth + 1 }
  if maxNesting < inside.depth then .fail ⟨.tooDeep, c.position⟩ inside else go inside

/-- Closes a part. -/
def leaving (c : Cursor) (go : Cursor → Move) : Move :=
  if c.depth = 0 then .underflow else go c.leave

/-- Goes on in a chain. -/
def chained (L : Level) (left : Expr) (c : Cursor) : Move :=
  let c := c.skipBlanks
  match L.chainOperator?.bind fun operator => operator c with
  | none => .answer left c
  | some (combine, c) => .call (.nextOperand L combine left) (.level L.tighter) c

/-- Goes on in a comparison. -/
def compared (first : Expr) (read : List (CompareOp × Expr)) (c : Cursor) : Move :=
  attempt c (comparisonOperator c) fun
    | none =>
      .answer (if read.reverse.isEmpty then first else .compare first read.reverse) c.skipBlanks
    | some (op, c) => .call (.nextCompared first read op) (.level .sum) c

/-- Closes a call of a function. The part is left before the arguments are counted. -/
def closing (origin : Cursor) (f : Builtin) (args : List Expr) (c : Cursor) : Move :=
  leaving c fun c =>
    if f.accepts args.length then .answer (.call f args) c
    else .fail ⟨.argumentCount f args.length, origin.position⟩ c

/-- Starts to read what starts with a name. -/
def beginNamed (start : Cursor) : Move :=
  attempt start (Literal.name start) fun (name, c) =>
    if name = "true" then .answer (.bool true) c
    else if name = "false" then .answer (.bool false) c
    else if name ∈ ["and", "or", "not"] then .fail ⟨.unexpectedKeyword name, start.position⟩ c
    else
      let c := c.skipBlanks
      if c.rest.head? = some '(' then
        match Builtin.ofName? name with
        | none => .fail ⟨.unknownFunction name, start.position⟩ c
        | some f => entering (c.skip 1) fun c =>
          let c := c.skipBlanks
          if c.rest.head? = some ')' then closing start f [] (c.skip 1)
          else .call (.argument start f []) (.level .connective) c
      else .answer (.var name) c

/-- Starts to read what an operand can be. -/
def beginPrimary (c : Cursor) : Move :=
  let c := c.skipBlanks
  let literal := fun x => attempt c x fun (e, c) => .answer e c
  match c.rest with
  | [] => .fail ⟨.unexpectedEnd, c.position⟩ c
  | first :: more =>
    if first.isDigit then literal (Literal.number c)
    else if first = '.' then
      if more.head?.any Char.isDigit then literal (Literal.number c)
      else .fail ⟨.memberAccess, c.position⟩ c
    else if first = '(' then entering (c.skip 1) fun c => .call .parentheses (.level .connective) c
    else if first = '"' ∨ first = '\'' then literal (Literal.quoted first c)
    else if isNameStart first then beginNamed c
    else .fail ⟨.unexpectedCharacter first, c.position⟩ c

/-- What a routine does when it is called. -/
def begin (r : Routine) (c : Cursor) : Move :=
  match r with
  | .level .negation =>
    let c := c.skipBlanks
    match notOperator c with
    | none => .call (.tighter .negation) (.level .comparison) c
    | some c => entering c fun c => .call (.unary .negation .not) (.level .negation) c
  | .level .comparison => .call .firstCompared (.level .sum) c
  | .level .signed =>
    let c := c.skipBlanks
    let sign := fun op =>
      entering (c.skip 1) fun c => .call (.unary .signed op) (.level .signed) c
    if c.rest.head? = some '-' then sign .minus
    else if c.rest.head? = some '+' then sign .plus
    else .call (.tighter .signed) (.level .power) c
  | .level .power => .call .base (.level .operand) c
  | .level .operand => .call .primary .primary c
  | .level L => .call (.firstOperand L) (.level L.tighter) c
  | .primary => beginPrimary c

/-- What a waiting call does when it gets an answer. -/
def resume (p : Point) (e : Expr) (c : Cursor) : Move :=
  match p with
  | .firstOperand L => chained L e c
  | .nextOperand L combine left => chained L (combine left e) c
  | .firstCompared => compared e [] c
  | .nextCompared first read op => compared first ((op, e) :: read) c
  | .tighter _ => .answer e c
  | .unary _ op => leaving c fun c => .answer (.unary op e) c
  | .base =>
    let c := c.skipBlanks
    match c.take? "**" with
    | none => .answer e c
    | some c => entering c fun c => .call (.exponent e) (.level .signed) c
  | .exponent base => leaving c fun c => .answer (.binary .pow base e) c
  | .primary =>
    let c := c.skipBlanks
    if c.rest.head? = some '.' then .fail ⟨.memberAccess, c.position⟩ c
    else if c.rest.head? = some '[' then .fail ⟨.indexing, c.position⟩ c
    else if c.rest.head? = some '(' then .fail ⟨.callOfValue, c.position⟩ c
    else .answer e c
  | .parentheses => attempt c (c.expect ')') fun c => leaving c fun c => .answer e c
  | .argument origin f read =>
    let c := c.skipBlanks
    if c.rest.head? = some ')' then closing origin f (e :: read).reverse (c.skip 1)
    else
      attempt c (c.expect ',') fun c =>
        .call (.argument origin f (e :: read)) (.level .connective) c

/-! ## Steps -/

/-- One step of the machine, if there is one left. -/
def State.step : State → Option State
  | ⟨.call r c, ws⟩ => some ((begin r c).state c ws)
  | ⟨.answer e c, w :: ws⟩ => some ((resume w.point e c).state w.start ws)
  | _ => none

/-- Any number of steps. -/
def Reaches : State → State → Prop := Relation.ReflTransGen fun s s' => s.step = some s'

/-- The call of a routine that no other waits for. -/
def State.start (r : Routine) (c : Cursor) : State := ⟨.call r c, []⟩

/-- The depth that is counted. -/
def Control.depth : Control → Nat
  | call _ c | answer _ c | fail _ c => c.depth
  | underflow => 0

/-- The calls that have not come to an end, with the innermost first. -/
def State.calls (s : State) : List (Routine × Cursor) :=
  let waiting := s.waiting.map fun w => (w.point.routine, w.start)
  match s.control with
  | .call r c => (r, c) :: waiting
  | _ => waiting

/-! ## What is kept -/

/-- The greatest depth inside a call that starts at a given depth. -/
def deepest (d : Nat) : Nat := max d maxNesting

/-- The calls of a stack wait for a routine at a depth, down to one that started at depth `d₀`: each
has opened a part or waits for a tighter routine. -/
def Nested (d₀ : Nat) : Routine → (depth : Nat) → List Waiting → Prop
  | _, d, [] => d = d₀
  | r, d, w :: ws =>
    d = w.start.depth + w.point.opens ∧ d ≤ deepest w.start.depth ∧
      (w.point.opens = 0 → w.point.routine.rank < r.rank) ∧
      Nested d₀ w.point.routine w.start.depth ws

/-- The control is that of a routine at a depth. -/
def Control.Fits (r : Routine) (d : Nat) : Control → Prop
  | call r' c => r' = r ∧ c.depth = d
  | answer _ c => c.depth = d
  | fail _ c => c.depth ≤ deepest d + 1
  | underflow => False

/-- The stack and the control fit together, and no call is too deep. -/
def State.Fits (d₀ : Nat) (s : State) : Prop :=
  ∃ r d, d ≤ deepest d₀ ∧ Nested d₀ r d s.waiting ∧ s.control.Fits r d

/-- A move that a call of a routine can make where it started at a depth. -/
def Move.Fits (r : Routine) (d : Nat) : Move → Prop
  | call p r' c => p.routine = r ∧ c.depth = d + p.opens ∧ c.depth ≤ deepest d ∧
      (p.opens = 0 → r.rank < r'.rank)
  | answer _ c => c.depth = d
  | fail _ c => c.depth ≤ deepest d + 1
  | underflow => False

variable {r : Routine} {d d₀ : Nat} {c c' : Cursor} {go : Cursor → Move} {e : Expr}

theorem le_deepest (d : Nat) : d ≤ deepest d := Nat.le_max_left _ _

theorem deepest_le (h : d ≤ deepest d₀) : deepest d ≤ deepest d₀ :=
  Nat.max_le.2 ⟨h, Nat.le_max_right _ _⟩

/-- A call can fail at its own depth. -/
theorem le_deepest_of_eq (depth : c.depth = d) : c.depth ≤ deepest d + 1 :=
  depth ▸ Nat.le_succ_of_le (le_deepest c.depth)

theorem fits_attempt {x : Except SyntaxError α} {go : α → Move} (depth : c.depth ≤ deepest d + 1)
    (h : ∀ a, x = .ok a → (go a).Fits r d) : (attempt c x go).Fits r d := by
  cases x with
  | ok a => exact h a rfl
  | error error => exact depth

theorem fits_entering (depth : c.depth = d)
    (h : ∀ c', c'.depth = d + 1 → c'.depth ≤ deepest d → (go c').Fits r d) :
    (entering c go).Fits r d := by
  simp only [entering]
  split
  · show c.depth + 1 ≤ _
    rw [depth]
    exact Nat.succ_le_succ (le_deepest d)
  · rename_i shallow
    exact h _ (congrArg (· + 1) depth)
      (Nat.le_trans (Nat.le_of_not_lt shallow) (Nat.le_max_right _ _))

theorem fits_leaving (depth : c.depth = d + 1) (h : ∀ c', c'.depth = d → (go c').Fits r d) :
    (leaving c go).Fits r d := by
  rw [leaving, if_neg (by omega)]
  exact h _ (by rw [Cursor.leave, depth]; rfl)

/-- A call of a tighter routine, in which no part is opened. -/
theorem fits_call {p : Point} {r' : Routine} (routine : p.routine = r) (opens : p.opens = 0)
    (depth : c.depth = d) (rank : r.rank < r'.rank) : (Move.call p r' c).Fits r d :=
  ⟨routine, by rw [opens, depth]; rfl, by rw [depth]; exact le_deepest d, fun _ => rank⟩

/-- A call in a part that has been opened. -/
theorem fits_call_inside {p : Point} {r' : Routine} (routine : p.routine = r) (opens : p.opens = 1)
    (depth : c.depth = d + 1) (shallow : c.depth ≤ deepest d) : (Move.call p r' c).Fits r d :=
  ⟨routine, by rw [opens, depth], shallow, fun none => by rw [opens] at none; cases none⟩

/-! ## Depths of what is read -/

theorem depth_of_reads {L : Level} {operator : Operator} {combine : Expr → Expr → Expr}
    (reads : operator.Reads L) (h : operator c.skipBlanks = some (combine, c')) :
    c'.depth = c.depth := by
  obtain ⟨t, -, rfl, -⟩ := (reads _ _ _).1 h
  rfl

theorem depth_of_number (h : Literal.number c = .ok (e, c')) : c'.depth = c.depth := by
  simp only [Literal.number] at h
  repeat' split at h
  all_goals cases h
  rfl

theorem depth_of_quoted {quote : Char} (h : Literal.quoted quote c = .ok (e, c')) :
    c'.depth = c.depth := by
  simp only [Literal.quoted] at h
  split at h <;> cases h
  rfl

theorem depth_of_name {name : String} (h : Literal.name c = .ok (name, c')) :
    c'.depth = c.depth := by
  unfold Literal.name at h
  split at h <;> cases h
  rfl

theorem depth_of_expect {wanted : Char} (h : c.expect wanted = .ok c') : c'.depth = c.depth := by
  simp only [Cursor.expect] at h
  split at h <;> cases h
  rfl

/-! ## One step -/

theorem fits_chained {L : Level} (left : Expr) (depth : c.depth = d) :
    (chained L left c).Fits (.level L) d := by
  simp only [chained]
  split
  · exact depth
  · rename_i combine c₁ found
    obtain ⟨operator, chains, found⟩ := Option.bind_eq_some_iff.1 found
    have same := depth_of_reads (Level.reads_of_chainOperator? chains) found
    exact fits_call rfl rfl (same.trans depth)
      (Level.rank_lt_of_chainOperator? chains)

theorem fits_compared (first : Expr) (read : List (CompareOp × Expr)) (depth : c.depth = d) :
    (compared first read c).Fits (.level .comparison) d := by
  refine fits_attempt (le_deepest_of_eq depth) fun found hfound => ?_
  cases found with
  | none => exact depth
  | some pair =>
    obtain ⟨op, c₁⟩ := pair
    obtain ⟨-, rfl⟩ := next_of_comparisonOperator hfound
    exact fits_call rfl rfl depth (by decide)

theorem fits_closing (origin : Cursor) (f : Builtin) (args : List Expr) (depth : c.depth = d + 1) :
    (closing origin f args c).Fits r d := by
  refine fits_leaving depth fun c' depth' => ?_
  split
  · exact depth'
  · exact le_deepest_of_eq depth'

theorem fits_beginNamed (depth : c.depth = d) : (beginNamed c).Fits .primary d := by
  refine fits_attempt (le_deepest_of_eq depth) ?_
  rintro ⟨name, c₁⟩ hname
  have depth₁ := (depth_of_name hname).trans depth
  dsimp only
  split
  · exact depth₁
  · split
    · exact depth₁
    · split
      · exact le_deepest_of_eq depth₁
      · split
        · split
          · exact le_deepest_of_eq depth₁
          · refine fits_entering depth₁ fun c₂ depth₂ shallow₂ => ?_
            split
            · exact fits_closing _ _ _ depth₂
            · exact fits_call_inside rfl rfl depth₂ shallow₂
        · exact depth₁

theorem fits_beginPrimary (depth : c.depth = d) : (beginPrimary c).Fits .primary d := by
  have shallow : c.skipBlanks.depth ≤ deepest d + 1 := le_deepest_of_eq depth
  have literal : ∀ x : Except SyntaxError (Expr × Cursor),
      (∀ e c', x = .ok (e, c') → c'.depth = c.skipBlanks.depth) →
      (attempt c.skipBlanks x fun (e, c) => .answer e c).Fits .primary d := by
    intro x kept
    refine fits_attempt shallow ?_
    rintro ⟨e, c'⟩ read
    exact (kept e c' read).trans depth
  simp only [beginPrimary]
  split
  · exact shallow
  · split
    · exact literal _ fun e c' => depth_of_number
    · split
      · split
        · exact literal _ fun e c' => depth_of_number
        · exact shallow
      · split
        · exact fits_entering depth fun c₁ depth₁ shallow₁ =>
            fits_call_inside rfl rfl depth₁ shallow₁
        · split
          · exact literal _ fun e c' => depth_of_quoted
          · split
            · exact fits_beginNamed depth
            · exact shallow

/-- What a routine does when it is called fits it. -/
theorem fits_begin (r : Routine) (c : Cursor) : (begin r c).Fits r c.depth := by
  cases r with
  | primary => exact fits_beginPrimary rfl
  | level L =>
    cases L with
    | negation =>
      simp only [begin]
      split
      · exact fits_call rfl rfl rfl (by decide)
      · rename_i c₁ found
        obtain ⟨t, -, -, rfl⟩ := reads_notOperator.1 found
        exact fits_entering rfl fun c₂ depth₂ shallow₂ => fits_call_inside rfl rfl depth₂ shallow₂
    | signed =>
      simp only [begin]
      split
      · exact fits_entering rfl fun c₁ depth₁ shallow₁ => fits_call_inside rfl rfl depth₁ shallow₁
      · split
        · exact fits_entering rfl fun c₁ depth₁ shallow₁ => fits_call_inside rfl rfl depth₁ shallow₁
        · exact fits_call rfl rfl rfl (by decide)
    | connective | disjunction | conjunction | comparison | sum | product | power | operand =>
      exact fits_call rfl rfl rfl (by decide)

/-- What a waiting call does when it gets an answer fits its routine. -/
theorem fits_resume (p : Point) (e : Expr) (depth : c.depth = d + p.opens)
    (shallow : c.depth ≤ deepest d) : (resume p e c).Fits p.routine d := by
  cases p with
  | firstOperand L => exact fits_chained e depth
  | nextOperand L combine left => exact fits_chained _ depth
  | firstCompared => exact fits_compared e [] depth
  | nextCompared first read op => exact fits_compared first _ depth
  | tighter L => exact depth
  | unary L op => exact fits_leaving depth fun c' depth' => depth'
  | base =>
    simp only [resume]
    split
    · exact depth
    · rename_i c₁ found
      obtain ⟨-, rfl⟩ := (@Cursor.take?_iff _ _ (.binary .pow) "**" rfl fun _ _ => rfl).1 found
      exact fits_entering depth fun c₂ depth₂ shallow₂ => fits_call_inside rfl rfl depth₂ shallow₂
  | exponent base => exact fits_leaving depth fun c' depth' => depth'
  | primary =>
    simp only [resume]
    split
    · exact le_deepest_of_eq depth
    · split
      · exact le_deepest_of_eq depth
      · split
        · exact le_deepest_of_eq depth
        · exact depth
  | parentheses =>
    refine fits_attempt (Nat.le_succ_of_le shallow) fun c₁ closes => ?_
    exact fits_leaving ((depth_of_expect closes).trans depth) fun c' depth' => depth'
  | argument origin f read =>
    simp only [resume]
    split
    · exact fits_closing _ _ _ depth
    · refine fits_attempt (Nat.le_succ_of_le shallow) fun c₁ comma => ?_
      have same := depth_of_expect comma
      exact fits_call_inside rfl rfl (same.trans depth) (same ▸ shallow)

/-- A move that fits a call leads to a configuration that does. -/
theorem fits_state {m : Move} {start : Cursor} {ws : List Waiting} (h : m.Fits r start.depth)
    (deep : start.depth ≤ deepest d₀) (nested : Nested d₀ r start.depth ws) :
    (m.state start ws).Fits d₀ := by
  cases m with
  | call p r' c =>
    obtain ⟨rfl, depth, shallow, rank⟩ := h
    exact ⟨r', c.depth, Nat.le_trans shallow (deepest_le deep), ⟨depth, shallow, rank, nested⟩, rfl,
      rfl⟩
  | answer e c => exact ⟨r, _, deep, nested, h⟩
  | fail error c => exact ⟨r, _, deep, nested, h⟩
  | underflow => exact h.elim

/-- Every step keeps the stack and the control together. -/
theorem fits_step {s s' : State} (h : s.step = some s') (fits : s.Fits d₀) : s'.Fits d₀ := by
  obtain ⟨⟨⟩, ws⟩ := s
  · obtain ⟨r, d, deep, nested, rfl, rfl⟩ := fits
    cases h
    exact fits_state (fits_begin _ _) deep nested
  · cases ws with
    | nil => cases h
    | cons w ws =>
      obtain ⟨r, d, deep, ⟨depth, shallow, -, nested⟩, rfl⟩ := fits
      cases h
      refine fits_state (fits_resume _ _ depth shallow) ?_ nested
      exact Nat.le_trans (depth ▸ Nat.le_add_right _ _) deep
  · cases h
  · cases h

/-- So does every run of a call. -/
theorem fits_of_reaches {s : State} (h : Reaches (.start r c) s) : s.Fits c.depth := by
  induction h with
  | refl => exact ⟨r, c.depth, le_deepest _, rfl, rfl, rfl⟩
  | tail _ step ih => exact fits_step step ih

/-! ## What follows for the stack -/

/-- How far in a call stands: first by its depth, then by the rank of its routine, of which there
are eleven. -/
def weight (call : Routine × Cursor) : Nat := 11 * call.2.depth + call.1.rank

/-- The calls that wait stand further out the longer they have waited, and further out than the one
they wait for. -/
theorem pairwise_of_nested {ws : List Waiting} (h : Nested d₀ r c.depth ws) :
    ((r, c) :: ws.map fun w => (w.point.routine, w.start)).Pairwise fun inner outer =>
      weight outer < weight inner := by
  induction ws generalizing r c with
  | nil => exact List.pairwise_singleton _ _
  | cons w ws ih =>
    obtain ⟨depth, -, rank, nested⟩ := h
    have ordered := ih nested
    have outer : weight (w.point.routine, w.start) < weight (r, c) := by
      have := w.point.routine.rank_le
      simp only [weight]
      omega
    refine .cons (fun call hcall => ?_) ordered
    rcases List.mem_cons.1 hcall with rfl | hcall
    · exact outer
    · exact Nat.lt_trans ((List.pairwise_cons.1 ordered).1 _ hcall) outer

/-- The stack is no longer than the weights of its calls allow. -/
theorem length_of_nested {ws : List Waiting} (h : Nested d₀ r d ws) :
    11 * d₀ + ws.length ≤ 11 * d + r.rank := by
  induction ws generalizing r d with
  | nil =>
    cases h
    exact Nat.le_add_right _ _
  | cons w ws ih =>
    obtain ⟨depth, -, rank, nested⟩ := h
    have := ih nested
    have := w.point.routine.rank_le
    rw [List.length_cons]
    omega

variable {s : State}

theorem State.Fits.ne_underflow (h : s.Fits d₀) : s.control ≠ .underflow := by
  intro control
  obtain ⟨r, d, -, -, fits⟩ := h
  rw [control] at fits
  exact fits

theorem State.Fits.depth_le (h : s.Fits d₀) : s.control.depth ≤ deepest d₀ + 1 := by
  obtain ⟨⟨⟩, ws⟩ := s
  · obtain ⟨r, d, deep, -, rfl, rfl⟩ := h
    exact Nat.le_succ_of_le deep
  · obtain ⟨r, d, deep, -, rfl⟩ := h
    exact Nat.le_succ_of_le deep
  · obtain ⟨r, d, deep, -, shallow⟩ := h
    exact Nat.le_trans shallow (Nat.succ_le_succ (deepest_le deep))
  · exact Nat.zero_le _

theorem State.Fits.length_calls_le (h : s.Fits d₀) :
    s.calls.length ≤ 11 * (maxNesting - d₀ + 1) := by
  obtain ⟨r, d, deep, nested, -⟩ := h
  have stack := length_of_nested nested
  have := r.rank_le
  have calls : s.calls.length ≤ s.waiting.length + 1 := by
    unfold State.calls
    split <;> simp
  simp only [deepest] at deep
  omega

/-- A call stands deeper than every other of its routine that waits for it. -/
theorem State.Fits.deeper (h : s.Fits d₀) :
    s.calls.Pairwise fun inner outer => inner.1 = outer.1 → outer.2.depth < inner.2.depth := by
  obtain ⟨r, d, -, nested, fits⟩ := h
  have ordered : s.calls.Pairwise fun inner outer => weight outer < weight inner := by
    unfold State.calls
    split
    · rename_i r' c control
      rw [control] at fits
      obtain ⟨rfl, rfl⟩ := fits
      exact pairwise_of_nested nested
    · have all := @pairwise_of_nested r d₀ ⟨[], 0, d⟩ s.waiting nested
      exact (List.pairwise_cons.1 all).2
  refine ordered.imp fun {inner outer} further same => ?_
  simp only [weight, same] at further
  omega

end Machine

end Grammar

end Stratagem
