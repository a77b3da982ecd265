import Stratagem.Proofs.Formula.CallStack
import Stratagem.Proofs.Formula.ErrorPlaces

/-!
# Every routine comes to an end

The machine of calls gives what the readers give (`yields_read`): a reader is followed once, and its
calls are those that the machine makes. Since the machine has no budget, its loops end because every
operand and every operator takes a token, and its calls end because every part that is opened leaves
one less to open.

So a call of any routine, at any place and any depth, comes to an end with few calls inside one
another, and if it answers, it has moved on and closed all that it opened
(`Routine.halts_within_nesting`).
-/

namespace Stratagem

namespace Grammar

open Cursor

variable {c c' c₁ : Cursor} {L : Level} {e : Expr} {d : Nat}

/-! ## Moving on -/

/-- An expression has a token. -/
theorem Spells.length_lt (h : Spells c (.expr L e) c') :
    (Token.solid c'.rest).length < (Token.solid c.rest).length := by
  obtain ⟨ts, read, derives⟩ := h.derives
  obtain ⟨t, more, rfl, -⟩ := derives.begins
  rw [read, List.length_append, List.length_cons]
  omega

/-- A token that comes next is one less. -/
theorem length_of_next {t : Token} (h : c.Next t) :
    (Token.solid c.rest).length = (Token.solid (c.pass t).rest).length + 1 := by
  rw [solid_of_next h, List.length_cons]

/-- An expression has a byte. -/
theorem position_lt (spells : Spells c (.expr L e) c') (precedes : c.Precedes c') :
    c.position < c'.position := by
  obtain ⟨between, rest, position⟩ := precedes
  cases between with
  | nil =>
    have shorter := spells.length_lt
    rw [rest] at shorter
    exact absurd shorter (Nat.lt_irrefl _)
  | cons x xs =>
    have := x.utf8Size_pos
    rw [position, Text.bytes]
    omega

theorem obeys_reader {inner : Inner} (obeys : inner.Obeys) (L : Level) :
    Obeys (L.reader inner) L := by
  cases L with
  | connective => exact obeys_connective obeys
  | disjunction => exact obeys_disjunction obeys
  | conjunction => exact obeys_conjunction obeys
  | negation => exact obeys_negation obeys
  | comparison => exact obeys_comparison obeys
  | sum => exact obeys_sum obeys
  | product => exact obeys_product obeys
  | signed => exact obeys_signed obeys
  | power => exact obeys_power obeys
  | operand => exact obeys_operand obeys

theorem located_reader {inner : Inner} (located : inner.Located) (L : Level) :
    Located (L.reader inner) := by
  cases L with
  | connective => exact located_connective located
  | disjunction =>
    exact located_chain (located_chain (located_negation located) located_either) located_either
  | conjunction => exact located_chain (located_negation located) located_either
  | negation => exact located_negation located
  | comparison => exact located_comparison located
  | sum => exact located_sum located
  | product => exact located_chain (located_signed located) located_productOperator
  | signed => exact located_signed located
  | power => exact located_power located
  | operand => exact located_operand located

/-- A routine that answers has moved on, and as many parts are open after it as before. -/
theorem Routine.read_advances (r : Routine) (h : r.read c = .ok (e, c')) :
    c.position < c'.position ∧ c'.depth = c.depth := by
  have moves : ∀ {reader : Parse Expr} {L : Level}, Located reader → Obeys reader L →
      reader c = .ok (e, c') → c.position < c'.position ∧ c'.depth = c.depth := by
    intro reader L located obeys read
    have spells := obeys _ _ _ read
    have precedes := located c
    rw [read] at precedes
    exact ⟨position_lt spells precedes, spells.depth⟩
  cases r with
  | level L =>
    exact moves (located_reader (located_nested _) L) (obeys_reader (obeys_nested _) L) h
  | primary => exact moves (located_primary (located_nested _)) (obeys_primary (obeys_nested _)) h

namespace Machine

/-! ## What a configuration comes to -/

/-- The configuration shows what a reader gives: the answer to the calls that wait, or the error. -/
def State.Shows (ws : List Waiting) (s : State) : Except SyntaxError (Expr × Cursor) → Prop
  | .ok (e, c) => s = ⟨.answer e c, ws⟩
  | .error error => ∃ c vs, s = ⟨.fail error c, vs⟩

/-- The machine comes from a configuration to one that shows what a reader gives. -/
def State.Yields (s : State) (ws : List Waiting) (x : Except SyntaxError (Expr × Cursor)) : Prop :=
  ∃ s', Reaches s s' ∧ s'.Shows ws x

/-- A move of the call that started at `start` comes to what a reader gives. -/
def Move.Yields (m : Move) (start : Cursor) (ws : List Waiting)
    (x : Except SyntaxError (Expr × Cursor)) : Prop :=
  (m.state start ws).Yields ws x

/-- The machine gives what the reader gives when it calls the routine, from the depth `d` on. -/
def Runs (d : Nat) (reader : Parse Expr) (r : Routine) : Prop :=
  ∀ c ws, d ≤ c.depth → State.Yields ⟨.call r c, ws⟩ ws (reader c)

/-- The machine gives what the reader gives, inside a part that can be opened at the depth `d` or
deeper. -/
def RunsBelow (d : Nat) (reader : Parse Expr) (r : Routine) : Prop :=
  ∀ c ws, d < c.depth → c.depth ≤ maxNesting →
    State.Yields ⟨.call r c, ws⟩ ws (reader c)

/-- The machine gives what the readers of nested parts give. -/
structure RunsInside (d : Nat) (inner : Inner) : Prop where
  connective : RunsBelow d inner.connective (.level .connective)
  negation : RunsBelow d inner.negation (.level .negation)
  signed : RunsBelow d inner.signed (.level .signed)

variable {α : Type} {start : Cursor} {ws : List Waiting} {r : Routine}

theorem State.Yields.of_step {s s' : State} {x : Except SyntaxError (Expr × Cursor)}
    (step : s.step = some s') (h : s'.Yields ws x) : s.Yields ws x := by
  obtain ⟨s'', reaches, shows⟩ := h
  exact ⟨s'', .head step reaches, shows⟩

theorem yields_answer (e : Expr) (c : Cursor) :
    (Move.answer e c).Yields start ws (.ok (e, c)) :=
  ⟨_, .refl, rfl⟩

theorem yields_fail (reason : SyntaxError.Reason) (c₁ c : Cursor) :
    (Move.fail ⟨reason, c₁.position⟩ c).Yields start ws (c₁.fail reason) :=
  ⟨_, .refl, _, _, rfl⟩

theorem yields_attempt {x : Except SyntaxError α} {go : α → Move}
    {f : α → Except SyntaxError (Expr × Cursor)}
    (h : ∀ a, x = .ok a → (go a).Yields start ws (f a)) :
    (attempt c x go).Yields start ws (x >>= f) := by
  cases x with
  | ok a => exact h a rfl
  | error error => exact ⟨_, .refl, _, _, rfl⟩

theorem yields_entering {go : Cursor → Move} {f : Cursor → Except SyntaxError (Expr × Cursor)}
    (deep : d ≤ c.depth)
    (h : ∀ c₁, d < c₁.depth → c₁.depth ≤ maxNesting → (go c₁).Yields start ws (f c₁)) :
    (entering c go).Yields start ws (c.enter >>= f) := by
  by_cases shallow : c.depth < maxNesting
  · have enters : c.enter = .ok { c with depth := c.depth + 1 } := if_pos shallow
    rw [entering, if_neg (Nat.not_lt.2 shallow), enters]
    exact h _ (Nat.lt_succ_of_le deep) shallow
  · have fails : c.enter = c.fail .tooDeep := if_neg shallow
    rw [entering, if_pos (Nat.lt_succ_of_le (Nat.le_of_not_lt shallow)), fails]
    exact yields_fail _ _ _

theorem yields_leaving {go : Cursor → Move} {x : Except SyntaxError (Expr × Cursor)}
    (inside : d < c.depth) (h : (go c.leave).Yields start ws x) :
    (leaving c go).Yields start ws x := by
  rw [leaving, if_neg (Nat.ne_zero_of_lt inside)]
  exact h

/-- A call and what is done with its answer. -/
theorem yields_call {p : Point} {x : Except SyntaxError (Expr × Cursor)}
    {f : Expr × Cursor → Except SyntaxError (Expr × Cursor)}
    (called : State.Yields ⟨.call r c, ⟨start, p⟩ :: ws⟩ (⟨start, p⟩ :: ws) x)
    (h : ∀ e c', x = .ok (e, c') → (resume p e c').Yields start ws (f (e, c'))) :
    (Move.call p r c).Yields start ws (x >>= f) := by
  obtain ⟨s, reaches, shows⟩ := called
  cases x with
  | ok a =>
    obtain ⟨e, c'⟩ := a
    cases shows
    obtain ⟨s', reaches', shows'⟩ := h e c' rfl
    exact ⟨s', reaches.trans (.head rfl reaches'), shows'⟩
  | error error => exact ⟨s, reaches, shows⟩

/-- A call whose answer is passed on. -/
theorem yields_tighter {x : Except SyntaxError (Expr × Cursor)}
    (called : State.Yields ⟨.call r c, ⟨start, .tighter L⟩ :: ws⟩ (⟨start, .tighter L⟩ :: ws) x) :
    (Move.call (.tighter L) r c).Yields start ws x := by
  have passed : (Move.call (.tighter L) r c).Yields start ws (x >>= pure) :=
    yields_call called fun e c' _ => yields_answer e c'
  rwa [bind_pure] at passed

/-- A reader gives what the machine gives when the routine begins so. -/
theorem runs_of_begin {reader : Parse Expr}
    (h : ∀ c ws, d ≤ c.depth → (begin r c).Yields c ws (reader c)) : Runs d reader r :=
  fun c ws deep => .of_step rfl (h c ws deep)

/-! ## Chains -/

theorem yields_chained {operand : Parse Expr} {operator : Operator}
    (chains : L.chainOperator? = some operator) (obeys : Obeys operand L.tighter)
    (runs : Runs d operand (.level L.tighter)) (budget : Nat) (left : Expr) (deep : d ≤ c.depth)
    (enough : (Token.solid c.rest).length ≤ budget) :
    (chained L left c).Yields start ws (chainLoop operand operator budget left c) := by
  have reads := Level.reads_of_chainOperator? chains
  induction budget generalizing left c with
  | zero =>
    -- No token is left, and so no operator.
    have ended : operator c.skipBlanks = none := by
      refine Option.eq_none_iff_forall_ne_some.2 fun ⟨combine, c₁⟩ found => ?_
      obtain ⟨t, next, -, -⟩ := (reads _ _ _).1 found
      have := length_of_next next
      omega
    simp only [chained, chains, Option.bind_some, ended]
    exact yields_answer left _
  | succ budget ih =>
    simp only [chained, chains, Option.bind_some, chainLoop]
    cases found : operator c.skipBlanks with
    | none => exact yields_answer left _
    | some pair =>
      obtain ⟨combine, c₁⟩ := pair
      obtain ⟨t, next, rfl, -⟩ := (reads _ _ _).1 found
      refine yields_call (runs _ _ deep) fun right c₂ read => ?_
      have spells := obeys _ _ _ read
      refine ih _ (spells.depth ▸ deep) ?_
      have := spells.length_lt
      have := length_of_next next
      omega

theorem runs_chain {operand : Parse Expr} {operator : Operator}
    (chains : L.chainOperator? = some operator) (obeys : Obeys operand L.tighter)
    (runs : Runs d operand (.level L.tighter)) : Runs d (chain operand operator) (.level L) := by
  refine runs_of_begin fun c ws deep => ?_
  have begins : begin (.level L) c = .call (.firstOperand L) (.level L.tighter) c := by
    cases L <;> cases chains <;> rfl
  rw [begins]
  refine yields_call (runs _ _ deep) fun first c₁ read => ?_
  exact yields_chained chains obeys runs _ first ((obeys _ _ _ read).depth ▸ deep)
    (Token.length_solid_le _)

/-! ## Parts -/

/-- What a part opens, reads and closes. -/
theorem yields_inside {p : Point} {reader : Parse Expr} (build : Expr → Expr) (deep : d ≤ c.depth)
    (restores : Obeys reader L) (called : RunsBelow d reader r)
    (resumes : ∀ e c, resume p e c = leaving c fun c => .answer (build e) c) :
    (entering c fun c => .call p r c).Yields start ws (do
      let c ← c.enter
      let (e, c) ← reader c
      return (build e, c.leave)) := by
  refine yields_entering deep fun c₁ deep shallow => ?_
  refine yields_call (called _ _ deep shallow) fun e c₂ answer => ?_
  rw [resumes]
  exact yields_leaving ((restores _ _ _ answer).depth ▸ deep) (yields_answer _ _)

/-! ## Operands -/

/-- Reading a literal is one move. -/
theorem yields_literal (x : Except SyntaxError (Expr × Cursor)) :
    (attempt c x fun (e, c) => .answer e c).Yields start ws x := by
  have read : (attempt c x fun (e, c) => .answer e c).Yields start ws (x >>= pure) :=
    yields_attempt fun a _ => yields_answer a.1 a.2
  rwa [bind_pure] at read

section

variable {inner : Inner} (obeys : inner.Obeys) (runs : RunsInside d inner)

theorem yields_closing {origin : Cursor} {f : Builtin} {args : List Expr} (inside : d < c.depth) :
    (closing origin f args c).Yields start ws
      (if f.accepts args.length then return (.call f args, c.leave)
      else origin.fail (.argumentCount f args.length)) := by
  refine yields_leaving inside ?_
  split
  · exact yields_answer _ _
  · exact yields_fail _ _ _

include obeys runs

/-- The arguments of a call from the next one on, and the end of the call. -/
theorem yields_argument {origin : Cursor} {f : Builtin} (budget : Nat) (read : List Expr)
    (deep : d < c.depth) (shallow : c.depth ≤ maxNesting)
    (enough : (Token.solid c.rest).length < budget) :
    (Move.call (.argument origin f read) (.level .connective) c).Yields start ws
      (argumentLoop inner budget read c >>= fun (args, c) =>
        if f.accepts args.length then return (.call f args, c.leave)
        else origin.fail (.argumentCount f args.length)) := by
  induction budget generalizing read c with
  | zero => exact absurd enough (Nat.not_lt_zero _)
  | succ budget ih =>
    -- An argument and the comma behind it take a token each, so the budget lasts.
    simp only [argumentLoop, bind_assoc]
    refine yields_call (runs.connective _ _ deep shallow) fun e c₁ answer => ?_
    have spells := obeys.connective _ _ _ answer
    have := spells.length_lt
    simp only [resume]
    split
    · have inside : d < (c₁.skipBlanks.skip 1).depth := spells.depth ▸ deep
      exact yields_closing inside
    · simp only [bind_assoc]
      refine yields_attempt fun c₂ comma => ?_
      obtain ⟨next, rfl⟩ := @next_of_expect c₁.skipBlanks _ .comma _ rfl (fun _ => rfl) comma
      refine ih _ (spells.depth ▸ deep) (spells.depth ▸ shallow) ?_
      have := length_of_next next
      rw [solid_skipBlanks] at this
      omega

theorem yields_named (deep : d ≤ c.depth) : (beginNamed c).Yields start ws (named inner c) := by
  refine yields_attempt ?_
  rintro ⟨name, c₁⟩ word
  have depth := depth_of_name word
  dsimp only
  split
  · exact yields_answer _ _
  · split
    · exact yields_answer _ _
    · split
      · exact yields_fail _ _ _
      · split
        · unfold call
          cases Builtin.ofName? name with
          | none => exact yields_fail _ _ _
          | some f =>
            have deep : d ≤ (c₁.skipBlanks.skip 1).depth := depth ▸ deep
            refine yields_entering deep fun c₂ deep shallow => ?_
            simp only [arguments]
            split
            · exact yields_closing deep
            · exact yields_argument obeys runs _ [] deep shallow
                (Nat.lt_succ_of_le (Token.length_solid_le _))
        · exact yields_answer _ _

theorem yields_parenthesized (deep : d ≤ c.depth) :
    (entering (c.skip 1) fun c => .call .parentheses (.level .connective) c).Yields start ws
      (parenthesized inner c) := by
  refine yields_entering deep fun c₁ deep shallow => ?_
  refine yields_call (runs.connective _ _ deep shallow) fun e c₂ answer => ?_
  refine yields_attempt fun c₃ closes => ?_
  have depth := (depth_of_expect closes).trans (obeys.connective _ _ _ answer).depth
  exact yields_leaving (depth ▸ deep) (yields_answer _ _)

theorem runs_primary : Runs d (primary inner) .primary := by
  refine runs_of_begin fun c ws deep => ?_
  simp only [begin, beginPrimary, primary]
  cases c.skipBlanks.rest with
  | nil => exact yields_fail _ _ _
  | cons first more =>
    dsimp only
    split
    · exact yields_literal _
    · split
      · split
        · exact yields_literal _
        · exact yields_fail _ _ _
      · split
        · exact yields_parenthesized obeys runs deep
        · split
          · exact yields_literal _
          · split
            · exact yields_named obeys runs deep
            · exact yields_fail _ _ _

theorem runs_operand : Runs d (operand inner) (.level .operand) := by
  refine runs_of_begin fun c ws deep => ?_
  refine yields_call (runs_primary obeys runs _ _ deep) fun e c₁ answer => ?_
  dsimp only [resume]
  split
  · rename_i head
    rw [head]
    exact yields_fail _ _ _
  · split
    · rename_i head
      rw [head]
      exact yields_fail _ _ _
    · split
      · rename_i head
        rw [head]
        exact yields_fail _ _ _
      · split
        · contradiction
        · contradiction
        · contradiction
        · exact yields_answer _ _

/-! ## Levels -/

theorem runs_power : Runs d (power inner) (.level .power) := by
  refine runs_of_begin fun c ws deep => ?_
  refine yields_call (runs_operand obeys runs _ _ deep) fun base c₁ answer => ?_
  have depth := (obeys_operand obeys _ _ _ answer).depth
  cases found : c₁.skipBlanks.take? "**" with
  | none =>
    simp only [resume, found]
    exact yields_answer _ _
  | some c₂ =>
    simp only [resume, found]
    obtain ⟨-, rfl⟩ := (@take?_iff _ _ (.binary .pow) "**" rfl fun _ _ => rfl).1 found
    exact yields_inside (.binary .pow base) (depth ▸ deep) obeys.signed runs.signed fun _ _ => rfl

theorem runs_signed : Runs d (signed inner) (.level .signed) := by
  refine runs_of_begin fun c ws deep => ?_
  dsimp only [begin, signed]
  split
  · rename_i head
    rw [head]
    exact yields_inside (.unary .minus) deep obeys.signed runs.signed fun _ _ => rfl
  · split
    · rename_i head
      rw [head]
      exact yields_inside (.unary .plus) deep obeys.signed runs.signed fun _ _ => rfl
    · split
      · contradiction
      · contradiction
      · exact yields_tighter (runs_power obeys runs _ _ deep)

theorem runs_product : Runs d (product inner) (.level .product) :=
  runs_chain rfl (obeys_signed obeys) (runs_signed obeys runs)

theorem runs_sum : Runs d (sum inner) (.level .sum) :=
  runs_chain rfl (obeys_product obeys) (runs_product obeys runs)

theorem yields_compared (budget : Nat) (first : Expr) (read : List (CompareOp × Expr))
    (deep : d ≤ c.depth) (enough : (Token.solid c.rest).length ≤ budget) :
    (compared first read c).Yields start ws (comparisonLoop inner budget read c >>= fun (rest, c) =>
      if rest.isEmpty then return (first, c) else return (.compare first rest, c)) := by
  have close : ∀ (read : List (CompareOp × Expr)) (c : Cursor),
      (Move.answer (if read.reverse.isEmpty then first else .compare first read.reverse) c).Yields
        start ws (if read.reverse.isEmpty then return (first, c)
          else return (.compare first read.reverse, c)) := by
    intro read c
    split
    · exact yields_answer _ _
    · exact yields_answer _ _
  induction budget generalizing read c with
  | zero =>
    -- No token is left, and so no operator.
    have ended : comparisonOperator c = .ok none := by
      refine comparisonOperator_of_ends ?_
      rw [List.length_eq_zero_iff.1 (Nat.le_zero.1 enough)]
      exact nofun
    simp only [compared, ended]
    exact close _ _
  | succ budget ih =>
    simp only [comparisonLoop, bind_assoc]
    refine yields_attempt fun found hfound => ?_
    cases found with
    | none => exact close _ _
    | some pair =>
      obtain ⟨op, c₁⟩ := pair
      obtain ⟨next, rfl⟩ := next_of_comparisonOperator hfound
      simp only [bind_assoc]
      refine yields_call (runs_sum obeys runs _ _ deep) fun e c₂ answer => ?_
      have spells := obeys_sum obeys _ _ _ answer
      refine ih _ (spells.depth ▸ deep) ?_
      have := spells.length_lt
      have := length_of_next next
      omega

theorem runs_comparison : Runs d (comparison inner) (.level .comparison) := by
  refine runs_of_begin fun c ws deep => ?_
  refine yields_call (runs_sum obeys runs _ _ deep) fun first c₁ answer => ?_
  exact yields_compared obeys runs _ first [] ((obeys_sum obeys _ _ _ answer).depth ▸ deep)
    (Token.length_solid_le _)

theorem runs_negation : Runs d (negation inner) (.level .negation) := by
  refine runs_of_begin fun c ws deep => ?_
  dsimp only [begin, negation]
  cases found : notOperator c.skipBlanks with
  | none => exact yields_tighter (runs_comparison obeys runs _ _ deep)
  | some c₁ =>
    obtain ⟨t, -, -, rfl⟩ := reads_notOperator.1 found
    exact yields_inside (.unary .not) deep obeys.negation runs.negation fun _ _ => rfl

theorem runs_conjunction : Runs d (conjunction inner) (.level .conjunction) :=
  runs_chain rfl (obeys_negation obeys) (runs_negation obeys runs)

theorem runs_disjunction : Runs d (disjunction inner) (.level .disjunction) :=
  runs_chain rfl (obeys_conjunction obeys) (runs_conjunction obeys runs)

theorem runs_connective : Runs d (connective inner) (.level .connective) :=
  runs_chain rfl (obeys_disjunction obeys) (runs_disjunction obeys runs)

theorem runs_reader (r : Routine) : Runs d (r.reader inner) r := by
  cases r with
  | primary => exact runs_primary obeys runs
  | level L =>
    cases L with
    | connective => exact runs_connective obeys runs
    | disjunction => exact runs_disjunction obeys runs
    | conjunction => exact runs_conjunction obeys runs
    | negation => exact runs_negation obeys runs
    | comparison => exact runs_comparison obeys runs
    | sum => exact runs_sum obeys runs
    | product => exact runs_product obeys runs
    | signed => exact runs_signed obeys runs
    | power => exact runs_power obeys runs
    | operand => exact runs_operand obeys runs

end

/-! ## Nesting -/

/-- The machine gives what the readers give that may still open `n` parts. -/
theorem runs_nested (n : Nat) (r : Routine) : Runs (maxNesting - n) (r.reader (nested n)) r := by
  induction n generalizing r with
  | zero =>
    -- No part can be opened at this depth.
    have never : ∀ {c : Cursor}, maxNesting < c.depth → ¬c.depth ≤ maxNesting := Nat.not_le_of_lt
    refine runs_reader (obeys_nested 0) ⟨?_, ?_, ?_⟩ r
    · exact fun c ws deep shallow => absurd shallow (never deep)
    · exact fun c ws deep shallow => absurd shallow (never deep)
    · exact fun c ws deep shallow => absurd shallow (never deep)
  | succ n ih =>
    have fewer : ∀ {c : Cursor}, maxNesting - (n + 1) < c.depth → maxNesting - n ≤ c.depth := by
      intro c deep
      omega
    exact runs_reader (obeys_nested (n + 1))
      ⟨fun c ws deep _ => ih (.level .connective) c ws (fewer deep),
        fun c ws deep _ => ih (.level .negation) c ws (fewer deep),
        fun c ws deep _ => ih (.level .signed) c ws (fewer deep)⟩ r

/-- The machine gives what a routine reads, at any place and any depth. -/
theorem yields_read (r : Routine) (c : Cursor) (ws : List Waiting) :
    State.Yields ⟨.call r c, ws⟩ ws (r.read c) :=
  runs_nested maxNesting r c ws (by rw [Nat.sub_self]; exact Nat.zero_le _)

/-- What is shown to no waiting call is final. -/
theorem State.Shows.step_eq_none {s : State} {x : Except SyntaxError (Expr × Cursor)}
    (h : s.Shows [] x) : s.step = none := by
  cases x with
  | ok a =>
    cases h
    rfl
  | error error =>
    obtain ⟨c, vs, rfl⟩ := h
    rfl

end Machine

open Machine

/-- A call of any routine, at any place and any depth, comes to an end, and what it comes to is what
the routine reads. If it answers, it has read something and has closed every part that it opened. On
the way no part is closed that has not been opened, the depth that is counted is at most one more
than what is allowed, the calls inside one another are few, and a routine is inside itself only in
parts that have been opened since. -/
theorem Routine.halts_within_nesting (r : Routine) (c : Cursor) :
    (∀ e c', r.read c = .ok (e, c') → c.position < c'.position ∧ c'.depth = c.depth) ∧
      (∃ s, Reaches (.start r c) s ∧ s.step = none ∧ s.Shows [] (r.read c)) ∧
      ∀ s, Reaches (.start r c) s → s.control ≠ .underflow ∧
        s.control.depth ≤ max c.depth maxNesting + 1 ∧
        s.calls.length ≤ 11 * (maxNesting - c.depth + 1) ∧
        s.calls.Pairwise fun inner outer => inner.1 = outer.1 → outer.2.depth < inner.2.depth := by
  refine ⟨fun e c' => r.read_advances, ?_, fun s reaches => ?_⟩
  · obtain ⟨s, reaches, shows⟩ := yields_read r c []
    exact ⟨s, reaches, shows.step_eq_none, shows⟩
  · have fits := fits_of_reaches reaches
    exact ⟨fits.ne_underflow, fits.depth_le, fits.length_calls_le, fits.deeper⟩

/-- A negation of a part in parentheses opens two parts and closes both of them. -/
theorem Routine.halts_within_nesting_not :
    (level .connective).read (.start "not (a)") = .ok (.unary .not (.var "a"), ⟨[], 7, 0⟩) ∧
      0 < 7 ∧ Reaches (.start (level .connective) (.start "not (a)"))
        ⟨.answer (.unary .not (.var "a")) ⟨[], 7, 0⟩, []⟩ := by
  have read : (level .connective).read (.start "not (a)") =
      .ok (.unary .not (.var "a"), ⟨[], 7, 0⟩) := rfl
  obtain ⟨advances, ⟨s, reaches, -, shows⟩, -⟩ :=
    halts_within_nesting (level .connective) (.start "not (a)")
  rw [read] at shows
  cases shows
  exact ⟨read, (advances _ _ read).1, reaches⟩

end Grammar

end Stratagem
