import Stratagem.Proofs.Formula.Tokens

/-!
# The language of expressions

Which tokens stand for which expression. `Derives` has one rule for each way of putting expressions
together, with the level of binding strength that each part must have at least. The rules for the
operators that group to the left are one rule (`Derives.chain`) over a table of operators
(`Token.operator?`).

Every rule says how far it nests. `Derives n` allows `n` parentheses, signs, negations, exponents
and calls inside one another.
-/

namespace Stratagem

/-- How strongly an expression binds, from the loosest level to the tightest. -/
inductive Level
  | connective
  | disjunction
  | conjunction
  | negation
  | comparison
  | sum
  | product
  | signed
  | power
  | operand
  deriving DecidableEq, Repr

namespace Level

/-- The place of a level, counted from the loosest. -/
def rank : Level → Nat
  | connective => 0
  | disjunction => 1
  | conjunction => 2
  | negation => 3
  | comparison => 4
  | sum => 5
  | product => 6
  | signed => 7
  | power => 8
  | operand => 9

/-- The next tighter level. -/
def tighter : Level → Level
  | connective => disjunction
  | disjunction => conjunction
  | conjunction => negation
  | negation => comparison
  | comparison => sum
  | sum => product
  | product => signed
  | signed => power
  | power | operand => operand

end Level

namespace Token

/-- The operators that group to the left, with their level and what they make of their operands. -/
def operator? : Token → Option (Level × (Expr → Expr → Expr))
  | mark .implies => some (.connective, fun l r => .call .implies [l, r])
  | mark .iff => some (.connective, fun l r => .call .iff [l, r])
  | mark .xor => some (.connective, fun l r => .call .xor [l, r])
  | mark .nand => some (.connective, fun l r => .call .nand [l, r])
  | mark .nor => some (.connective, fun l r => .call .nor [l, r])
  | mark .bars => some (.disjunction, .or)
  | mark .ampersands => some (.conjunction, .and)
  | mark (.binary .add) => some (.sum, .binary .add)
  | mark (.binary .sub) => some (.sum, .binary .sub)
  | mark (.binary .mul) => some (.product, .binary .mul)
  | mark (.binary .div) => some (.product, .binary .div)
  | mark (.binary .rem) => some (.product, .binary .rem)
  | word name =>
    if name = "or" then some (.disjunction, .or)
    else if name = "and" then some (.conjunction, .and)
    else none
  | _ => none

/-- Whether a token is a negation sign. -/
def IsNot (t : Token) : Prop := t = word "not" ∨ t = mark .bang

/-- The level of an operator between two operands. -/
def level? : Token → Option Level
  | mark (.compare _) => some .comparison
  | mark (.binary .pow) => some .power
  | t => t.operator?.map Prod.fst

/-- The token ends an expression of a level: it closes a parenthesis, separates arguments, or is an
operator of a looser level. -/
def Ends (L : Level) (t : Token) : Prop :=
  t = mark .closing ∨ t = mark .comma ∨ ∃ K ∈ t.level?, K.rank < L.rank

end Token

/-- What a list of tokens can stand for. -/
inductive Phrase
  | expr (L : Level) (e : Expr)
  /-- The later operands of a comparison, with the operators in front of them. -/
  | pairs (rest : List (CompareOp × Expr))
  /-- The arguments of a call up to the closing parenthesis. -/
  | arguments (args : List Expr)

/-- The tokens stand for the phrase, with at most `n` nested parts inside one another. -/
inductive Derives : (n : Nat) → Phrase → List Token → Prop
  | number {n text x} (read : Decimal.read text = .ok x) (finite : x.isFinite = true)
      (unsigned : 0.0 ≤ x) : Derives n (.expr .operand (.number x)) [.number text]
  | true {n} : Derives n (.expr .operand (.bool true)) [.word "true"]
  | false {n} : Derives n (.expr .operand (.bool false)) [.word "false"]
  | text {n quote content} : Derives n (.expr .operand (.text content)) [.quoted quote content]
  | var {n name} (free : name ∉ Literal.reservedWords) :
      Derives n (.expr .operand (.var name)) [.word name]
  | parentheses {n e ts} (inside : Derives n (.expr .connective e) ts) :
      Derives (n + 1) (.expr .operand e) (.mark .opening :: (ts ++ [.mark .closing]))
  | call {n f args ts} (takes : f.accepts args.length = Bool.true)
      (inside : Derives n (.arguments args) ts) :
      Derives (n + 1) (.expr .operand (.call f args)) (.word f.name :: .mark .opening :: ts)
  | power {n base exponent ts us} (left : Derives (n + 1) (.expr .operand base) ts)
      (right : Derives n (.expr .signed exponent) us) :
      Derives (n + 1) (.expr .power (.binary .pow base exponent))
        (ts ++ .mark (.binary .pow) :: us)
  | minus {n e ts} (inside : Derives n (.expr .signed e) ts) :
      Derives (n + 1) (.expr .signed (.unary .minus e)) (.mark (.binary .sub) :: ts)
  | plus {n e ts} (inside : Derives n (.expr .signed e) ts) :
      Derives (n + 1) (.expr .signed (.unary .plus e)) (.mark (.binary .add) :: ts)
  | compare {n first rest ts us} (left : Derives n (.expr .sum first) ts)
      (right : Derives n (.pairs rest) us) (some : rest ≠ []) :
      Derives n (.expr .comparison (.compare first rest)) (ts ++ us)
  | not {n t e ts} (sign : t.IsNot) (inside : Derives n (.expr .negation e) ts) :
      Derives (n + 1) (.expr .negation (.unary .not e)) (t :: ts)
  | chain {n L t combine l r ts us} (operator : t.operator? = some (L, combine))
      (left : Derives n (.expr L l) ts) (right : Derives n (.expr L.tighter r) us) :
      Derives n (.expr L (combine l r)) (ts ++ t :: us)
  | tighter {n L e ts} (inside : Derives n (.expr L.tighter e) ts) : Derives n (.expr L e) ts
  | noPairs {n} : Derives n (.pairs []) []
  | pair {n op e rest ts us} (operand : Derives n (.expr .sum e) ts)
      (more : Derives n (.pairs rest) us) :
      Derives n (.pairs ((op, e) :: rest)) (.mark (.compare op) :: (ts ++ us))
  | lastArgument {n e ts} (inside : Derives n (.expr .connective e) ts) :
      Derives n (.arguments [e]) (ts ++ [.mark .closing])
  | argument {n e es ts us} (inside : Derives n (.expr .connective e) ts)
      (more : Derives n (.arguments es) us) :
      Derives n (.arguments (e :: es)) (ts ++ .mark .comma :: us)

theorem Level.rank_le_tighter (L : Level) : L.rank ≤ L.tighter.rank := by cases L <;> decide

/-- The token can start an expression of a level: negation signs start loose ones only, and so do
signs. -/
structure Token.Begins (L : Level) (t : Token) : Prop where
  closing : t ≠ mark .closing
  not : Level.comparison.rank ≤ L.rank → ¬t.IsNot
  sign : Level.power.rank ≤ L.rank → t ≠ mark (.binary .sub) ∧ t ≠ mark (.binary .add)

/-- How a phrase starts. -/
def Phrase.Begins (ts : List Token) : Phrase → Prop
  | expr L _ => ∃ t more, ts = t :: more ∧ t.Begins L
  | arguments _ => ∃ t more, ts = t :: more ∧ t.Begins .connective
  | pairs _ => ts = [] ∨ ∃ op more, ts = .mark (.compare op) :: more

theorem Token.Begins.of_le {K L : Level} {t : Token} (h : t.Begins K) (le : L.rank ≤ K.rank) :
    t.Begins L where
  closing := h.closing
  not tight := h.not (Nat.le_trans tight le)
  sign tight := h.sign (Nat.le_trans tight le)

/-- A token other than a mark or `not` starts expressions of every level. -/
theorem Token.begins_of_plain {L : Level} {t : Token} (mark : ∀ m, t ≠ mark m)
    (word : t ≠ word "not") : t.Begins L :=
  ⟨mark _, fun _ h => h.elim word (mark _), fun _ => ⟨mark _, mark _⟩⟩

theorem Builtin.name_not_reserved (f : Builtin) : f.name ∉ Literal.reservedWords := by
  cases f <;> decide

theorem Derives.begins {n : Nat} {p : Phrase} {ts : List Token} (h : Derives n p ts) :
    p.Begins ts := by
  have name : ∀ {L} {s : String} {more : List Token}, s ∉ Literal.reservedWords →
      ∃ t more', Token.word s :: more = t :: more' ∧ t.Begins L := by
    intro L s more free
    refine ⟨_, more, rfl, Token.begins_of_plain (fun _ h => nomatch h) ?_⟩
    rintro ⟨⟩
    exact free (by decide)
  -- A looser level asks for less at the start, so `tighter` and `chain` keep what is known of it.
  induction h with
  | number | text => exact ⟨_, [], rfl, Token.begins_of_plain (fun _ h => nomatch h) nofun⟩
  | true | false => exact ⟨_, [], rfl, Token.begins_of_plain (fun _ h => nomatch h) (by decide)⟩
  | var free => exact name free
  | call => exact name (Builtin.name_not_reserved _)
  | parentheses =>
    refine ⟨_, _, rfl, nofun, fun _ h => ?_, fun _ => ⟨nofun, nofun⟩⟩
    rcases h with h | h <;> cases h
  | minus | plus =>
    refine ⟨_, _, rfl, nofun, fun _ h => ?_, fun tight => absurd tight (by decide)⟩
    rcases h with h | h <;> cases h
  | not sign =>
    refine ⟨_, _, rfl, ?_, fun tight => absurd tight (by decide),
      fun tight => absurd tight (by decide)⟩
    rcases sign with rfl | rfl <;> nofun
  | power left right ih =>
    obtain ⟨t, more, rfl, begins⟩ := ih
    exact ⟨t, _, rfl, begins.of_le (by decide)⟩
  | compare left right some ih =>
    obtain ⟨t, more, rfl, begins⟩ := ih
    exact ⟨t, _, rfl, begins.of_le (by decide)⟩
  | chain operator left right ih =>
    obtain ⟨t, more, rfl, begins⟩ := ih
    exact ⟨t, _, rfl, begins⟩
  | tighter inside ih =>
    obtain ⟨t, more, rfl, begins⟩ := ih
    exact ⟨t, more, rfl, begins.of_le (Level.rank_le_tighter _)⟩
  | noPairs => exact .inl rfl
  | pair => exact .inr ⟨_, _, rfl⟩
  | lastArgument inside ih =>
    obtain ⟨t, more, rfl, begins⟩ := ih
    exact ⟨t, _, rfl, begins⟩
  | argument inside more ih =>
    obtain ⟨t, more, rfl, begins⟩ := ih
    exact ⟨t, _, rfl, begins⟩

theorem Derives.eq_nil {n : Nat} {ts : List Token} (h : Derives n (.pairs []) ts) : ts = [] := by
  cases h
  rfl

end Stratagem
