import Stratagem.Proofs.Formula.Completeness
import Stratagem.Proofs.Formula.WellFormed

/-!
# Printed expressions are read back

`Style.print` writes an expression with parentheses where the levels of binding strength ask for
them and nowhere else. If the text is short and does not nest too deeply, it is read as the same
expression (`parse_print`), and so is every other text with the same tokens: blanks make no
difference.

What is written comes with the level that it binds at (`Written`), and `Written.within` decides
about parentheses. Each way of writing keeps that the tokens stand for the expression
(`Written.StandsFor`).
-/

namespace Stratagem

open Token

/-! ## Printing -/

/-- An expression as it is written. -/
structure Written where
  /-- How strongly it binds. -/
  level : Level
  /-- How many parentheses, signs, negations, exponents and calls are inside one another. -/
  nesting : Nat
  tokens : List Token

namespace Written

/-- A single token. -/
def single (t : Token) : Written := ⟨.operand, 0, [t]⟩

/-- In parentheses if it binds more loosely than a level. -/
def within (L : Level) (w : Written) : Written :=
  if L.rank ≤ w.level.rank then w
  else ⟨.operand, w.nesting + 1, .mark .opening :: (w.tokens ++ [.mark .closing])⟩

/-- Behind an operator with one operand. -/
def behind (t : Token) (L : Level) (w : Written) : Written :=
  ⟨L, (w.within L).nesting + 1, t :: (w.within L).tokens⟩

/-- On both sides of an operator that groups to the left. -/
def between (t : Token) (L : Level) (l r : Written) : Written :=
  ⟨L, max (l.within L).nesting (r.within L.tighter).nesting,
    (l.within L).tokens ++ t :: (r.within L.tighter).tokens⟩

/-- A power; the exponent may have a sign or be a power. -/
def power (base exponent : Written) : Written :=
  ⟨.power, max (base.within .operand).nesting ((exponent.within .signed).nesting + 1),
    (base.within .operand).tokens ++ .mark (.binary .pow) :: (exponent.within .signed).tokens⟩

/-- An arithmetic operator. -/
def binary (op : BinaryOp) (l r : Written) : Written :=
  match op with
  | .add | .sub => between (.mark (.binary op)) .sum l r
  | .mul | .div | .rem => between (.mark (.binary op)) .product l r
  | .pow => power l r

/-- How far the deepest of several expressions nests. -/
def deepest : List Written → Nat
  | [] => 0
  | w :: ws => max w.nesting (deepest ws)

/-- The later operands of a comparison. -/
def pairs : List (CompareOp × Written) → List Token
  | [] => []
  | (op, w) :: rest => .mark (.compare op) :: ((w.within .sum).tokens ++ pairs rest)

/-- A chain of comparisons. -/
def compare (first : Written) (rest : List (CompareOp × Written)) : Written :=
  ⟨.comparison, max (first.within .sum).nesting (deepest (rest.map fun p => p.2.within .sum)),
    (first.within .sum).tokens ++ pairs rest⟩

/-- The arguments of a call up to the closing parenthesis. -/
def arguments : List Written → List Token
  | [] => [.mark .closing]
  | [w] => w.tokens ++ [.mark .closing]
  | w :: ws => w.tokens ++ .mark .comma :: arguments ws

/-- A call. -/
def call (f : Builtin) (args : List Written) : Written :=
  ⟨.operand, deepest args + 1, .word f.name :: .mark .opening :: arguments args⟩

end Written

/-- The connectives that have a mark. -/
def Builtin.mark? : Builtin → Option Mark
  | implies => some .implies
  | iff => some .iff
  | xor => some .xor
  | nand => some .nand
  | nor => some .nor
  | min | max | abs => none

/-- How expressions are written where there is a choice. -/
structure Style where
  /-- The text of a number. -/
  numeral : Float → String
  /-- Conjunctions, disjunctions and negations are words. -/
  words : Bool
  /-- Connectives are marks between their operands. -/
  marks : Bool

namespace Style

variable (style : Style)

/-- A quote that a text avoids, if there is one. -/
def quote (s : String) : Char := if '"' ∈ s.toList then '\'' else '"'

def unary (op : UnaryOp) (w : Written) : Written :=
  match op with
  | .minus => w.behind (.mark (.binary .sub)) .signed
  | .plus => w.behind (.mark (.binary .add)) .signed
  | .not => w.behind (if style.words then .word "not" else .mark .bang) .negation

def and (l r : Written) : Written :=
  .between (if style.words then .word "and" else .mark .ampersands) .conjunction l r

def or (l r : Written) : Written :=
  .between (if style.words then .word "or" else .mark .bars) .disjunction l r

/-- A call, or two expressions with a connective between them. -/
def call (f : Builtin) (args : List Written) : Written :=
  match if style.marks then f.mark? else none, args with
  | some m, [l, r] => .between (.mark m) .connective l r
  | _, _ => .call f args

mutual
/-- An expression as it is written. -/
def write : Expr → Written
  | .number x => .single (.number (style.numeral x))
  | .bool b => .single (.word (if b then "true" else "false"))
  | .text s => .single (.quoted (quote s) s)
  | .var name => .single (.word name)
  | .unary op e => style.unary op (write e)
  | .binary op l r => .binary op (write l) (write r)
  | .compare first rest => .compare (write first) (writePairs rest)
  | .and l r => style.and (write l) (write r)
  | .or l r => style.or (write l) (write r)
  | .call f args => style.call f (writeAll args)

/-- The later operands of a comparison. -/
def writePairs : List (CompareOp × Expr) → List (CompareOp × Written)
  | [] => []
  | (op, e) :: rest => (op, write e) :: writePairs rest

/-- Several expressions. -/
def writeAll : List Expr → List Written
  | [] => []
  | e :: es => write e :: writeAll es
end

/-- The text of an expression, with a blank after each token. -/
def print (e : Expr) : String :=
  String.ofList ((style.write e).tokens.flatMap fun t => t.spelling ++ [' '])

/-- The text of a number is a numeral, and it is read as the number. -/
structure Prints (x : Float) : Prop where
  finite : x.isFinite = true
  numeral : Token.scan (style.numeral x).toList = [.number (style.numeral x)]
  read : Decimal.read (style.numeral x) = .ok x

end Style

/-! ## Boundaries -/

/-- The text is empty or starts with a character that ends every token in front of it. -/
def Token.Boundary (rest : List Char) : Prop := ∀ x ∈ rest.head?, x ∈ [' ', '(', ')', ',']

section

variable {p : Char → Bool} {cs r : List Char}

theorem takeWhile_of_head (h : ∀ x ∈ r.head?, p x = false) : r.takeWhile p = [] := by
  cases r with
  | nil => rfl
  | cons x r => exact List.takeWhile_cons_of_neg (by simp [h x rfl])

theorem takeWhile_boundary (h : ∀ x ∈ r.head?, p x = false) :
    (cs ++ r).takeWhile p = cs.takeWhile p := by
  rw [List.takeWhile_append, takeWhile_of_head h]
  split
  · rename_i all
    rw [List.append_nil]
    have starts : cs.takeWhile p <+: cs := List.takeWhile_prefix p
    exact (starts.eq_of_length all).symm
  · rfl

theorem dropWhile_boundary (h : ∀ x ∈ r.head?, p x = false) :
    (cs ++ r).dropWhile p = cs.dropWhile p ++ r := by
  have all : r.dropWhile p = r := by
    cases r with
    | nil => rfl
    | cons x r => exact List.dropWhile_cons_of_neg (by simp [h x rfl])
  rw [List.dropWhile_append, all]
  split
  · rename_i none
    rw [List.isEmpty_iff.1 none]
    rfl
  · rfl

end

namespace Token.Boundary

variable {r : List Char}

/-- What holds of the four characters holds of the one at the boundary. -/
theorem head (h : Boundary r) {P : Char → Prop} (all : P ' ' ∧ P '(' ∧ P ')' ∧ P ',') :
    ∀ x ∈ r.head?, P x := by
  intro x hx
  have four := h x hx
  simp only [List.mem_cons, List.not_mem_nil, or_false] at four
  obtain ⟨blank, opening, closing, comma⟩ := all
  rcases four with rfl | rfl | rfl | rfl
  · exact blank
  · exact opening
  · exact closing
  · exact comma

theorem blank (r : List Char) : Boundary (' ' :: r) := by
  intro x hx
  cases hx
  decide

end Token.Boundary

namespace Literal

variable {cs r : List Char}

theorem mantissa_boundary (h : Boundary r) : mantissa (cs ++ r) = mantissa cs := by
  have digit : ∀ x ∈ r.head?, x.isDigit = false := h.head (by decide)
  have point : ∀ x ∈ r.head?, x ≠ '.' := h.head (by decide)
  unfold mantissa
  rw [takeWhile_boundary digit, dropWhile_boundary digit]
  cases hcs : cs.dropWhile Char.isDigit with
  | nil =>
    rw [List.nil_append]
    split
    · exact absurd rfl (point '.' rfl)
    · rfl
  | cons x q =>
    by_cases isPoint : x = '.'
    · subst isPoint
      simp only [List.cons_append, takeWhile_boundary digit]
    · dsimp only [List.cons_append]
      split
      · exact absurd (List.cons.inj ‹_›).1 isPoint
      · split
        · exact absurd (List.cons.inj ‹_›).1 isPoint
        · rfl

theorem exponent?_boundary (h : Boundary r) : exponent? (cs ++ r) = exponent? cs := by
  have digit : ∀ x ∈ r.head?, x.isDigit = false := h.head (by decide)
  have sign : ∀ x ∈ r.head?, (x == '+' || x == '-') = false := h.head (by decide)
  cases cs with
  | nil =>
    cases r with
    | nil => rfl
    | cons x r =>
      have letter : ∀ y ∈ (x :: r).head?, ¬(y = 'e' ∨ y = 'E') := h.head (by decide)
      rw [List.nil_append, exponent?, if_neg (letter x rfl)]
      rfl
  | cons x q =>
    have shorter : ∀ p : Char → Bool, ((q.takeWhile p).take 1).length ≤ q.length := by
      intro p
      have starts : q.takeWhile p <+: q := List.takeWhile_prefix p
      exact Nat.le_trans (List.length_take_le' _ _) starts.length_le
    simp only [List.cons_append, exponent?]
    rw [takeWhile_boundary sign, List.drop_append_of_le_length (shorter _),
      takeWhile_boundary digit]

theorem numeral?_boundary (h : Boundary r) : numeral? (cs ++ r) = numeral? cs := by
  rw [numeral?, mantissa_boundary h,
    List.drop_append_of_le_length (List.IsPrefix.length_le (mantissa_starts cs)),
    exponent?_boundary h]
  rfl

end Literal

namespace Token

/-- A boundary behind the token ends it. -/
def Clear (t : Token) : Prop := ∀ r, Boundary r → solid (t.spelling ++ r) = t :: solid r

variable {t : Token} {x : Char} {xs : List Char}

theorem clear_of_first (spelled : t.spelling = x :: xs) (blank : Text.isBlank x = false)
    (h : ∀ r, Boundary r → first x (xs ++ r) = t) : t.Clear := by
  intro r boundary
  rw [spelled, List.cons_append, solid_cons blank, h r boundary, spelled, ← List.cons_append,
    List.drop_left]

theorem clear_word {name : String} (h : Literal.isName name = true) : Clear (.word name) := by
  obtain ⟨start, chars⟩ := Bool.and_eq_true_iff.1 h
  obtain ⟨x, hx, start⟩ := (Option.any_eq_true _ _).1 start
  obtain ⟨xs, hxs⟩ := List.head?_eq_some_iff.1 hx
  refine clear_of_first hxs (isBlank_of_isNameStart start) fun r boundary => ?_
  rw [first_of_isNameStart start, ← List.cons_append, ← hxs,
    List.takeWhile_append_of_pos (List.all_eq_true.1 chars),
    takeWhile_of_head (boundary.head (by decide)), List.append_nil, String.ofList_toList]

theorem clear_mark (m : Mark) : Clear (.mark m) := by
  have ends : ∀ r, Boundary r → Mark.first? (m.chars ++ r) = some m := by
    intro r boundary
    cases r with
    | nil =>
      rcases m with _ | _ | _ | _ | _ | _ | op | op | _ | _ | _ | _ | _
      case compare | binary => cases op <;> rfl
      all_goals rfl
    | cons x r =>
      have four := boundary x rfl
      simp only [List.mem_cons, List.not_mem_nil, or_false] at four
      rcases m with _ | _ | _ | _ | _ | _ | op | op | _ | _ | _ | _ | _
      case compare | binary => cases op <;> rcases four with rfl | rfl | rfl | rfl <;> rfl
      all_goals rcases four with rfl | rfl | rfl | rfl <;> rfl
  obtain ⟨x, xs, hxs⟩ := List.exists_cons_of_ne_nil m.chars_ne_nil
  have ends : ∀ r, Boundary r → Mark.first? (x :: (xs ++ r)) = some m := fun r boundary => by
    rw [← List.cons_append, ← hxs]
    exact ends r boundary
  exact clear_of_first hxs (Mark.plain_of_first? (ends [] nofun)).1 fun r boundary =>
    first_of_mark (ends r boundary)

theorem clear_quoted {q : Char} {s : String} (kind : q = '"' ∨ q = '\'') (avoids : q ∉ s.toList) :
    Clear (.quoted q s) := by
  have blank : Text.isBlank q = false := by rcases kind with rfl | rfl <;> rfl
  refine @clear_of_first _ q (s.toList ++ [q]) rfl blank fun r _ => ?_
  have inside : (s.toList ++ [q] ++ r).takeWhile (· != q) = s.toList := by
    rw [List.append_assoc, List.takeWhile_append_of_pos]
    · simp
    · intro c hc
      simpa using fun same : c = q => avoids (same ▸ hc)
  rw [first_of_quote kind (by simp), inside, String.ofList_toList]

/-- The quote around a text is one that the text avoids. -/
theorem clear_quote {s : String} (h : '"' ∉ s.toList ∨ '\'' ∉ s.toList) :
    Clear (.quoted (Style.quote s) s) := by
  unfold Style.quote
  split
  · rename_i double
    exact clear_quoted (.inr rfl) (h.resolve_left (not_not_intro double))
  · rename_i none
    exact clear_quoted (.inl rfl) none

/-- A text that is one number as a token is a numeral as a whole. -/
theorem numeral_of_scan {text : String} (h : scan text.toList = [.number text]) :
    ∃ x xs, text.toList = x :: xs ∧ (x.isDigit ∨ x = '.' ∧ xs.head?.any Char.isDigit) ∧
      Literal.numeral? (x :: xs) = some (x :: xs) := by
  cases hxs : text.toList with
  | nil =>
    rw [hxs] at h
    cases h
  | cons x xs =>
    rw [hxs, scan_cons] at h
    have kind := first_kind x xs
    rw [(List.cons.inj h).1] at kind
    cases kind with
    | number start read =>
      rw [String.toList_ofList] at hxs
      subst hxs
      exact ⟨x, xs, rfl, start, read⟩

theorem clear_number {text : String} (h : scan text.toList = [.number text]) :
    Clear (.number text) := by
  obtain ⟨x, xs, hxs, start, read⟩ := numeral_of_scan h
  refine clear_of_first hxs (isBlank_of_numeral start) fun r boundary => ?_
  have start : x.isDigit ∨ x = '.' ∧ (xs ++ r).head?.any Char.isDigit := by
    refine start.imp_right fun ⟨point, digit⟩ => ⟨point, ?_⟩
    cases xs with
    | nil => cases digit
    | cons => exact digit
  rw [← Literal.numeral?_boundary boundary] at read
  rw [first_of_numeral start read, ← hxs, String.ofList_toList]

/-- No numeral starts with a minus sign. -/
theorem head_of_numeral {text : String} (h : scan text.toList = [.number text]) :
    text.toList.head? ≠ some '-' := by
  obtain ⟨x, xs, hxs, start, -⟩ := numeral_of_scan h
  rw [hxs]
  rintro ⟨⟩
  rcases start with digit | ⟨point, -⟩
  · cases digit
  · cases point

/-- Tokens with a blank after each are found again. -/
theorem solid_flatMap {ts : List Token} (clear : ∀ t ∈ ts, t.Clear) :
    solid (ts.flatMap fun t => t.spelling ++ [' ']) = ts := by
  induction ts with
  | nil => rfl
  | cons t ts ih =>
    obtain ⟨here, later⟩ := List.forall_mem_cons.1 clear
    rw [List.flatMap_cons, List.append_assoc, List.singleton_append, here _ (.blank _),
      solid_cons_of_blank rfl, ih later]

end Token

theorem Builtin.isName_name (f : Builtin) : Literal.isName f.name = true := by
  cases f <;> rfl

/-! ## What is written stands for the expression -/

/-- What binds strongly also stands where something looser may. -/
theorem Derives.loosen {n : Nat} {K L : Level} {e : Expr} {ts : List Token}
    (h : Derives n (.expr K e) ts) (le : L.rank ≤ K.rank) : Derives n (.expr L e) ts := by
  have step : ∀ M : Level, M.rank < K.rank → M.tighter.rank = M.rank + 1 := by
    intro M lt
    revert lt
    cases M <;> cases K <;> decide
  induction hd : K.rank - L.rank generalizing L with
  | zero =>
    obtain rfl : L = K := by
      have same : L.rank = K.rank := by omega
      revert same
      cases L <;> cases K <;> decide
    exact h
  | succ d ih =>
    have tighter := step L (by omega)
    exact .tighter (ih (by omega) (by omega))

namespace Written

/-- The tokens stand for the expression. A boundary behind any of them ends it. -/
structure StandsFor (w : Written) (e : Expr) : Prop where
  clear : ∀ t ∈ w.tokens, t.Clear
  derives : ∀ n, w.nesting ≤ n → Derives n (.expr w.level e) w.tokens

variable {w l r : Written} {e x y : Expr} {t : Token} {L : Level}

theorem rank_connective (L : Level) : Level.connective.rank ≤ L.rank := Nat.zero_le _

theorem rank_le_operand (L : Level) : L.rank ≤ Level.operand.rank := by cases L <;> decide

theorem rank_le_within (L : Level) (w : Written) : L.rank ≤ (w.within L).level.rank := by
  unfold within
  split
  · assumption
  · exact rank_le_operand L

namespace StandsFor

theorem within (h : w.StandsFor e) (L : Level) : (w.within L).StandsFor e := by
  unfold Written.within
  split
  · exact h
  · refine ⟨?_, fun n deep => ?_⟩
    · simp only [List.forall_mem_cons, List.forall_mem_append]
      exact ⟨clear_mark _, h.clear, clear_mark _, nofun⟩
    · obtain ⟨n, rfl⟩ := Nat.exists_eq_add_one_of_ne_zero (Nat.ne_zero_of_lt deep)
      exact .parentheses ((h.derives n (Nat.le_of_succ_le_succ deep)).loosen (rank_connective _))

/-- With parentheses where a level asks for them, an expression stands at the level. -/
theorem derives_within (h : w.StandsFor e) {n : Nat} (deep : (w.within L).nesting ≤ n) :
    Derives n (.expr L e) (w.within L).tokens :=
  ((h.within L).derives n deep).loosen (rank_le_within L w)

theorem behind {op : UnaryOp} (h : w.StandsFor e) (clear : t.Clear)
    (rule : ∀ n ts, Derives n (.expr L e) ts → Derives (n + 1) (.expr L (.unary op e)) (t :: ts)) :
    (w.behind t L).StandsFor (.unary op e) := by
  refine ⟨List.forall_mem_cons.2 ⟨clear, (h.within L).clear⟩, fun n deep => ?_⟩
  obtain ⟨n, rfl⟩ := Nat.exists_eq_add_one_of_ne_zero (Nat.ne_zero_of_lt deep)
  exact rule n _ (h.derives_within (Nat.le_of_succ_le_succ deep))

theorem between {combine : Expr → Expr → Expr} (hl : l.StandsFor x) (hr : r.StandsFor y)
    (clear : t.Clear) (operator : t.operator? = some (L, combine)) :
    (between t L l r).StandsFor (combine x y) := by
  refine ⟨?_, fun n deep => ?_⟩
  · simp only [Written.between, List.forall_mem_append, List.forall_mem_cons]
    exact ⟨(hl.within L).clear, clear, (hr.within L.tighter).clear⟩
  · obtain ⟨left, right⟩ := Nat.max_le.1 deep
    exact .chain operator (hl.derives_within left) (hr.derives_within right)

theorem power (hl : l.StandsFor x) (hr : r.StandsFor y) :
    (power l r).StandsFor (.binary .pow x y) := by
  refine ⟨?_, fun n deep => ?_⟩
  · simp only [Written.power, List.forall_mem_append, List.forall_mem_cons]
    exact ⟨(hl.within .operand).clear, clear_mark _, (hr.within .signed).clear⟩
  · obtain ⟨left, right⟩ := Nat.max_le.1 deep
    obtain ⟨n, rfl⟩ := Nat.exists_eq_add_one_of_ne_zero (Nat.ne_zero_of_lt right)
    exact .power (hl.derives_within left) (hr.derives_within (Nat.le_of_succ_le_succ right))

theorem binary (op : BinaryOp) (hl : l.StandsFor x) (hr : r.StandsFor y) :
    (binary op l r).StandsFor (.binary op x y) := by
  cases op with
  | add | sub | mul | div | rem => exact hl.between hr (clear_mark _) rfl
  | pow => exact hl.power hr

end StandsFor

/-! ### Calls -/

theorem clear_arguments {ws : List Written} (h : ∀ w ∈ ws, ∀ t ∈ w.tokens, t.Clear) :
    ∀ t ∈ arguments ws, t.Clear := by
  induction ws with
  | nil => simpa [arguments] using clear_mark .closing
  | cons w ws ih =>
    obtain ⟨here, later⟩ := List.forall_mem_cons.1 h
    cases ws with
    | nil =>
      refine List.forall_mem_append.2 ⟨here, ?_⟩
      simpa using clear_mark .closing
    | cons w' ws =>
      refine List.forall_mem_append.2 ⟨here, ?_⟩
      exact List.forall_mem_cons.2 ⟨clear_mark .comma, ih later⟩

theorem nesting_le_deepest {ws : List Written} (h : w ∈ ws) : w.nesting ≤ deepest ws := by
  induction ws with
  | nil => cases h
  | cons w' ws ih =>
    rw [deepest]
    rcases List.mem_cons.1 h with rfl | h
    · exact Nat.le_max_left _ _
    · exact Nat.le_trans (ih h) (Nat.le_max_right _ _)

theorem derives_arguments {write : Expr → Written} {n : Nat} {args : List Expr} (some : args ≠ [])
    (h : ∀ e ∈ args, Derives n (.expr .connective e) (write e).tokens) :
    Derives n (.arguments args) (arguments (args.map write)) := by
  induction args with
  | nil => exact absurd rfl some
  | cons e args ih =>
    obtain ⟨here, later⟩ := List.forall_mem_cons.1 h
    cases args with
    | nil => exact .lastArgument here
    | cons e' args => exact .argument here (ih (List.cons_ne_nil e' args) later)

theorem derives_call {write : Expr → Written} {f : Builtin} {args : List Expr} {n : Nat}
    (takes : f.accepts args.length = true)
    (h : ∀ e ∈ args, ∀ n, (write e).nesting ≤ n → Derives n (.expr .connective e) (write e).tokens)
    (deep : (call f (args.map write)).nesting ≤ n) :
    Derives n (.expr .operand (.call f args)) (call f (args.map write)).tokens := by
  have some : args ≠ [] := by
    rintro rfl
    cases f <;> cases takes
  obtain ⟨n, rfl⟩ := Nat.exists_eq_add_one_of_ne_zero (Nat.ne_zero_of_lt deep)
  refine .call takes (derives_arguments some fun e he => h e he n ?_)
  exact Nat.le_trans (nesting_le_deepest (List.mem_map_of_mem he)) (Nat.le_of_succ_le_succ deep)

end Written

namespace Style

open Written

variable {style : Style} {e : Expr}

theorem standsFor_unary {w : Written} (op : UnaryOp) (h : w.StandsFor e) :
    (style.unary op w).StandsFor (.unary op e) := by
  cases op with
  | minus => exact h.behind (clear_mark _) fun _ _ => .minus
  | plus => exact h.behind (clear_mark _) fun _ _ => .plus
  | not =>
    dsimp only [Style.unary]
    split
    · exact h.behind (clear_word rfl) fun _ _ => .not (.inl rfl)
    · exact h.behind (clear_mark _) fun _ _ => .not (.inr rfl)

theorem standsFor_and {l r : Written} {x y : Expr} (hl : l.StandsFor x) (hr : r.StandsFor y) :
    (style.and l r).StandsFor (.and x y) := by
  unfold Style.and
  split
  · exact hl.between hr (clear_word rfl) rfl
  · exact hl.between hr (clear_mark _) rfl

theorem standsFor_or {l r : Written} {x y : Expr} (hl : l.StandsFor x) (hr : r.StandsFor y) :
    (style.or l r).StandsFor (.or x y) := by
  unfold Style.or
  split
  · exact hl.between hr (clear_word rfl) rfl
  · exact hl.between hr (clear_mark _) rfl

theorem standsFor_compare {first : Expr} {rest : List (CompareOp × Expr)} (some : rest ≠ [])
    (left : (style.write first).StandsFor first)
    (right : ∀ p ∈ rest, (style.write p.2).StandsFor p.2) :
    (Written.compare (style.write first) (style.writePairs rest)).StandsFor
      (.compare first rest) := by
  have later : (∀ t ∈ pairs (style.writePairs rest), t.Clear) ∧ ∀ n,
      deepest ((style.writePairs rest).map fun p => p.2.within .sum) ≤ n →
        Derives n (.pairs rest) (pairs (style.writePairs rest)) := by
    clear some
    induction rest with
    | nil => exact ⟨nofun, fun n _ => .noPairs⟩
    | cons p rest ih =>
      obtain ⟨op, e⟩ := p
      obtain ⟨here, later⟩ := List.forall_mem_cons.1 right
      obtain ⟨clear, derives⟩ := ih later
      refine ⟨?_, fun n deep => ?_⟩
      · simp only [writePairs, pairs, List.forall_mem_cons, List.forall_mem_append]
        exact ⟨clear_mark _, (here.within .sum).clear, clear⟩
      · obtain ⟨deepHere, deepLater⟩ := Nat.max_le.1 deep
        exact .pair (here.derives_within deepHere) (derives n deepLater)
  obtain ⟨clear, derives⟩ := later
  refine ⟨List.forall_mem_append.2 ⟨(left.within .sum).clear, clear⟩, fun n deep => ?_⟩
  obtain ⟨deepLeft, deepRight⟩ := Nat.max_le.1 deep
  exact .compare (left.derives_within deepLeft) (derives n deepRight) some

theorem writeAll_eq_map (args : List Expr) : style.writeAll args = args.map style.write := by
  induction args with
  | nil => rfl
  | cons e es ih => rw [writeAll, ih, List.map_cons]

theorem operator?_of_mark? {f : Builtin} {m : Mark} (h : f.mark? = some m) :
    (Token.mark m).operator? = some (.connective, fun l r => .call f [l, r]) := by
  cases f <;> cases h <;> rfl

theorem standsFor_call {f : Builtin} {args : List Expr} (takes : f.accepts args.length = true)
    (h : ∀ e ∈ args, (style.write e).StandsFor e) :
    (style.call f (style.writeAll args)).StandsFor (.call f args) := by
  have some : args ≠ [] := by
    rintro rfl
    cases f <;> cases takes
  have called : (Written.call f (style.writeAll args)).StandsFor (.call f args) := by
    rw [writeAll_eq_map]
    refine ⟨?_, fun n deep => derives_call takes (fun e he n deep => ?_) deep⟩
    · refine List.forall_mem_cons.2 ⟨clear_word f.isName_name,
        List.forall_mem_cons.2 ⟨clear_mark .opening, clear_arguments ?_⟩⟩
      exact List.forall_mem_map.2 fun e he => (h e he).clear
    · exact ((h e he).derives n deep).loosen (rank_connective _)
  unfold Style.call
  split
  · rename_i m l r marked written
    have marked : f.mark? = Option.some m := by
      split at marked
      · exact marked
      · cases marked
    match args with
    | [] => exact absurd rfl some
    | [x] => cases written
    | [x, y] =>
      cases written
      exact (h x (by simp)).between (h y (by simp)) (clear_mark m) (operator?_of_mark? marked)
    | _ :: _ :: _ :: _ => cases written
  · exact called

/-- What is written of a well-formed expression stands for it. -/
theorem standsFor_write (h : e.WellFormed style.Prints) : (style.write e).StandsFor e := by
  have single : ∀ {t : Token} {e : Expr}, t.Clear → (∀ n, Derives n (.expr .operand e) [t]) →
      (Written.single t).StandsFor e := fun clear derives =>
    ⟨List.forall_mem_cons.2 ⟨clear, nofun⟩, fun n _ => derives n⟩
  induction h with
  | @number x prints =>
    have unsigned := Decimal.zero_le_of_read prints.read (head_of_numeral prints.numeral)
      prints.finite
    exact single (clear_number prints.numeral) fun n => .number prints.read prints.finite unsigned
  | bool b =>
    cases b with
    | true => exact single (clear_word rfl) fun _ => .true
    | false => exact single (clear_word rfl) fun _ => .false
  | text quotable => exact single (clear_quote quotable) fun _ => .text
  | var isName free => exact single (clear_word isName) fun _ => .var free
  | unary op _ operand => exact standsFor_unary op operand
  | binary op _ _ left right => exact left.binary op right
  | compare some _ _ left right => exact standsFor_compare some left right
  | and _ _ left right => exact standsFor_and left right
  | or _ _ left right => exact standsFor_or left right
  | call takes _ arguments => exact standsFor_call takes arguments

/-- The printed text has the tokens that are written. -/
theorem solid_print (h : e.WellFormed style.Prints) :
    solid (style.print e).toList = (style.write e).tokens := by
  rw [print, String.toList_ofList, solid_flatMap (standsFor_write h).clear]

/-- A printed expression is read back, and so is any other text with the same tokens, if it is short
enough and does not nest too deeply. -/
theorem parse_print (style : Style) {e : Expr} (h : e.WellFormed style.Prints)
    (deep : (style.write e).nesting ≤ 64) (source : String)
    (same : solid source.toList = solid (style.print e).toList)
    (short : source.utf8ByteSize ≤ 4096) : Expr.parse source = .ok e := by
  have derives := ((standsFor_write h).derives 64 deep).loosen (rank_connective _)
  rw [← solid_print h, ← same] at derives
  exact Grammar.parse_of_derives derives (Nat.le_refl _) short

/-- Where the parentheses stand, and that blanks may be left out. -/
theorem parse_print_implication :
    let style : Style := ⟨Decimal.plain, true, true⟩
    let e : Expr := .call .implies
      [.and (.var "x") (.unary .not (.compare
        (.binary .mul (.binary .add (.var "a") (.number 2.5)) (.number 3))
        [(.lt, .binary .pow (.var "b") (.unary .minus (.number 2)))])),
       .compare (.text "it's") [(.ne, .var "t")]]
    style.print e = "x and not ( a + 2.5 ) * 3 < b ** - 2 → \"it's\" != t " ∧
      e.WellFormed style.Prints ∧ (style.write e).nesting ≤ 64 ∧
        Expr.parse "x and not (a + 2.5)*3<b**-2→\"it's\"!=t" = .ok e := by
  intro style e
  have number : ∀ x : Float, x.isFinite = true →
      Token.scan (Decimal.plain x).toList = [.number (Decimal.plain x)] →
      Decimal.read (Decimal.plain x) = .ok x → Expr.WellFormed style.Prints (.number x) :=
    fun x finite numeral read => .number ⟨finite, numeral, read⟩
  have var : ∀ name, Literal.isName name = true → name ∉ Literal.reservedWords →
      Expr.WellFormed style.Prints (.var name) := fun name isName free => .var isName free
  have wellFormed : e.WellFormed style.Prints := by
    refine .call rfl (List.forall_mem_cons.2 ⟨?_, List.forall_mem_cons.2 ⟨?_, nofun⟩⟩)
    · refine .and (var "x" rfl (by decide)) (.unary .not (.compare (by simp) ?_ ?_))
      · refine .binary .mul (.binary .add (var "a" rfl (by decide)) ?_) ?_
        · exact number 2.5 (by decide +kernel) (by decide +kernel) rfl
        · exact number 3 (by decide +kernel) (by decide +kernel) rfl
      · refine List.forall_mem_cons.2 ⟨.binary .pow (var "b" rfl (by decide)) ?_, nofun⟩
        exact .unary .minus (number 2 (by decide +kernel) (by decide +kernel) rfl)
    · refine .compare (by simp) (.text (.inl (by decide))) ?_
      exact List.forall_mem_cons.2 ⟨var "t" rfl (by decide), nofun⟩
  have nesting : (style.write e).nesting ≤ 64 := by decide +kernel
  have same : solid "x and not (a + 2.5)*3<b**-2→\"it's\"!=t".toList =
      solid (style.print e).toList := by decide +kernel
  have read := parse_print style wellFormed nesting _ same (by decide)
  exact ⟨by decide +kernel, wellFormed, nesting, read⟩

end Style

end Stratagem
