import Stratagem.Formula.Grammar

/-!
# Tokens

The text of an expression as a list of tokens. Tokens are taken off the front of the text, each as
long as it can be (`Token.first`), and blanks between tokens are tokens as well, so that a text is
its tokens written one after the other (`spelling_scan`). What cannot start any token is a stray
character.

Reading only sees the tokens that are not blank (`Token.solid`). `Cursor.Next` says which token
comes next, and `Cursor.pass` is the cursor after it (`solid_of_next`, `next_of_solid`).
-/

namespace Stratagem

/-! ## Marks -/

/-- Brackets, commas and the operators that are not words. -/
inductive Mark
  | opening
  | closing
  | comma
  | bang
  | bars
  | ampersands
  | compare (op : CompareOp)
  | binary (op : BinaryOp)
  | implies
  | iff
  | xor
  | nand
  | nor
  deriving DecidableEq, Repr

namespace Mark

/-- A mark as it is written. -/
def chars : Mark → List Char
  | opening => ['(']
  | closing => [')']
  | comma => [',']
  | bang => ['!']
  | bars => ['|', '|']
  | ampersands => ['&', '&']
  | compare .lt => ['<']
  | compare .le => ['<', '=']
  | compare .gt => ['>']
  | compare .ge => ['>', '=']
  | compare .eq => ['=', '=']
  | compare .ne => ['!', '=']
  | binary .add => ['+']
  | binary .sub => ['-']
  | binary .mul => ['*']
  | binary .div => ['/']
  | binary .rem => ['%']
  | binary .pow => ['*', '*']
  | implies => ['→']
  | iff => ['↔']
  | xor => ['⊕']
  | nand => ['↑']
  | nor => ['↓']

/-- The longest mark at the start of a text. -/
def first? : List Char → Option Mark
  | '<' :: '=' :: _ => some (.compare .le)
  | '>' :: '=' :: _ => some (.compare .ge)
  | '=' :: '=' :: _ => some (.compare .eq)
  | '!' :: '=' :: _ => some (.compare .ne)
  | '*' :: '*' :: _ => some (.binary .pow)
  | '|' :: '|' :: _ => some .bars
  | '&' :: '&' :: _ => some .ampersands
  | '<' :: _ => some (.compare .lt)
  | '>' :: _ => some (.compare .gt)
  | '!' :: _ => some .bang
  | '+' :: _ => some (.binary .add)
  | '-' :: _ => some (.binary .sub)
  | '*' :: _ => some (.binary .mul)
  | '/' :: _ => some (.binary .div)
  | '%' :: _ => some (.binary .rem)
  | '(' :: _ => some .opening
  | ')' :: _ => some .closing
  | ',' :: _ => some .comma
  | '→' :: _ => some .implies
  | '↔' :: _ => some .iff
  | '⊕' :: _ => some .xor
  | '↑' :: _ => some .nand
  | '↓' :: _ => some .nor
  | _ => none

theorem eq_append_of_first? {cs : List Char} {m : Mark} (h : first? cs = some m) :
    ∃ rest, cs = m.chars ++ rest := by
  unfold first? at h
  split at h <;> cases h <;> exact ⟨_, rfl⟩

end Mark

/-! ## Tokens -/

/-- The characters of a number at the start of a text; `none` if there is an `e` without digits. -/
def Literal.numeral? (cs : List Char) : Option (List Char) :=
  (exponent? (cs.drop (mantissa cs).length)).map (mantissa cs ++ ·)

/-- A token of the text of an expression. -/
inductive Token
  | blank (c : Char)
  | word (name : String)
  | number (text : String)
  | quoted (quote : Char) (content : String)
  | mark (m : Mark)
  | stray (c : Char)
  deriving DecidableEq, Repr

namespace Token

/-- A token as it is written. -/
def spelling : Token → List Char
  | blank c => [c]
  | word name => name.toList
  | number text => text.toList
  | quoted quote content => quote :: (content.toList ++ [quote])
  | mark m => m.chars
  | stray c => [c]

/-- The token at the start of a text, which is given as its first character and the others. -/
def first (c : Char) (r : List Char) : Token :=
  if Text.isBlank c then blank c
  else if isNameStart c then word (String.ofList ((c :: r).takeWhile isNameChar))
  else if c.isDigit ∨ c = '.' ∧ r.head?.any Char.isDigit then
    match Literal.numeral? (c :: r) with
    | some numeral => number (String.ofList numeral)
    | none => stray c
  else if c = '"' ∨ c = '\'' then
    if c ∈ r then quoted c (String.ofList (r.takeWhile (· != c))) else stray c
  else
    match Mark.first? (c :: r) with
    | some m => mark m
    | none => stray c

/-- The tokens of a text, at most `budget` of them. -/
def scanLoop : (budget : Nat) → List Char → List Token
  | 0, _ => []
  | _ + 1, [] => []
  | budget + 1, c :: r => first c r :: scanLoop budget ((c :: r).drop (first c r).spelling.length)

/-- The tokens of a text. -/
def scan (cs : List Char) : List Token := scanLoop cs.length cs

/-- Whether a token is a blank. -/
def isBlank : Token → Bool
  | blank _ => true
  | _ => false

/-- The tokens of a text without the blanks. -/
def solid (cs : List Char) : List Token := (scan cs).filter fun t => !t.isBlank

end Token

/-! ## The text of the first token -/

theorem drop_takeWhile (p : Char → Bool) (cs : List Char) :
    cs.drop (cs.takeWhile p).length = cs.dropWhile p :=
  calc
    cs.drop (cs.takeWhile p).length
      = (cs.takeWhile p ++ cs.dropWhile p).drop (cs.takeWhile p).length := by
        rw [List.takeWhile_append_dropWhile]
    _ = cs.dropWhile p := List.drop_left

theorem prefix_append_drop {cs xs ys : List Char} (hx : xs <+: cs)
    (hy : ys <+: cs.drop xs.length) : xs ++ ys <+: cs := by
  obtain ⟨rest, rfl⟩ := hx
  rw [List.drop_left] at hy
  exact (List.prefix_append_right_inj xs).2 hy

/-- After the characters in front of its first occurrence comes the character itself. -/
theorem drop_takeWhile_ne {c : Char} {r : List Char} (h : c ∈ r) :
    ∃ rest, r.drop (r.takeWhile (· != c)).length = c :: rest := by
  induction r with
  | nil => cases h
  | cons d r ih =>
    by_cases same : d = c
    · subst same
      exact ⟨r, by simp⟩
    · obtain ⟨rest, hrest⟩ := ih ((List.mem_cons.1 h).resolve_left (Ne.symm same))
      refine ⟨rest, ?_⟩
      rw [List.takeWhile_cons_of_pos (by simpa using same)]
      exact hrest

theorem mem_of_drop_takeWhile_ne {c : Char} {r : List Char}
    (h : r.drop (r.takeWhile (· != c)).length ≠ []) : c ∈ r := by
  induction r with
  | nil => exact absurd rfl h
  | cons d r ih =>
    by_cases same : d = c
    · exact same ▸ List.mem_cons_self
    · rw [List.takeWhile_cons_of_pos (by simpa using same)] at h
      exact List.mem_cons_of_mem d (ih h)

namespace Literal

theorem mantissa_starts (cs : List Char) : mantissa cs <+: cs := by
  have split : cs.takeWhile Char.isDigit ++ cs.dropWhile Char.isDigit = cs :=
    List.takeWhile_append_dropWhile
  unfold mantissa
  split
  · rename_i r rest
    rw [rest] at split
    dsimp only
    split
    · exact ⟨_, split⟩
    · refine ⟨r.dropWhile Char.isDigit, ?_⟩
      rw [List.append_assoc, List.cons_append, List.takeWhile_append_dropWhile, split]
  · exact ⟨_, split⟩

theorem exponent?_starts {cs text : List Char} (h : exponent? cs = some text) : text <+: cs := by
  unfold exponent? at h
  split at h
  · rename_i c r
    split at h
    · dsimp only at h
      split at h
      · cases h
      · cases h
        refine (List.prefix_cons_inj c).2 (prefix_append_drop ?_ ?_)
        · have starts : r.takeWhile (fun d => d == '+' || d == '-') <+: r :=
            List.takeWhile_prefix _
          refine List.IsPrefix.trans ?_ starts
          exact List.take_prefix 1 _
        · exact List.takeWhile_prefix _
    · cases h
      exact List.nil_prefix
  · cases h
    exact List.nil_prefix

theorem numeral?_starts {cs text : List Char} (h : numeral? cs = some text) : text <+: cs := by
  obtain ⟨exponent, read, rfl⟩ := Option.map_eq_some_iff.1 h
  exact prefix_append_drop (mantissa_starts cs) (exponent?_starts read)

/-- A number that starts with a digit, or with a point and a digit, is not empty. -/
theorem numeral?_ne_nil {c : Char} {r text : List Char} (h : numeral? (c :: r) = some text)
    (start : c.isDigit ∨ c = '.' ∧ r.head?.any Char.isDigit) : text ≠ [] := by
  obtain ⟨exponent, -, rfl⟩ := Option.map_eq_some_iff.1 h
  refine List.append_ne_nil_of_left_ne_nil ?_ _
  unfold mantissa
  rcases start with digit | ⟨rfl, digit⟩
  · rw [List.takeWhile_cons_of_pos digit]
    split
    · dsimp only
      split <;> simp
    · simp
  · obtain ⟨d, r, rfl⟩ : ∃ d more, r = d :: more := by
      cases r with
      | nil => cases digit
      | cons d r => exact ⟨d, r, rfl⟩
    have digit : d.isDigit = true := digit
    have point : ('.' :: d :: r).dropWhile Char.isDigit = '.' :: d :: r := rfl
    rw [point]
    simp [List.takeWhile_cons_of_pos digit]

end Literal

theorem isNameChar_of_isNameStart {c : Char} (h : isNameStart c = true) : isNameChar c = true := by
  simp only [isNameStart, isNameChar, Char.isAlphanum, Bool.or_eq_true] at h ⊢
  exact h.imp_left .inl

theorem Mark.chars_ne_nil (m : Mark) : m.chars ≠ [] := by
  rcases m with _ | _ | _ | _ | _ | _ | op | op | _ | _ | _ | _ | _ <;>
    first | exact List.cons_ne_nil _ _ | (cases op <;> exact List.cons_ne_nil _ _)

namespace Token

/-- The first token is at the start of the text, and it is not empty. -/
theorem first_spelling (c : Char) (r : List Char) :
    (first c r).spelling <+: c :: r ∧ (first c r).spelling ≠ [] := by
  have single : [c] <+: c :: r ∧ [c] ≠ [] := ⟨⟨r, rfl⟩, List.cons_ne_nil c []⟩
  unfold first
  split
  · exact single
  · split
    · rename_i start
      simp only [spelling, String.toList_ofList]
      refine ⟨List.takeWhile_prefix _, ?_⟩
      rw [List.takeWhile_cons_of_pos (isNameChar_of_isNameStart start)]
      exact List.cons_ne_nil _ _
    · split
      · rename_i start
        split
        · rename_i numeral read
          simp only [spelling, String.toList_ofList]
          exact ⟨Literal.numeral?_starts read, Literal.numeral?_ne_nil read start⟩
        · exact single
      · split
        · split
          · rename_i closed
            simp only [spelling, String.toList_ofList]
            refine ⟨(List.prefix_cons_inj c).2 ?_, List.cons_ne_nil _ _⟩
            obtain ⟨rest, hrest⟩ := drop_takeWhile_ne closed
            have starts : r.takeWhile (· != c) <+: r := List.takeWhile_prefix _
            exact prefix_append_drop starts ⟨rest, hrest.symm⟩
          · exact single
        · split
          · rename_i m read
            obtain ⟨rest, same⟩ := Mark.eq_append_of_first? read
            exact ⟨⟨rest, same.symm⟩, m.chars_ne_nil⟩
          · exact single

/-! ## Scanning -/

/-- The rest of a text after its first token is shorter. -/
theorem length_drop_first (c : Char) (r : List Char) :
    ((c :: r).drop (first c r).spelling.length).length ≤ r.length := by
  have pos := List.length_pos_iff.2 (first_spelling c r).2
  rw [List.length_drop, List.length_cons]
  omega

/-- Induction on a text, token by token. -/
theorem scan_induction {P : List Char → Prop} (nil : P [])
    (cons : ∀ c r, P ((c :: r).drop (first c r).spelling.length) → P (c :: r)) (cs : List Char) :
    P cs := by
  suffices h : ∀ n, ∀ cs : List Char, cs.length ≤ n → P cs from h cs.length cs (Nat.le_refl _)
  intro n
  induction n with
  | zero =>
    intro cs hcs
    rw [List.eq_nil_of_length_eq_zero (Nat.le_zero.1 hcs)]
    exact nil
  | succ n ih =>
    intro cs hcs
    cases cs with
    | nil => exact nil
    | cons c r =>
      exact cons c r (ih _ (Nat.le_trans (length_drop_first c r) (Nat.le_of_succ_le_succ hcs)))

theorem scanLoop_congr {m n : Nat} {cs : List Char} (hm : cs.length ≤ m) (hn : cs.length ≤ n) :
    scanLoop m cs = scanLoop n cs := by
  induction m generalizing n cs with
  | zero =>
    rw [List.eq_nil_of_length_eq_zero (Nat.le_zero.1 hm)]
    cases n <;> rfl
  | succ m ih =>
    cases cs with
    | nil => cases n <;> rfl
    | cons c r =>
      obtain ⟨n, rfl⟩ := Nat.exists_eq_add_one_of_ne_zero (Nat.ne_zero_of_lt hn)
      have shorter := length_drop_first c r
      exact congrArg _ (ih (Nat.le_trans shorter (Nat.le_of_succ_le_succ hm))
        (Nat.le_trans shorter (Nat.le_of_succ_le_succ hn)))

theorem scan_cons (c : Char) (r : List Char) :
    scan (c :: r) = first c r :: scan ((c :: r).drop (first c r).spelling.length) :=
  congrArg _ (scanLoop_congr (length_drop_first c r) (Nat.le_refl _))

/-- A text is its tokens, one after the other. -/
theorem spelling_scan (cs : List Char) : (scan cs).flatMap spelling = cs := by
  induction cs using scan_induction with
  | nil => rfl
  | cons c r ih =>
    rw [scan_cons, List.flatMap_cons, ih]
    exact List.prefix_iff_eq_append.1 (first_spelling c r).1

theorem isBlank_first (c : Char) (r : List Char) : (first c r).isBlank = Text.isBlank c := by
  unfold first
  cases Text.isBlank c with
  | true => rfl
  | false =>
    simp only [Bool.false_eq_true, if_false]
    repeat' split
    all_goals rfl

theorem solid_cons_of_blank {c : Char} (h : Text.isBlank c = true) (r : List Char) :
    solid (c :: r) = solid r := by
  have blank : first c r = blank c := if_pos h
  rw [solid, scan_cons, blank]
  rfl

theorem solid_cons {c : Char} (h : Text.isBlank c = false) (r : List Char) :
    solid (c :: r) = first c r :: solid ((c :: r).drop (first c r).spelling.length) := by
  rw [solid, scan_cons, List.filter_cons_of_pos]
  · rfl
  · rw [isBlank_first, h]
    rfl

theorem solid_skipBlanks (cs : List Char) : solid (cs.dropWhile Text.isBlank) = solid cs := by
  induction cs with
  | nil => rfl
  | cons c cs ih =>
    cases h : Text.isBlank c with
    | true => rw [List.dropWhile_cons_of_pos h, ih, solid_cons_of_blank h]
    | false => rw [List.dropWhile_cons_of_neg (by simp [h])]

theorem length_solid_le (cs : List Char) : (solid cs).length ≤ cs.length := by
  refine Nat.le_trans (List.length_filter_le _ _) ?_
  induction cs using scan_induction with
  | nil => exact Nat.le_refl 0
  | cons c r ih =>
    rw [scan_cons, List.length_cons]
    exact Nat.succ_le_succ (Nat.le_trans ih (length_drop_first c r))

end Token

/-! ## Kinds of tokens -/

theorem toNat_of_isNameStart {c : Char} (h : isNameStart c = true) :
    65 ≤ c.toNat ∧ c.toNat ≤ 122 := by
  have value : c.toNat = c.val.toNat := rfl
  have alpha : c.isAlpha = (decide (c.val ≥ 65 ∧ c.val ≤ 90) ||
      (decide (c.val ≥ 97) && decide (c.val ≤ 122))) := rfl
  simp only [isNameStart, alpha, Bool.or_eq_true, Bool.and_eq_true, decide_eq_true_eq,
    beq_iff_eq, UInt32.le_iff_toNat_le, ge_iff_le] at h
  rcases h with (⟨low, high⟩ | ⟨low, high⟩) | rfl
  · change 65 ≤ c.val.toNat at low
    change c.val.toNat ≤ 90 at high
    omega
  · change 97 ≤ c.val.toNat at low
    change c.val.toNat ≤ 122 at high
    omega
  · decide

theorem toNat_of_isDigit {c : Char} (h : c.isDigit = true) : 48 ≤ c.toNat ∧ c.toNat ≤ 57 := by
  simpa [Char.isDigit, UInt32.le_iff_toNat_le] using h

/-- Characters between the space and the end of the basic ones are not blank. -/
theorem isBlank_of_toNat {c : Char} (low : 33 ≤ c.toNat) (high : c.toNat ≤ 126) :
    Text.isBlank c = false := by
  simp only [Text.isBlank, Bool.or_eq_false_iff, Bool.and_eq_false_iff, decide_eq_false_iff_not,
    beq_eq_false_iff_ne]
  omega

theorem isBlank_of_isNameStart {c : Char} (h : isNameStart c = true) : Text.isBlank c = false := by
  have := toNat_of_isNameStart h
  exact isBlank_of_toNat (by omega) (by omega)

theorem isNameStart_of_isDigit {c : Char} (h : c.isDigit = true) : isNameStart c = false := by
  have digit := toNat_of_isDigit h
  refine Bool.eq_false_iff.2 fun start => ?_
  have := toNat_of_isNameStart start
  omega

/-- A mark starts with a character that starts nothing else. -/
theorem Mark.plain_of_first? {x : Char} {r : List Char} {m : Mark} (h : first? (x :: r) = some m) :
    Text.isBlank x = false ∧ isNameStart x = false ∧ x.isDigit = false ∧ x ≠ '.' ∧ x ≠ '"' ∧
      x ≠ '\'' := by
  unfold first? at h
  split at h <;> rename_i same <;> cases h <;> cases same <;> decide

namespace Token

/-- What the first token can be. -/
inductive First (x : Char) (r : List Char) : Token → Prop
  | blank (blank : Text.isBlank x = true) : First x r (.blank x)
  | word (start : isNameStart x = true) :
      First x r (.word (String.ofList ((x :: r).takeWhile isNameChar)))
  | number {numeral : List Char} (start : x.isDigit ∨ x = '.' ∧ r.head?.any Char.isDigit)
      (read : Literal.numeral? (x :: r) = some numeral) :
      First x r (.number (String.ofList numeral))
  | quoted (quote : x = '"' ∨ x = '\'') (closed : x ∈ r) :
      First x r (.quoted x (String.ofList (r.takeWhile (· != x))))
  | mark {m : Mark} (read : Mark.first? (x :: r) = some m) : First x r (.mark m)
  | stray : First x r (.stray x)

variable {x : Char} {r : List Char}

theorem first_kind (x : Char) (r : List Char) : First x r (first x r) := by
  unfold first
  split
  · exact .blank ‹_›
  · split
    · exact .word ‹_›
    · split
      · split
        · exact .number ‹_› ‹_›
        · exact .stray
      · split
        · split
          · exact .quoted ‹_› ‹_›
          · exact .stray
        · split
          · exact .mark ‹_›
          · exact .stray

theorem first_of_isNameStart (h : isNameStart x = true) :
    first x r = .word (String.ofList ((x :: r).takeWhile isNameChar)) := by
  unfold first
  rw [if_neg (by simp [isBlank_of_isNameStart h]), if_pos h]

theorem first_of_mark {m : Mark} (h : Mark.first? (x :: r) = some m) : first x r = .mark m := by
  obtain ⟨blank, name, digit, point, double, single⟩ := Mark.plain_of_first? h
  simp [first, blank, name, digit, point, double, single, h]

theorem first_of_quote (quote : x = '"' ∨ x = '\'') (closed : x ∈ r) :
    first x r = .quoted x (String.ofList (r.takeWhile (· != x))) := by
  unfold first
  rcases quote with rfl | rfl <;> simp [closed, Text.isBlank, isNameStart]

/-- No number starts with a blank. -/
theorem isBlank_of_numeral (start : x.isDigit ∨ x = '.' ∧ r.head?.any Char.isDigit) :
    Text.isBlank x = false := by
  rcases start with digit | ⟨rfl, -⟩
  · have := toNat_of_isDigit digit
    exact isBlank_of_toNat (by omega) (by omega)
  · rfl

theorem first_of_numeral {numeral : List Char}
    (start : x.isDigit ∨ x = '.' ∧ r.head?.any Char.isDigit)
    (read : Literal.numeral? (x :: r) = some numeral) :
    first x r = .number (String.ofList numeral) := by
  have name : isNameStart x = false := by
    rcases start with digit | ⟨rfl, -⟩
    · exact isNameStart_of_isDigit digit
    · rfl
  unfold first
  rw [if_neg (by simp [isBlank_of_numeral start]), if_neg (by simp [name]), if_pos start, read]

end Token

/-! ## Cursors -/

namespace Cursor

/-- The next token is `t`. -/
def Next (c : Cursor) (t : Token) : Prop :=
  ∃ x r, c.skipBlanks.rest = x :: r ∧ Token.first x r = t

/-- The cursor after a token. -/
def pass (c : Cursor) (t : Token) : Cursor := c.skipBlanks.after t.spelling

@[simp] theorem skipBlanks_depth (c : Cursor) : c.skipBlanks.depth = c.depth := rfl

@[simp] theorem pass_depth (c : Cursor) (t : Token) : (c.pass t).depth = c.depth := rfl

@[simp] theorem skip_rest (c : Cursor) (n : Nat) : (c.skip n).rest = c.rest.drop n := by
  rw [skip, after, List.length_take]
  rcases Nat.le_total n c.rest.length with h | h
  · rw [Nat.min_eq_left h]
  · rw [Nat.min_eq_right h, List.drop_length, List.drop_eq_nil_of_le h]

theorem skipBlanks_rest (c : Cursor) : c.skipBlanks.rest = c.rest.dropWhile Text.isBlank :=
  drop_takeWhile _ _

/-- No blank comes after the blanks. -/
theorem isBlank_of_skipBlanks {c : Cursor} {x : Char} {r : List Char}
    (h : c.skipBlanks.rest = x :: r) : Text.isBlank x = false := by
  rw [skipBlanks_rest] at h
  have head := List.head?_dropWhile_not Text.isBlank c.rest
  rw [h] at head
  simpa using head

/-- After the blanks there are no more of them. -/
theorem skipBlanks_skipBlanks (c : Cursor) : c.skipBlanks.skipBlanks = c.skipBlanks := by
  have none : c.skipBlanks.rest.takeWhile Text.isBlank = [] := by
    cases h : c.skipBlanks.rest with
    | nil => rfl
    | cons x r => exact List.takeWhile_cons_of_neg (by simp [isBlank_of_skipBlanks h])
  rw [skipBlanks, none]
  rfl

theorem next_skipBlanks {c : Cursor} {t : Token} : c.skipBlanks.Next t ↔ c.Next t := by
  rw [Next, skipBlanks_skipBlanks]
  rfl

theorem pass_skipBlanks (c : Cursor) (t : Token) : c.skipBlanks.pass t = c.pass t := by
  rw [pass, skipBlanks_skipBlanks]
  rfl

@[simp] theorem solid_skipBlanks (c : Cursor) :
    Token.solid c.skipBlanks.rest = Token.solid c.rest := by
  rw [skipBlanks_rest, Token.solid_skipBlanks]

variable {c : Cursor} {t : Token} {ts : List Token}

/-- The next token is the first one that is not blank. -/
theorem solid_of_next (h : c.Next t) : Token.solid c.rest = t :: Token.solid (c.pass t).rest := by
  obtain ⟨x, r, hrest, rfl⟩ := h
  rw [← solid_skipBlanks, hrest, Token.solid_cons (isBlank_of_skipBlanks hrest), pass, after, hrest]

theorem next_of_solid (h : Token.solid c.rest = t :: ts) :
    c.Next t ∧ Token.solid (c.pass t).rest = ts := by
  have next : c.Next t := by
    cases hrest : c.skipBlanks.rest with
    | nil =>
      rw [← solid_skipBlanks, hrest] at h
      cases h
    | cons x r =>
      rw [← solid_skipBlanks, hrest, Token.solid_cons (isBlank_of_skipBlanks hrest)] at h
      cases h
      exact ⟨x, r, hrest, rfl⟩
  rw [solid_of_next next] at h
  cases h
  exact ⟨next, rfl⟩

theorem solid_eq_nil (h : Token.solid c.rest = []) : c.skipBlanks.rest = [] := by
  cases hrest : c.skipBlanks.rest with
  | nil => rfl
  | cons x r =>
    rw [← solid_skipBlanks, hrest, Token.solid_cons (isBlank_of_skipBlanks hrest)] at h
    cases h

end Cursor

end Stratagem
