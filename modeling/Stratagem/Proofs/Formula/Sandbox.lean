import Mathlib.Data.List.Chain
import Stratagem.Proofs.Formula.Completeness
import Stratagem.Proofs.Formula.WellFormed

/-!
# What gets into an expression

Expressions come from plans that anyone may have written. A text that is read as an expression holds
nothing but what the language has (`Sandboxed`): outside its quoted texts there are no other
characters, no member access, no assignment, and no call of anything but the built-in functions.
What is read is well formed, and so it never fails for a number of arguments (`parse_sandboxed`).

Characters are told from the tokens they belong to (`Token.harmless_of_occurs`), and what stands
next to what from the rules of the language (`tidy_of_derives`).
-/

namespace Stratagem

open Token

/-! ## Characters -/

/-- The characters of an expression outside its quoted texts. -/
def isAllowed (c : Char) : Bool :=
  isNameChar c || Text.isBlank c || "+-*/%<>=!&|(),.→↔⊕↑↓".toList.contains c

/-- Every point is directly followed by a digit. -/
def Pointed : List Char → Prop
  | [] => True
  | c :: r => (c = '.' → r.head?.any Char.isDigit = true) ∧ Pointed r

/-- The words in front of an opening parenthesis. -/
def callable : List String := Builtin.all.map Builtin.name ++ ["and", "or", "not"]

/-- What the characters of a token are, if it is no quoted text. -/
structure Token.Harmless (t : Token) : Prop where
  known : ∀ c, t ≠ stray c
  allowed : ∀ c ∈ t.spelling, isAllowed c = true
  points : Pointed t.spelling
  equals : '=' ∈ t.spelling →
    t ∈ [mark (.compare .le), mark (.compare .ge), mark (.compare .eq), mark (.compare .ne)]
  parenthesis : '(' ∈ t.spelling → t = mark .opening

/-- If the second token opens a parenthesis after a word, the word is one that can be called, or an
operator. -/
def Token.MayPrecede (t u : Token) : Prop :=
  ∀ name, t = word name → u = mark .opening → name ∈ callable

/-- A text that holds nothing but what the language has. -/
structure Sandboxed (source : String) : Prop where
  short : source.utf8ByteSize ≤ 4096
  /-- No character is left out by looking at tokens. -/
  whole : (Token.scan source.toList).flatMap spelling = source.toList
  tokens : ∀ t ∈ Token.scan source.toList, t.Harmless ∨ ∃ quote content, t = .quoted quote content ∧
    (quote = '"' ∨ quote = '\'') ∧ quote ∉ content.toList
  calls : (solid source.toList).IsChain MayPrecede

section

variable {xs ys : List Char}

theorem pointed_of_not_mem (h : '.' ∉ xs) : Pointed xs := by
  induction xs with
  | nil => trivial
  | cons c r ih =>
    obtain ⟨here, later⟩ := not_or.1 (List.mem_cons.not.1 h)
    exact ⟨fun same => absurd same.symm here, ih later⟩

theorem Pointed.append (hx : '.' ∉ xs) (hy : Pointed ys) : Pointed (xs ++ ys) := by
  induction xs with
  | nil => exact hy
  | cons c r ih =>
    obtain ⟨here, later⟩ := not_or.1 (List.mem_cons.not.1 hx)
    exact ⟨fun same => absurd same.symm here, ih later⟩

end

/-! ## Numbers -/

namespace Literal

/-- A character of a number, apart from the point. -/
def isPlain (c : Char) : Bool := c.isDigit || c == 'e' || c == 'E' || c == '+' || c == '-'

theorem isPlain_of_mem_takeWhile {c : Char} {cs : List Char}
    (h : c ∈ cs.takeWhile Char.isDigit) : isPlain c = true := by
  have digit := List.all_eq_true.1 (@List.all_takeWhile _ Char.isDigit cs) c h
  simp [isPlain, digit]

theorem not_mem_of_isPlain {cs : List Char} (h : ∀ c ∈ cs, isPlain c = true) : '.' ∉ cs :=
  fun mem => nomatch h _ mem

/-- Digits, and perhaps a point and more digits. -/
theorem mantissa_eq (cs : List Char) : ∃ whole fraction, mantissa cs = whole ++ fraction ∧
    (∀ c ∈ whole, isPlain c = true) ∧ (fraction = [] ∨ ∃ d ds, fraction = '.' :: d :: ds ∧
      d.isDigit = true ∧ ∀ c ∈ d :: ds, isPlain c = true) := by
  refine ⟨cs.takeWhile Char.isDigit, ?_⟩
  unfold mantissa
  split
  · rename_i r _
    dsimp only
    split
    · exact ⟨[], (List.append_nil _).symm, fun c => isPlain_of_mem_takeWhile, .inl rfl⟩
    · rename_i some
      obtain ⟨d, ds, hds⟩ := List.exists_cons_of_ne_nil (mt List.isEmpty_iff.2 some)
      refine ⟨_, rfl, fun c => isPlain_of_mem_takeWhile, .inr ⟨d, ds, by rw [hds], ?_, ?_⟩⟩
      · exact List.all_eq_true.1 (@List.all_takeWhile _ Char.isDigit r) d
          (hds ▸ List.mem_cons_self)
      · exact fun c hc => isPlain_of_mem_takeWhile (hds ▸ hc)
  · exact ⟨[], (List.append_nil _).symm, fun c => isPlain_of_mem_takeWhile, .inl rfl⟩

theorem isPlain_of_exponent? {cs text : List Char} (h : exponent? cs = some text) :
    ∀ c ∈ text, isPlain c = true := by
  unfold exponent? at h
  split at h
  · rename_i x r
    split at h
    · rename_i sign
      dsimp only at h
      split at h
      · cases h
      · cases h
        intro c hc
        rcases List.mem_cons.1 hc with rfl | hc
        · rcases sign with rfl | rfl <;> rfl
        · rcases List.mem_append.1 hc with hc | hc
          · have := List.all_eq_true.1
              (@List.all_takeWhile _ (fun d => d == '+' || d == '-') r) c (List.mem_of_mem_take hc)
            simp only [Bool.or_eq_true] at this
            simp only [isPlain, Bool.or_eq_true]
            rcases this with plus | minus
            · exact .inl (.inr plus)
            · exact .inr minus
          · exact isPlain_of_mem_takeWhile hc
    · cases h
      exact nofun
  · cases h
    exact nofun

/-- The points of a number are followed by digits, and there are no other signs in it. -/
theorem numeral?_pointed {cs text : List Char} (h : numeral? cs = some text) :
    Pointed text ∧ ∀ c ∈ text, c = '.' ∨ isPlain c = true := by
  obtain ⟨exponent, hexponent, rfl⟩ := Option.map_eq_some_iff.1 h
  have plain := isPlain_of_exponent? hexponent
  obtain ⟨whole, fraction, same, digits, kind⟩ := mantissa_eq cs
  rw [same, List.append_assoc]
  rcases kind with rfl | ⟨d, ds, rfl, digit, more⟩
  · refine ⟨(pointed_of_not_mem (not_mem_of_isPlain plain)).append (not_mem_of_isPlain digits), ?_⟩
    intro c hc
    exact .inr ((List.mem_append.1 hc).elim (digits c) (plain c))
  · have rest : ∀ c ∈ d :: ds ++ exponent, isPlain c = true := fun c hc =>
      (List.mem_append.1 hc).elim (more c) (plain c)
    refine ⟨.append (not_mem_of_isPlain digits) ⟨fun _ => digit, ?_⟩, ?_⟩
    · exact pointed_of_not_mem (not_mem_of_isPlain rest)
    · intro c hc
      rcases List.mem_append.1 hc with hc | hc
      · exact .inr (digits c hc)
      · exact (List.mem_cons.1 hc).imp_right (rest c)

end Literal

/-! ## Tokens -/

namespace Token

/-- A token of characters that are in names or blank. -/
theorem harmless_of_plain {t : Token} (known : ∀ c, t ≠ stray c)
    (h : ∀ c ∈ t.spelling, (isNameChar c || Text.isBlank c) = true) : t.Harmless where
  known := known
  allowed c hc := by
    rw [isAllowed, h c hc]
    rfl
  points := pointed_of_not_mem fun mem => nomatch h _ mem
  equals mem := nomatch h _ mem
  parenthesis mem := nomatch h _ mem

theorem harmless_number {cs text : List Char} (h : Literal.numeral? cs = some text) :
    (number (String.ofList text)).Harmless := by
  obtain ⟨points, chars⟩ := Literal.numeral?_pointed h
  refine ⟨nofun, ?_, ?_, ?_, ?_⟩
  · intro c hc
    rw [spelling, String.toList_ofList] at hc
    rcases chars c hc with rfl | plain
    · rfl
    · simp only [Literal.isPlain, Bool.or_eq_true, beq_iff_eq] at plain
      rcases plain with (((digit | rfl) | rfl) | rfl) | rfl
      · simp [isAllowed, isNameChar, Char.isAlphanum, digit]
      all_goals rfl
  · rwa [spelling, String.toList_ofList]
  · intro mem
    rw [spelling, String.toList_ofList] at mem
    rcases chars _ mem with point | plain
    · cases point
    · cases plain
  · intro mem
    rw [spelling, String.toList_ofList] at mem
    rcases chars _ mem with point | plain
    · cases point
    · cases plain

theorem harmless_mark (m : Mark) : (mark m).Harmless := by
  have chars : m.chars.all isAllowed = true ∧ '.' ∉ m.chars ∧
      ('=' ∈ m.chars → m ∈ [.compare .le, .compare .ge, .compare .eq, .compare .ne]) ∧
      ('(' ∈ m.chars → m = .opening) := by
    rcases m with _ | _ | _ | _ | _ | _ | op | op | _ | _ | _ | _ | _
    case compare | binary => cases op <;> decide
    all_goals decide
  obtain ⟨allowed, point, equals, parenthesis⟩ := chars
  exact ⟨nofun, List.all_eq_true.1 allowed, pointed_of_not_mem point,
    fun mem => List.mem_map_of_mem (equals mem), fun mem => congrArg mark (parenthesis mem)⟩

/-- A token is harmless unless it is stray or a quoted text. -/
theorem harmless_of_occurs {t : Token} (h : t.Occurs) (known : ∀ c, t ≠ stray c)
    (bare : ∀ quote content, t ≠ quoted quote content) : t.Harmless := by
  obtain ⟨x, r, hfirst⟩ := h
  have kind := first_kind x r
  rw [hfirst] at kind
  cases kind with
  | blank blank =>
    refine harmless_of_plain known fun c hc => ?_
    rw [List.mem_singleton.1 hc, blank, Bool.or_true]
  | word =>
    refine harmless_of_plain known fun c hc => ?_
    rw [spelling, String.toList_ofList] at hc
    rw [List.all_eq_true.1 List.all_takeWhile c hc, Bool.true_or]
  | number _ read => exact harmless_number read
  | quoted => exact absurd rfl (bare _ _)
  | mark => exact harmless_mark _
  | stray => exact absurd rfl (known _)

end Token

/-! ## What stands next to what -/

/-- Tokens as they are in the language. -/
structure Tidy (ts : List Token) : Prop where
  known : ∀ c, .stray c ∉ ts
  calls : ts.IsChain MayPrecede

namespace Tidy

variable {t : Token} {ts us : List Token}

theorem nil : Tidy [] := ⟨nofun, .nil⟩

theorem append (left : Tidy ts) (right : Tidy us) (joint : us.head? ≠ some (.mark .opening)) :
    Tidy (ts ++ us) where
  known c mem := (List.mem_append.1 mem).elim (left.known c) (right.known c)
  calls := by
    refine List.isChain_append.2 ⟨left.calls, right.calls, ?_⟩
    rintro t - u hu name - rfl
    exact absurd hu joint

theorem cons (known : ∀ c, t ≠ .stray c) (calls : ∀ name, t = .word name → name ∈ callable)
    (more : Tidy ts) : Tidy (t :: ts) where
  known c mem := (List.mem_cons.1 mem).elim (fun same => known c same.symm) (more.known c)
  calls := by
    refine List.isChain_cons.2 ⟨?_, more.calls⟩
    rintro u - name rfl -
    exact calls name rfl

theorem mark (m : Mark) (more : Tidy ts) : Tidy (.mark m :: ts) := more.cons nofun nofun

theorem single (known : ∀ c, t ≠ .stray c) : Tidy [t] where
  known c mem := known c (List.mem_singleton.1 mem).symm
  calls := .singleton t

end Tidy

/-- An operator that is a word can stand in front of a parenthesis. -/
theorem callable_of_operator? {t : Token} {L : Level} {combine : Expr → Expr → Expr}
    (h : t.operator? = some (L, combine)) :
    (∀ c, t ≠ .stray c) ∧ t ≠ .mark .opening ∧ ∀ name, t = .word name → name ∈ callable := by
  unfold Token.operator? at h
  repeat' split at h
  all_goals cases h
  all_goals refine ⟨nofun, nofun, ?_⟩
  all_goals
    rintro name ⟨⟩
    try subst_vars
    try decide

theorem Builtin.name_callable (f : Builtin) : f.name ∈ callable := by cases f <;> decide

/-- Tokens that stand for something are tidy. -/
theorem tidy_of_derives {n : Nat} {p : Phrase} {ts : List Token} (h : Derives n p ts) :
    Tidy ts := by
  induction h with
  | number | true | false | text | var => exact .single nofun
  | parentheses _ inside =>
    exact (inside.append (.mark .closing .nil) (by decide)).mark .opening
  | call _ _ inside =>
    refine (inside.mark .opening).cons nofun ?_
    rintro _ ⟨⟩
    exact Builtin.name_callable _
  | power _ _ left right => exact left.append (right.mark (.binary .pow)) (by simp)
  | minus _ inside => exact inside.mark (.binary .sub)
  | plus _ inside => exact inside.mark (.binary .add)
  | compare _ derives _ left right =>
    refine left.append right ?_
    rcases derives.begins with rfl | ⟨op, more, rfl⟩ <;> simp
  | not sign _ inside =>
    rcases sign with rfl | rfl
    · refine inside.cons nofun ?_
      rintro _ ⟨⟩
      decide
    · exact inside.mark .bang
  | chain operator _ _ left right =>
    obtain ⟨known, other, calls⟩ := callable_of_operator? operator
    exact left.append (right.cons known calls) (by simpa using other)
  | tighter _ inside => exact inside
  | noPairs => exact .nil
  | pair _ derives operand more =>
    refine (operand.append more ?_).mark _
    rcases derives.begins with rfl | ⟨op, more, rfl⟩ <;> simp
  | lastArgument _ inside => exact inside.append (.mark .closing .nil) (by decide)
  | argument _ _ inside more => exact inside.append (more.mark .comma) (by simp)

/-! ## Whole texts -/

namespace Expr

variable {source : String} {e : Expr}

theorem sandboxed_of_parse (h : parse source = .ok e) : Sandboxed source := by
  obtain ⟨short, derives⟩ := Grammar.parse_eq_ok_iff.1 h
  have tidy := tidy_of_derives derives
  refine ⟨short, spelling_scan _, ?_, tidy.calls⟩
  intro t ht
  have occurs := occurs_of_mem_scan ht
  have known : ∀ c, t ≠ .stray c := by
    rintro c rfl
    exact tidy.known c (List.mem_filter.2 ⟨ht, rfl⟩)
  by_cases bare : ∃ quote content, t = .quoted quote content
  · obtain ⟨quote, content, rfl⟩ := bare
    exact .inr ⟨quote, content, rfl, avoids_of_occurs occurs⟩
  · exact .inl (harmless_of_occurs occurs known fun quote content same =>
      bare ⟨quote, content, same⟩)

/-- A text that is read holds nothing but what the language has. Its expression is well formed,
with numbers that are neither negative nor infinite, and does not fail for a number of arguments,
whatever the variables are. -/
theorem parse_sandboxed (h : parse source = .ok e) :
    Sandboxed source ∧ e.WellFormed (fun x => x.isFinite = true ∧ 0.0 ≤ x) ∧
      ∀ lookup f count, e.evaluate lookup ≠ .error (.argumentCount f count) := by
  have wellFormed : e.WellFormed fun x => x.isFinite = true ∧ 0.0 ≤ x :=
    wellFormed_of_derives (Grammar.derives_of_parse h) fun t => occurs_of_mem_solid
  refine ⟨sandboxed_of_parse h, wellFormed, fun lookup f count failed => ?_⟩
  exact wellFormed.evaluate_counted lookup _ failed f count rfl

/-- The point inside a quoted text is no member access. -/
theorem parse_sandboxed_quoted : ∃ e, parse "min(x, 2) >= .5 and not (name == 'a.b')" = .ok e ∧
    Sandboxed "min(x, 2) >= .5 and not (name == 'a.b')" ∧
      e.WellFormed (fun x => x.isFinite = true ∧ 0.0 ≤ x) ∧
        ∀ lookup f count, e.evaluate lookup ≠ .error (.argumentCount f count) :=
  ⟨_, rfl, parse_sandboxed rfl⟩

/-- The point behind it is one. -/
example : parse "'a'.b == x" = .error ⟨.memberAccess, 3⟩ := rfl

end Expr

end Stratagem
