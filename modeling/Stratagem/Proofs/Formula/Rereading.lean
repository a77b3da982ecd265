import Stratagem.Proofs.Formula.Balance
import Stratagem.Proofs.Formula.Sandbox

/-!
# Rendered expressions read again

When is the text of an expression read as the same expression? Exactly if no part of it can be
mistaken (`Expr.parse_render_iff`): no sign stands at the base of a power, no negation is an operand
of arithmetic or of a comparison, and no text has double quotes in it.

That the text has the tokens that were meant is first to be known, since a quote inside of a text
ends it. So the double quotes are counted: rendering writes two around each text, and any other way
to write a text that has one inside takes fewer (`quoted_of_derives`).
-/

namespace Stratagem

open Token

/-! ## Printed numbers -/

namespace Decimal

/-- The characters that numbers are printed with. -/
def isPrinted (c : Char) : Bool := c.isDigit || ['.', '-', 'N', 'a', 'i', 'n', 'f'].contains c

theorem isPrinted_of_isDigit {c : Char} (h : c.isDigit = true) : isPrinted c = true := by
  rw [isPrinted, h, Bool.true_or]

theorem isPrinted_positionalText {digits : List Char} (h : ∀ c ∈ digits, isPrinted c = true)
    (point : Int) : ∀ c ∈ positionalText [] digits point, isPrinted c = true := by
  have zeros : ∀ n, ∀ c ∈ List.replicate n '0', isPrinted c = true := by
    intro n c hc
    rw [List.eq_of_mem_replicate hc]
    rfl
  unfold positionalText
  split
  · refine List.forall_mem_cons.2 ⟨rfl, List.forall_mem_cons.2 ⟨rfl, ?_⟩⟩
    exact List.forall_mem_append.2 ⟨zeros _, h⟩
  · split
    · rw [List.append_nil]
      exact List.forall_mem_append.2 ⟨h, zeros _⟩
    · refine List.forall_mem_append.2 ⟨fun c hc => h c (List.mem_of_mem_take hc), ?_⟩
      exact List.forall_mem_cons.2 ⟨rfl, fun c hc => h c (List.mem_of_mem_drop hc)⟩

theorem isPrinted_plain (x : Float) : ∀ c ∈ (plain x).toList, isPrinted c = true := by
  have magnitude : ∀ significand exponent,
      ∀ c ∈ plainLayout.magnitude significand exponent, isPrinted c = true := by
    intro significand exponent
    unfold Layout.magnitude
    split
    · exact List.forall_mem_cons.2 ⟨rfl, nofun⟩
    · refine isPrinted_positionalText (fun c hc => isPrinted_of_isDigit ?_) _
      have kept := List.mem_reverse.1 ((List.dropWhile_sublist _).subset (List.mem_reverse.1 hc))
      exact Nat.isDigit_of_mem_toDigits (by decide) (by decide) kept
  unfold plain Layout.write
  split
  · exact List.all_eq_true.1 rfl
  · split <;> exact List.all_eq_true.1 rfl
  · rw [String.toList_ofList]
    split
    · exact List.forall_mem_cons.2 ⟨rfl, magnitude _ _⟩
    · exact magnitude _ _

end Decimal

namespace Token

variable {cs : List Char} {t : Token}

/-- The characters of a token stand in the text. -/
theorem mem_of_mem_scan (h : t ∈ scan cs) : ∀ c ∈ t.spelling, c ∈ cs := by
  intro c hc
  rw [← spelling_scan cs]
  exact List.mem_flatMap.2 ⟨t, h, hc⟩

/-- A text without blanks has no blank tokens. -/
theorem solid_of_no_blank (h : ∀ c ∈ cs, Text.isBlank c = false) : solid cs = scan cs := by
  refine List.filter_eq_self.2 fun t ht => ?_
  obtain ⟨x, r, hfirst⟩ := occurs_of_mem_scan ht
  have start : x ∈ t.spelling := by
    obtain ⟨more, same⟩ := (first_spelling x r).1
    obtain ⟨y, ys, spelled⟩ := List.exists_cons_of_ne_nil (first_spelling x r).2
    rw [spelled] at same
    rw [← hfirst, spelled, (List.cons.inj same).1]
    exact List.mem_cons_self
  rw [← hfirst, isBlank_first, h x (mem_of_mem_scan ht x start)]
  rfl

end Token

/-- A number whose text is read as the number is printed as a numeral. -/
theorem Style.prints_of_parse {x : Float}
    (h : Expr.parse (Decimal.plain x) = .ok (.number x)) : Style.rendered.Prints x := by
  have printed := Decimal.isPrinted_plain x
  have noBlank : ∀ c ∈ (Decimal.plain x).toList, Text.isBlank c = false := by
    intro c hc
    rcases Bool.or_eq_true_iff.1 (printed c hc) with digit | other
    · have := toNat_of_isDigit digit
      exact isBlank_of_toNat (by omega) (by omega)
    · have all : ['.', '-', 'N', 'a', 'i', 'n', 'f'].any Text.isBlank = false := by decide
      exact Bool.eq_false_iff.2 (List.any_eq_false.1 all c (List.contains_iff_mem.1 other))
  obtain ⟨-, derives⟩ := Grammar.parse_eq_ok_iff.1 h
  rw [solid_of_no_blank noBlank] at derives
  rcases derives.outermost with ⟨_, inside, same, -⟩ | single
  · have opening : Token.mark .opening ∈ Token.scan (Decimal.plain x).toList := by
      rw [same]
      exact List.mem_cons_self
    have wrong := printed '(' (mem_of_mem_scan opening '(' (List.mem_singleton_self _))
    cases wrong
  · generalize same : Token.scan (Decimal.plain x).toList = ts at single
    cases single with
    | @number text _ read finite =>
      have spelled := spelling_scan (Decimal.plain x).toList
      rw [same] at spelled
      have chars : text.toList = (Decimal.plain x).toList := by simpa [spelling] using spelled
      obtain rfl : text = Decimal.plain x := String.toList_inj.1 chars
      exact ⟨finite, same, read⟩

/-! ## Double quotes -/

namespace Token

/-- The number of double quotes that tokens are written with. -/
def quotes (ts : List Token) : Nat := (ts.flatMap spelling).count '"'

theorem quotes_cons (t : Token) (ts : List Token) :
    quotes (t :: ts) = t.spelling.count '"' + quotes ts := by
  rw [quotes, List.flatMap_cons, List.count_append]
  rfl

theorem quotes_append (ts us : List Token) : quotes (ts ++ us) = quotes ts + quotes us := by
  rw [quotes, List.flatMap_append, List.count_append]
  rfl

/-- Blanks have no quotes. -/
theorem quotes_solid (cs : List Char) : quotes (solid cs) = cs.count '"' := by
  induction cs using scan_induction with
  | nil => rfl
  | cons c r ih =>
    have whole := List.prefix_iff_eq_append.1 (first_spelling c r).1
    have counted := congrArg (List.count '"') whole
    rw [List.count_append] at counted
    cases blank : Text.isBlank c with
    | true =>
      have spelled : first c r = .blank c := if_pos blank
      have other : c ≠ '"' := by
        rintro rfl
        cases blank
      rw [solid_cons_of_blank blank, List.count_cons_of_ne other]
      rw [spelled] at ih
      exact ih
    | false => rw [solid_cons blank, quotes_cons, ih, counted]

theorem Harmless.quote_not_mem {t : Token} (h : t.Harmless) : '"' ∉ t.spelling :=
  fun mem => nomatch h.allowed _ mem

theorem quote_not_mem_mark (m : Mark) : '"' ∉ (mark m).spelling :=
  (harmless_mark m).quote_not_mem

theorem quote_not_mem_word {name : String} (h : Literal.isName name = true) :
    '"' ∉ (word name).spelling := by
  intro mem
  have chars := List.all_eq_true.1 (Bool.and_eq_true_iff.1 h).2 _ mem
  cases chars

end Token

namespace Expr

/-- The number of double quotes that the texts among some expressions are rendered with. -/
def quotes : List Expr → Nat
  | [] => 0
  | text s :: es => s.toList.count '"' + 2 + quotes es
  | _ :: es => quotes es

theorem quotes_append (es fs : List Expr) : quotes (es ++ fs) = quotes es + quotes fs := by
  induction es using quotes.induct with
  | case1 => simp [quotes]
  | case2 s es ih => simp [quotes, ih, Nat.add_assoc]
  | case3 e es other ih => simp [quotes, ih]

end Expr

/-- The tokens have no more double quotes than the texts are rendered with, and as many only if no
text has one inside. -/
structure Quoted (ts : List Token) (es : List Expr) : Prop where
  le : Token.quotes ts ≤ Expr.quotes es
  quotable : Expr.quotes es ≤ Token.quotes ts → ∀ p ∈ es, p.Quotable

namespace Quoted

variable {ts us : List Token} {es fs : List Expr} {t : Token}

theorem nil : Quoted [] [] := ⟨Nat.le_refl 0, fun _ => nofun⟩

theorem append (left : Quoted ts es) (right : Quoted us fs) : Quoted (ts ++ us) (es ++ fs) := by
  have le := left.le
  have le' := right.le
  refine ⟨?_, fun ge => ?_⟩
  · rw [Token.quotes_append, Expr.quotes_append]
    omega
  · rw [Token.quotes_append, Expr.quotes_append] at ge
    exact List.forall_mem_append.2 ⟨left.quotable (by omega), right.quotable (by omega)⟩

theorem token (h : Quoted ts es) (none : '"' ∉ t.spelling) : Quoted (t :: ts) es := by
  have same : Token.quotes (t :: ts) = Token.quotes ts := by
    rw [Token.quotes_cons, List.count_eq_zero.2 none, Nat.zero_add]
  exact ⟨same ▸ h.le, fun ge => h.quotable (same ▸ ge)⟩

theorem part {e : Expr} (h : Quoted ts es) (other : ∀ s, e ≠ .text s) : Quoted ts (e :: es) := by
  have same : Expr.quotes (e :: es) = Expr.quotes es := by
    cases e with
    | text s => exact absurd rfl (other s)
    | _ => rfl
  have plain : e.Quotable := by
    cases e with
    | text s => exact absurd rfl (other s)
    | _ => trivial
  exact ⟨same ▸ h.le, fun ge => List.forall_mem_cons.2 ⟨plain, h.quotable (same ▸ ge)⟩⟩

end Quoted

/-- The parts of the expressions of a phrase. -/
def Phrase.parts : Phrase → List Expr
  | expr _ e => e.parts
  | pairs rest => Expr.partsInPairs rest
  | arguments args => Expr.partsInAll args

namespace Token.Joins

variable {t : Token} {L : Level} {combine : Expr → Expr → Expr}

theorem parts (h : t.Joins L combine) (l r : Expr) :
    (combine l r).parts = combine l r :: (l.parts ++ r.parts) := by
  cases h with
  | binary | and | or => rfl
  | connective => simp [Expr.parts, Expr.partsInAll]

theorem ne_text (h : t.Joins L combine) (l r : Expr) (s : String) : combine l r ≠ .text s := by
  cases h <;> nofun

theorem quote_not_mem (h : t.Joins L combine) : '"' ∉ t.spelling := by
  cases h with
  | binary => exact quote_not_mem_mark _
  | and sign | or sign => rcases sign with rfl | rfl <;> decide
  | connective => exact quote_not_mem_mark _

end Token.Joins

theorem quoted_text {quote : Char} {content : String} (h : Occurs (.quoted quote content)) :
    Quoted [.quoted quote content] [.text content] := by
  have rendered : Expr.quotes [.text content] = content.toList.count '"' + 2 := rfl
  obtain ⟨rfl | rfl, avoids⟩ := avoids_of_occurs h
  · have two : Token.quotes [.quoted '"' content] = 2 := by
      simp [Token.quotes, spelling, List.count_eq_zero.2 avoids]
    refine ⟨?_, fun _ => List.forall_mem_singleton.2 avoids⟩
    rw [two, rendered]
    exact Nat.le_add_left _ _
  · have inside : Token.quotes [.quoted '\'' content] = content.toList.count '"' := by
      simp [Token.quotes, spelling]
    refine ⟨?_, fun ge => ?_⟩
    · rw [inside, rendered]
      exact Nat.le_add_right _ _
    · rw [inside, rendered] at ge
      omega

/-- However an expression is written, its texts take no more double quotes than when it is
rendered. -/
theorem quoted_of_derives {n : Nat} {p : Phrase} {ts : List Token} (h : Derives n p ts)
    (occurs : ∀ t ∈ ts, t.Occurs) : Quoted ts p.parts := by
  have closing : Quoted [.mark .closing] [] := Quoted.nil.token (quote_not_mem_mark _)
  induction h with
  | number =>
    have harmless := harmless_of_occurs (occurs _ List.mem_cons_self) nofun nofun
    exact (Quoted.nil.token harmless.quote_not_mem).part nofun
  | true | false => exact (Quoted.nil.token (by decide)).part nofun
  | text => exact quoted_text (occurs _ List.mem_cons_self)
  | var =>
    have name := isName_of_occurs (occurs _ List.mem_cons_self)
    exact (Quoted.nil.token (quote_not_mem_word name)).part nofun
  | parentheses _ inside =>
    have inside := inside fun t ht => occurs t (by simp [ht])
    have all := (inside.append closing).token (quote_not_mem_mark .opening)
    rwa [List.append_nil] at all
  | @call _ f _ _ _ _ inside =>
    have inside := inside fun t ht => occurs t (by simp [ht])
    have opened := inside.token (quote_not_mem_mark .opening)
    exact (opened.token (quote_not_mem_word f.isName_name)).part nofun
  | power _ _ left right =>
    have left := left fun t ht => occurs t (by simp [ht])
    have right := right fun t ht => occurs t (by simp [ht])
    exact (left.append (right.token (quote_not_mem_mark _))).part nofun
  | minus _ inside | plus _ inside =>
    have inside := inside fun t ht => occurs t (by simp [ht])
    exact (inside.token (quote_not_mem_mark _)).part nofun
  | compare _ _ _ left right =>
    have left := left fun t ht => occurs t (by simp [ht])
    have right := right fun t ht => occurs t (by simp [ht])
    exact (left.append right).part nofun
  | not sign _ inside =>
    have inside := inside fun t ht => occurs t (by simp [ht])
    rcases sign with rfl | rfl
    · exact (inside.token (by decide)).part nofun
    · exact (inside.token (quote_not_mem_mark _)).part nofun
  | @chain _ _ _ _ l r _ _ operator _ _ left right =>
    have joins := joins_of_operator? operator
    have left : Quoted _ l.parts := left fun t ht => occurs t (by simp [ht])
    have right : Quoted _ r.parts := right fun t ht => occurs t (by simp [ht])
    have both := (left.append (right.token joins.quote_not_mem)).part (joins.ne_text l r)
    rw [← joins.parts] at both
    exact both
  | tighter _ inside => exact inside occurs
  | noPairs => exact .nil
  | pair _ _ operand more =>
    have operand := operand fun t ht => occurs t (by simp [ht])
    have more := more fun t ht => occurs t (by simp [ht])
    exact (operand.append more).token (quote_not_mem_mark _)
  | lastArgument _ inside =>
    have inside := inside fun t ht => occurs t (by simp [ht])
    exact inside.append closing
  | argument _ _ inside more =>
    have inside := inside fun t ht => occurs t (by simp [ht])
    have more := more fun t ht => occurs t (by simp [ht])
    exact inside.append (more.token (quote_not_mem_mark _))

namespace Expr

theorem count_symbol_binary (op : BinaryOp) : op.symbol.toList.count '"' = 0 := by
  cases op <;> rfl

theorem count_symbol_compare (op : CompareOp) : op.symbol.toList.count '"' = 0 := by
  cases op <;> rfl

theorem count_renderPairs {rest : List (CompareOp × Expr)}
    (h : ∀ p ∈ rest, p.2.render.toList.count '"' = quotes p.2.parts) :
    (renderPairs rest).toList.count '"' = quotes (partsInPairs rest) := by
  induction rest with
  | nil => rfl
  | cons p rest ih =>
    obtain ⟨op, e⟩ := p
    obtain ⟨here, later⟩ := List.forall_mem_cons.1 h
    simp [renderPairs, partsInPairs, quotes_append, String.toList_append, count_symbol_compare,
      here, ih later]

theorem count_renderAll {args : List Expr}
    (h : ∀ e ∈ args, e.render.toList.count '"' = quotes e.parts) :
    ([',', ' '].intercalate ((renderAll args).map String.toList)).count '"' =
      quotes (partsInAll args) := by
  induction args with
  | nil => rfl
  | cons e args ih =>
    obtain ⟨here, later⟩ := List.forall_mem_cons.1 h
    have later := ih later
    cases args with
    | nil => simp [renderAll, partsInAll, here]
    | cons e' args =>
      simp only [renderAll, List.map_cons] at later ⊢
      have comma : [',', ' '].count '"' = 0 := rfl
      have split : partsInAll (e :: e' :: args) = e.parts ++ partsInAll (e' :: args) := rfl
      rw [List.intercalate_cons_cons, List.count_append, List.count_append, here, later, comma,
        split, quotes_append, Nat.add_zero]

/-- Double quotes are rendered around texts, and nowhere else but inside of them. -/
theorem count_render {e : Expr} (h : e.WellFormed Style.rendered.Prints) :
    e.render.toList.count '"' = quotes e.parts := by
  induction h with
  | number =>
    refine List.count_eq_zero.2 fun mem => ?_
    have wrong := Decimal.isPrinted_plain _ '"' mem
    cases wrong
  | bool b => cases b <;> rfl
  | text => simp [render, parts, quotes, String.toList_append]
  | var isName => exact List.count_eq_zero.2 (quote_not_mem_word isName)
  | unary op _ operand => cases op <;> simp [render, parts, quotes, String.toList_append, operand]
  | binary op _ _ left right =>
    simp [render, parts, quotes, quotes_append, String.toList_append, count_symbol_binary, left,
      right]
  | compare _ _ _ left right =>
    simp [render, parts, quotes, quotes_append, String.toList_append, left,
      count_renderPairs right]
  | and _ _ left right | or _ _ left right =>
    simp [render, parts, quotes, quotes_append, String.toList_append, left, right]
  | @call f args _ _ arguments =>
    have name : f.name.toList.count '"' = 0 :=
      List.count_eq_zero.2 (quote_not_mem_word f.isName_name)
    simp [render, parts, quotes, String.toList_append, name, count_renderAll arguments]

/-! ## Reading the text again -/

/-- What holds of every number in an expression may be asked of its numbers. -/
theorem wellFormed_of_numbers {P Q : Float → Prop} {e : Expr} (h : e.WellFormed P)
    (numbers : ∀ p ∈ e.parts, ∀ x, p = number x → Q x) : e.WellFormed Q := by
  induction h with
  | number => exact .number (numbers _ (List.mem_singleton_self _) _ rfl)
  | bool b => exact .bool b
  | text quotable => exact .text quotable
  | var isName free => exact .var isName free
  | unary op _ operand => exact .unary op (operand (forall_parts_unary.1 numbers).2)
  | binary op _ _ left right =>
    obtain ⟨-, inLeft, inRight⟩ := forall_parts_binary.1 numbers
    exact .binary op (left inLeft) (right inRight)
  | compare some _ _ left right =>
    obtain ⟨-, inFirst, inRest⟩ := forall_parts_compare.1 numbers
    exact .compare some (left inFirst) fun p hp => right p hp (inRest p hp)
  | and _ _ left right =>
    obtain ⟨-, inLeft, inRight⟩ := forall_parts_and.1 numbers
    exact .and (left inLeft) (right inRight)
  | or _ _ left right =>
    obtain ⟨-, inLeft, inRight⟩ := forall_parts_or.1 numbers
    exact .or (left inLeft) (right inRight)
  | call takes _ arguments =>
    obtain ⟨-, inArguments⟩ := forall_parts_call.1 numbers
    exact .call takes fun e he => arguments e he (inArguments e he)

theorem Unmistakable.quotable {e : Expr} (h : e.Unmistakable) : e.Quotable := by
  cases e with
  | text s => exact h
  | _ => trivial

/-- If the text of an expression is read as the expression, its texts have no double quotes. -/
theorem quotable_of_parse_render {e : Expr} (wellFormed : e.WellFormed Style.rendered.Prints)
    (h : parse e.render = .ok e) : ∀ p ∈ e.parts, p.Quotable := by
  obtain ⟨-, derives⟩ := Grammar.parse_eq_ok_iff.1 h
  refine (quoted_of_derives derives fun t => occurs_of_mem_solid).quotable ?_
  rw [quotes_solid]
  exact Nat.le_of_eq (count_render wellFormed).symm

/-- The text of an expression that was read is read as the same expression exactly if no part of it
can be mistaken. The text must be short enough and must not nest too deeply, and the numbers in it
must be read as they are printed. -/
theorem parse_render_iff {source : String} {e : Expr} (read : parse source = .ok e)
    (numbers : ∀ x, number x ∈ e.parts → parse (number x).render = .ok (number x))
    (short : e.render.utf8ByteSize ≤ maxSourceBytes) (deep : e.shown.nesting ≤ maxNesting) :
    parse e.render = .ok e ↔ ∀ p ∈ e.parts, p.Unmistakable := by
  have wellFormed : e.WellFormed Style.rendered.Prints := by
    have derives := (Grammar.parse_eq_ok_iff.1 read).2
    have readable : e.WellFormed fun x => x.isFinite = true ∧ 0.0 ≤ x :=
      wellFormed_of_derives derives fun t => occurs_of_mem_solid
    refine wellFormed_of_numbers readable fun p hp x same => ?_
    exact Style.prints_of_parse (numbers x (same ▸ hp))
  constructor
  · intro reread
    have quotable := quotable_of_parse_render wellFormed reread
    have derives := (Grammar.parse_eq_ok_iff.1 reread).2
    rw [(scans_render wellFormed quotable).solid] at derives
    exact unmistakable_of_derives wellFormed quotable derives
  · intro plain
    have tokens := (scans_render wellFormed fun p hp => (plain p hp).quotable).solid
    have derives := (derives_shown wellFormed plain deep).loosen (Written.rank_connective _)
    rw [← tokens] at derives
    exact Grammar.parse_of_derives derives (Nat.le_refl _) short

/-- A sign in front of a whole power, and a negation beside `and`, are read as they were. -/
theorem parse_render_iff_signed_power :
    ∃ e, parse "-x ** 2.5 <= y and not z" = .ok e ∧
      (∀ x, number x ∈ e.parts → parse (number x).render = .ok (number x)) ∧
      e.render.utf8ByteSize ≤ maxSourceBytes ∧ e.shown.nesting ≤ maxNesting ∧
      e.render = "((-((x ** 2.5)) <= y) and not (z))" ∧ parse e.render = .ok e := by
  let e : Expr := .and (.compare (.unary .minus (.binary .pow (.var "x") (.number 2.5)))
    [(.le, .var "y")]) (.unary .not (.var "z"))
  have read : parse "-x ** 2.5 <= y and not z" = .ok e := rfl
  have numbers : ∀ x, number x ∈ e.parts → parse (number x).render = .ok (number x) := by
    intro x mem
    have same : x = 2.5 := by simpa [e, parts, partsInPairs] using mem
    subst same
    rfl
  have short : e.render.utf8ByteSize ≤ maxSourceBytes := by decide +kernel
  have deep : e.shown.nesting ≤ maxNesting := by decide +kernel
  have plain : ∀ p ∈ e.parts, p.Unmistakable := by
    simp [e, parts, partsInPairs, Unmistakable, isNegation, isUnary]
  exact ⟨e, read, numbers, short, deep, rfl, (parse_render_iff read numbers short deep).2 plain⟩

/-- A power with a sign at its base is read again as a sign in front of the power. -/
theorem render_negative_base :
    ∃ e, parse "(-x) ** 2" = .ok e ∧
      (∀ x, number x ∈ e.parts → parse (number x).render = .ok (number x)) ∧
      e.render.utf8ByteSize ≤ maxSourceBytes ∧ e.shown.nesting ≤ maxNesting ∧
      e.render = "(-(x) ** 2)" ∧
      parse e.render = .ok (.unary .minus (.binary .pow (.var "x") (.number 2))) ∧
      parse e.render ≠ .ok e := by
  let e : Expr := .binary .pow (.unary .minus (.var "x")) (.number 2)
  have numbers : ∀ x, number x ∈ e.parts → parse (number x).render = .ok (number x) := by
    intro x mem
    have same : x = 2 := by simpa [e, parts] using mem
    subst same
    rfl
  have text : e.render = "(-(x) ** 2)" := rfl
  have reread : parse e.render = .ok (.unary .minus (.binary .pow (.var "x") (.number 2))) := by
    rw [text]
    rfl
  have short : e.render.utf8ByteSize ≤ maxSourceBytes := by decide +kernel
  have deep : e.shown.nesting ≤ maxNesting := by decide +kernel
  refine ⟨e, rfl, numbers, short, deep, text, reread, fun again => ?_⟩
  have same : Expr.unary .minus (.binary .pow (.var "x") (.number 2)) =
      .binary .pow (.unary .minus (.var "x")) (.number 2) :=
    Except.ok.inj (reread.symm.trans again)
  cases same

end Expr

end Stratagem
