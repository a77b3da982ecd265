import Stratagem.Proofs.Formula.Phrases
import Stratagem.Proofs.Formula.Reads

/-!
# Well-formed expressions

Not every syntax tree is an expression of the language: names and texts must be ones that can be
written, a comparison needs something to compare with, and functions take as many arguments as they
take (`Expr.WellFormed`). What the tokens of a text stand for is well formed
(`wellFormed_of_derives`), and no well-formed expression ever fails for its number of arguments
(`Expr.WellFormed.evaluate_counted`).
-/

namespace Stratagem

/-- Every part of the expression can be written, its numbers as `literal` says. -/
inductive Expr.WellFormed (literal : Float → Prop) : Expr → Prop
  | number {x} (written : literal x) : WellFormed literal (.number x)
  | bool (b) : WellFormed literal (.bool b)
  /-- A text avoids one of the quotes. -/
  | text {s} (quotable : '"' ∉ s.toList ∨ '\'' ∉ s.toList) : WellFormed literal (.text s)
  | var {name} (isName : Literal.isName name = true) (free : name ∉ Literal.reservedWords) :
      WellFormed literal (.var name)
  | unary (op) {e} (operand : WellFormed literal e) : WellFormed literal (.unary op e)
  | binary (op) {l r} (left : WellFormed literal l) (right : WellFormed literal r) :
      WellFormed literal (.binary op l r)
  | compare {first rest} (some : rest ≠ []) (left : WellFormed literal first)
      (right : ∀ p ∈ rest, WellFormed literal p.2) : WellFormed literal (.compare first rest)
  | and {l r} (left : WellFormed literal l) (right : WellFormed literal r) :
      WellFormed literal (.and l r)
  | or {l r} (left : WellFormed literal l) (right : WellFormed literal r) :
      WellFormed literal (.or l r)
  | call {f args} (takes : f.accepts args.length = true)
      (arguments : ∀ e ∈ args, WellFormed literal e) : WellFormed literal (.call f args)

/-! ## What tokens stand for -/

namespace Token

/-- The token stands somewhere in a text. -/
def Occurs (t : Token) : Prop := ∃ x r, first x r = t

theorem occurs_of_mem_scan {cs : List Char} {t : Token} (h : t ∈ scan cs) : t.Occurs := by
  induction cs using scan_induction with
  | nil => cases h
  | cons c r ih =>
    rw [scan_cons] at h
    rcases List.mem_cons.1 h with same | later
    · exact ⟨c, r, same.symm⟩
    · exact ih later

theorem occurs_of_mem_solid {cs : List Char} {t : Token} (h : t ∈ solid cs) : t.Occurs :=
  occurs_of_mem_scan (List.mem_filter.1 h).1

theorem isName_of_occurs {name : String} (h : Occurs (.word name)) :
    Literal.isName name = true := by
  obtain ⟨x, r, hfirst⟩ := h
  have kind := first_kind x r
  rw [hfirst] at kind
  cases kind with
  | word start =>
    have named : (x :: r).takeWhile isNameChar = x :: r.takeWhile isNameChar :=
      List.takeWhile_cons_of_pos (isNameChar_of_isNameStart start)
    rw [Literal.isName, String.toList_ofList, Bool.and_eq_true]
    refine ⟨?_, List.all_takeWhile⟩
    rw [named]
    exact start

theorem avoids_of_occurs {quote : Char} {content : String} (h : Occurs (.quoted quote content)) :
    (quote = '"' ∨ quote = '\'') ∧ quote ∉ content.toList := by
  obtain ⟨x, r, hfirst⟩ := h
  have kind := first_kind x r
  rw [hfirst] at kind
  cases kind with
  | quoted kind =>
    refine ⟨kind, ?_⟩
    rw [String.toList_ofList]
    intro mem
    simpa using List.all_eq_true.1 (@List.all_takeWhile _ (· != quote) r) _ mem

theorem quotable_of_occurs {quote : Char} {content : String} (h : Occurs (.quoted quote content)) :
    '"' ∉ content.toList ∨ '\'' ∉ content.toList := by
  obtain ⟨rfl | rfl, avoids⟩ := avoids_of_occurs h
  · exact .inl avoids
  · exact .inr avoids

end Token

/-- The expressions of a phrase are well formed. -/
def Phrase.WellFormed (literal : Float → Prop) : Phrase → Prop
  | expr _ e => e.WellFormed literal
  | pairs rest => ∀ p ∈ rest, Expr.WellFormed literal p.2
  | arguments args => ∀ e ∈ args, Expr.WellFormed literal e

/-- An operator that groups to the left makes a well-formed expression. -/
theorem wellFormed_of_operator? {literal : Float → Prop} {t : Token} {L : Level}
    {combine : Expr → Expr → Expr} {l r : Expr} (operator : t.operator? = some (L, combine))
    (left : l.WellFormed literal) (right : r.WellFormed literal) :
    (combine l r).WellFormed literal := by
  have both : ∀ e ∈ [l, r], e.WellFormed literal := by simp [left, right]
  unfold Token.operator? at operator
  repeat' split at operator
  all_goals cases operator
  all_goals first
    | exact .call rfl both
    | exact .binary _ left right
    | exact .and left right
    | exact .or left right

/-- What tokens stand for is well formed, and its numbers are neither negative nor infinite. -/
theorem wellFormed_of_derives {n : Nat} {p : Phrase} {ts : List Token} (h : Derives n p ts)
    (occurs : ∀ t ∈ ts, t.Occurs) : p.WellFormed fun x => x.isFinite = true ∧ 0.0 ≤ x := by
  induction h with
  | number _ finite unsigned => exact .number ⟨finite, unsigned⟩
  | true => exact .bool true
  | false => exact .bool false
  | text => exact .text (Token.quotable_of_occurs (occurs _ List.mem_cons_self))
  | var free => exact .var (Token.isName_of_occurs (occurs _ List.mem_cons_self)) free
  | parentheses _ inside => exact inside fun t ht => occurs t (by simp [ht])
  | call takes _ inside => exact .call takes (inside fun t ht => occurs t (by simp [ht]))
  | power _ _ left right =>
    exact .binary .pow (left fun t ht => occurs t (by simp [ht]))
      (right fun t ht => occurs t (by simp [ht]))
  | minus _ inside => exact .unary .minus (inside fun t ht => occurs t (by simp [ht]))
  | plus _ inside => exact .unary .plus (inside fun t ht => occurs t (by simp [ht]))
  | compare _ _ some left right =>
    exact .compare some (left fun t ht => occurs t (by simp [ht]))
      (right fun t ht => occurs t (by simp [ht]))
  | not _ _ inside => exact .unary .not (inside fun t ht => occurs t (by simp [ht]))
  | chain operator _ _ left right =>
    exact wellFormed_of_operator? operator (left fun t ht => occurs t (by simp [ht]))
      (right fun t ht => occurs t (by simp [ht]))
  | tighter _ inside => exact inside occurs
  | noPairs => exact fun p hp => nomatch hp
  | pair _ _ operand more =>
    exact List.forall_mem_cons.2 ⟨operand fun t ht => occurs t (by simp [ht]),
      more fun t ht => occurs t (by simp [ht])⟩
  | lastArgument _ inside =>
    exact List.forall_mem_cons.2 ⟨inside fun t ht => occurs t (by simp [ht]), nofun⟩
  | argument _ _ inside more =>
    exact List.forall_mem_cons.2 ⟨inside fun t ht => occurs t (by simp [ht]),
      more fun t ht => occurs t (by simp [ht])⟩

/-! ## Numbers of arguments -/

/-- The fault is not that of a wrong number of arguments. -/
def Fault.Counted (fault : Fault) : Prop := ∀ f count, fault ≠ .argumentCount f count

theorem Fault.OfValues.counted {fault : Fault} (h : fault.OfValues) : fault.Counted := by
  rintro f count rfl
  exact h

namespace Expr

variable {literal : Float → Prop} {lookup : String → Option Value} {P : Fault → Prop}

theorem faults_evaluateChain {rest : List (CompareOp × Expr)}
    (values : ∀ fault : Fault, fault.OfValues → P fault)
    (h : ∀ p ∈ rest, Faults P (evaluate lookup p.2)) (left : Value) :
    Faults P (evaluateChain lookup left rest) := by
  induction rest generalizing left with
  | nil => exact .ok _
  | cons p rest ih =>
    obtain ⟨op, e⟩ := p
    obtain ⟨here, later⟩ := List.forall_mem_cons.1 h
    rw [evaluateChain]
    refine here.bind fun right => ((faults_compare op left right).mono values).bind fun holds => ?_
    cases holds with
    | true => exact ih later right
    | false => exact .ok _

theorem faults_evaluateAll {es : List Expr} (h : ∀ e ∈ es, Faults P (evaluate lookup e)) :
    Faults P (evaluateAll lookup es) := by
  induction es with
  | nil => exact .ok _
  | cons e es ih =>
    obtain ⟨here, later⟩ := List.forall_mem_cons.1 h
    rw [evaluateAll]
    exact here.bind fun v => (ih later).bind fun vs => .ok _

/-- A well-formed expression does not fail for a number of arguments. -/
theorem WellFormed.evaluate_counted {e : Expr} (h : e.WellFormed literal)
    (lookup : String → Option Value) : Faults Fault.Counted (e.evaluate lookup) := by
  have values : ∀ {α} {x : Except Fault α}, Faults Fault.OfValues x → Faults Fault.Counted x :=
    fun h => h.mono fun _ => Fault.OfValues.counted
  induction h with
  | number | bool | text => exact .ok _
  | var =>
    rw [evaluate]
    split
    · exact .ok _
    · intro fault h f count same
      cases h
      cases same
  | unary op _ operand =>
    rw [evaluate]
    exact operand.bind fun v => values (faults_unary op v)
  | binary op _ _ left right =>
    rw [evaluate]
    refine left.bind fun v => (values (faults_asNumber v _)).bind fun a => right.bind fun w =>
      (values (faults_asNumber w _)).bind fun b => ?_
    exact (values (faults_binary op a b)).bind fun _ => .ok _
  | compare _ _ _ left right =>
    rw [evaluate]
    exact left.bind (faults_evaluateChain (fun _ => Fault.OfValues.counted) right)
  | and _ _ left right =>
    rw [evaluate]
    refine left.bind fun v => (values (faults_asBool v _)).bind fun a => ?_
    cases a with
    | true => exact right.bind fun w => (values (faults_asBool w _)).bind fun _ => .ok _
    | false => exact .ok _
  | or _ _ left right =>
    rw [evaluate]
    refine left.bind fun v => (values (faults_asBool v _)).bind fun a => ?_
    cases a with
    | true => exact .ok _
    | false => exact right.bind fun w => (values (faults_asBool w _)).bind fun _ => .ok _
  | @call f args takes _ arguments =>
    rw [evaluate, if_pos takes]
    intro fault h
    rcases bind_eq_error.1 h with failed | ⟨vs, hvs, failed⟩
    · exact faults_evaluateAll arguments fault failed
    · rw [← length_of_evaluateAll hvs] at takes
      exact (faults_call takes fault failed).counted

end Expr

end Stratagem
