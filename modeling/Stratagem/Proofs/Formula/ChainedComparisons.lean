import Stratagem.Formula.Evaluation

/-!
# Chained comparisons

A chain such as `a < b <= c` evaluates each operand once and hands its value on to the next pair.
It means the comparisons of its pairs, joined by `and` (`Expr.conjoined`), although these evaluate
the inner operands twice and look at truth values in between.

The result of a chain is a truth value (`bool_of_evaluateChain`), so the `and` in front of the rest
of the pairs adds nothing to it (`evaluate_conjoined`). A chain that does not hold stays the same
with more operands behind it (`evaluateChain_append`): these are not looked at.
-/

namespace Stratagem.Expr

/-- The comparisons of the pairs of adjacent operands of a chain, joined by `and` and grouped to the
right. -/
def conjoined (first : Expr) (op : CompareOp) (second : Expr) : List (CompareOp × Expr) → Expr
  | [] => .compare first [(op, second)]
  | (op', third) :: rest => .and (.compare first [(op, second)]) (conjoined second op' third rest)

variable {lookup : String → Option Value} {first second : Expr} {op : CompareOp} {v : Value}
  {rest later : List (CompareOp × Expr)}

theorem evaluate_compare_of_ok (h : first.evaluate lookup = .ok v) :
    (compare first rest).evaluate lookup = evaluateChain lookup v rest := by
  rw [evaluate, h]
  rfl

theorem evaluate_compare_of_error {fault : Fault} (h : first.evaluate lookup = .error fault) :
    (compare first rest).evaluate lookup = .error fault := by
  rw [evaluate, h]
  rfl

/-- One more pair of a chain: an error of its operand or of the comparison is the result, and so is
`false` if the pair does not hold. -/
theorem evaluateChain_cons : evaluateChain lookup v ((op, second) :: rest) =
    match second.evaluate lookup with
    | .error fault => .error fault
    | .ok w =>
      match op.holds v w with
      | .error fault => .error fault
      | .ok true => evaluateChain lookup w rest
      | .ok false => .ok (.bool false) := by
  rw [evaluateChain]
  rcases second.evaluate lookup with fault | w
  · rfl
  · rcases h : op.holds v w with fault | _ | _ <;> simp only [bind, Except.bind, h] <;> rfl

theorem bool_of_evaluateChain {w : Value} (h : evaluateChain lookup v rest = .ok w) :
    ∃ b, w = .bool b := by
  induction rest generalizing v with
  | nil =>
    cases h
    exact ⟨true, rfl⟩
  | cons pair rest ih =>
    obtain ⟨op, second⟩ := pair
    rw [evaluateChain_cons] at h
    split at h
    · cases h
    · split at h
      · cases h
      · exact ih h
      · cases h
        exact ⟨false, rfl⟩

/-- A conjunction whose second part is like a chain. -/
theorem evaluate_and_of_chain {l r : Expr} {w : Value} (hl : l.evaluate lookup = .ok (.bool true))
    (hr : r.evaluate lookup = evaluateChain lookup w rest) :
    (and l r).evaluate lookup = evaluateChain lookup w rest := by
  rw [evaluate, hl, hr]
  rcases h : evaluateChain lookup w rest with fault | x
  · rfl
  · obtain ⟨b, rfl⟩ := bool_of_evaluateChain h
    rfl

/-- The conjunction of the pairs is evaluated like the chain, from the value of the first operand
on. -/
theorem evaluate_conjoined (h : first.evaluate lookup = .ok v) :
    (conjoined first op second rest).evaluate lookup =
      evaluateChain lookup v ((op, second) :: rest) := by
  induction rest generalizing first op second v with
  | nil => exact evaluate_compare_of_ok h
  | cons pair rest ih =>
    obtain ⟨op', third⟩ := pair
    have pair : (compare first [(op, second)]).evaluate lookup =
        evaluateChain lookup v [(op, second)] := evaluate_compare_of_ok h
    rw [evaluateChain_cons] at pair ⊢
    rcases hsecond : second.evaluate lookup with fault | w
    · rw [hsecond] at pair
      rw [conjoined, evaluate, pair]
      rfl
    · rw [hsecond] at pair
      simp only at pair ⊢
      rcases holds : op.holds v w with fault | _ | _
      · rw [holds] at pair
        rw [conjoined, evaluate, pair]
        rfl
      · rw [holds] at pair
        rw [conjoined, evaluate, pair]
        rfl
      · rw [holds] at pair
        exact evaluate_and_of_chain pair (ih hsecond)

/-- A chain that does not hold, or that has an error, is the same with more pairs behind it. -/
theorem evaluateChain_append (h : evaluateChain lookup v rest ≠ .ok (.bool true)) :
    evaluateChain lookup v (rest ++ later) = evaluateChain lookup v rest := by
  induction rest generalizing v with
  | nil => exact absurd rfl h
  | cons pair rest ih =>
    obtain ⟨op, second⟩ := pair
    rw [List.cons_append]
    rw [evaluateChain_cons] at h ⊢
    rw [evaluateChain_cons]
    rcases hsecond : second.evaluate lookup with fault | w
    · rfl
    · rw [hsecond] at h
      simp only at h ⊢
      rcases holds : op.holds v w with fault | _ | _
      · rfl
      · rfl
      · rw [holds] at h
        exact ih h

/-- A chain of comparisons has the result, value or error, of its pairs joined by `and`. If it does
not hold, or has an error, this is decided by its operands so far: the same result stays whatever
operands come later, in the chain and in the conjunction. -/
theorem evaluate_compare_eq_conjoined (lookup : String → Option Value) (first : Expr)
    (op : CompareOp) (second : Expr) (rest : List (CompareOp × Expr)) :
    (compare first ((op, second) :: rest)).evaluate lookup =
      (conjoined first op second rest).evaluate lookup ∧
    ∀ result, (compare first ((op, second) :: rest)).evaluate lookup = result →
      result ≠ .ok (.bool true) → ∀ later,
        (compare first ((op, second) :: (rest ++ later))).evaluate lookup = result ∧
          (conjoined first op second (rest ++ later)).evaluate lookup = result := by
  have same : ∀ rest, (compare first ((op, second) :: rest)).evaluate lookup =
      (conjoined first op second rest).evaluate lookup := by
    intro rest
    rcases h : first.evaluate lookup with fault | v
    · have pair : (compare first [(op, second)]).evaluate lookup = .error fault :=
        evaluate_compare_of_error h
      rw [evaluate_compare_of_error h]
      cases rest with
      | nil => exact pair.symm
      | cons third rest =>
        rw [conjoined, evaluate, pair]
        rfl
    · rw [evaluate_compare_of_ok h, evaluate_conjoined h]
  refine ⟨same rest, ?_⟩
  rintro result rfl decided later
  rw [← same (rest ++ later), and_self]
  rcases h : first.evaluate lookup with fault | v
  · rw [evaluate_compare_of_error h, evaluate_compare_of_error h]
  · rw [evaluate_compare_of_ok h] at decided
    rw [evaluate_compare_of_ok h, evaluate_compare_of_ok h]
    exact evaluateChain_append decided

/-- In `1 < 2 == 3 < x` the second pair does not hold, so nothing asks for `x`. -/
theorem evaluate_compare_eq_conjoined_unbound :
    let lookup : String → Option Value := fun _ => none
    let rest : List (CompareOp × Expr) := [(.eq, .number 3)]
    let later : List (CompareOp × Expr) := [(.lt, .var "x")]
    (compare (.number 1) ((.lt, .number 2) :: rest)).evaluate lookup = .ok (.bool false) ∧
      (Except.ok (.bool false) : Except Fault Value) ≠ .ok (.bool true) ∧
      (compare (.number 1) ((.lt, .number 2) :: (rest ++ later))).evaluate lookup =
        .ok (.bool false) ∧
      (conjoined (.number 1) .lt (.number 2) (rest ++ later)).evaluate lookup =
        .ok (.bool false) := by
  intro lookup rest later
  have decided : (compare (.number 1) ((.lt, .number 2) :: rest)).evaluate lookup =
      .ok (.bool false) := rfl
  have false_ne : (Except.ok (.bool false) : Except Fault Value) ≠ .ok (.bool true) := nofun
  have unread := (evaluate_compare_eq_conjoined lookup (.number 1) .lt (.number 2) rest).2
  exact ⟨decided, false_ne, unread _ decided false_ne later⟩

end Stratagem.Expr
