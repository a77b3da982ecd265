import Stratagem.Failure
import Stratagem.Proofs.Formula.Mentions
import Stratagem.Proofs.Formula.Reads
import Stratagem.Session.Context

/-!
# Expressions in contexts

Three functions go through an expression, each on its own: one collects its variables, one looks for
the value of a constant, and one evaluates it in a context. They agree (`Expr.evaluate_reads`): two
contexts that give the variables of an expression the same values cannot be told apart by it, an
expression without a value for want of a variable names one of its variables, and this one is
neither bound nor a field of the latest bar (`Context.lookup_eq_none_iff`).
-/

namespace Stratagem

/-- A name has no value if it is neither bound nor a field of the latest bar. -/
theorem Context.lookup_eq_none_iff {c : Context} {x : String} :
    c.lookup x = none ↔
      Keyed.find? x c.vars = none ∧ ∀ bar ∈ c.latestBar?, bar.field? x = none := by
  unfold lookup
  cases Keyed.find? x c.vars with
  | some v => simp
  | none => cases c.latestBar? <;> simp

namespace Expr

/-- An expression that fails for want of a variable has it, and its context gives it no value. -/
theorem unknown_of_evaluate {e : Expr} {c : Context} {x : String}
    (h : (e.evaluate c.lookup).mapError StrategyError.ofFault = .error (.unknownVariable x)) :
    x ∈ e.vars ∧ c.lookup x = none := by
  obtain ⟨fault, failed, unknown⟩ := mapError_eq_error.1 h
  cases fault with
  | unbound name =>
    cases unknown
    exact (unbound_evaluate e failed).imp_left mem_vars.2
  | _ => cases unknown

/-- An expression reads its variables and nothing else of a context. These are the variables that
stand in it. Where they have the same values, it has the same value or the same fault; if it lacks
a variable, that is one of these and has no value; and a constant has its value in every context. -/
theorem evaluate_reads (e : Expr) :
    (∀ x, x ∈ e.vars ↔ e.Mentions x) ∧
    (∀ c d : Context, (∀ x ∈ e.vars, c.lookup x = d.lookup x) →
      e.evaluate c.lookup = e.evaluate d.lookup) ∧
    (∀ (c : Context) (x : String),
      (e.evaluate c.lookup).mapError StrategyError.ofFault = .error (.unknownVariable x) →
      x ∈ e.vars ∧ Keyed.find? x c.vars = none ∧ ∀ bar ∈ c.latestBar?, bar.field? x = none) ∧
    ∀ v, e.constant? = some v → ∀ c : Context, e.evaluate c.lookup = .ok (.number v) := by
  refine ⟨fun x => ?_, fun c d agree => ?_, fun c x failed => ?_, fun v constant c => ?_⟩
  · rw [mem_vars, mentions_iff]
  · exact evaluate_congr e fun x occurs => agree x (mem_vars.2 occurs)
  · obtain ⟨reads, unbound⟩ := unknown_of_evaluate failed
    exact ⟨reads, Context.lookup_eq_none_iff.1 unbound⟩
  · exact evaluate_constant constant

/-- `a < b and nand(flag, a == -2)` in two contexts that agree on its variables only, and in one
that lacks the last of them; `-2` has its value in all of these. -/
theorem evaluate_reads_nested :
    let e : Expr := .and (.compare (.var "a") [(.lt, .var "b")])
      (.call .nand [.var "flag", .compare (.var "a") [(.eq, .unary .minus (.number 2))]])
    let bar : Bar := ⟨⟨0, 0⟩, 1, 2, 1, 2, 5⟩
    let bound := (Context.empty.bind "a" (.number 1)).bind "b" (.number 3)
    let c := bound.bind "flag" (.bool true)
    let d := (c.bind "z" (.text "other")).install ⟨"BTCUSDT", "1m", [bar]⟩
    (∀ x ∈ e.vars, c.lookup x = d.lookup x) ∧ e.evaluate c.lookup = e.evaluate d.lookup ∧
      (e.evaluate bound.lookup).mapError StrategyError.ofFault =
        .error (.unknownVariable "flag") ∧
      ("flag" ∈ e.vars ∧ Keyed.find? "flag" bound.vars = none ∧
        ∀ bar ∈ bound.latestBar?, bar.field? "flag" = none) ∧
      (unary .minus (number 2)).constant? = some (-2) ∧
      (unary .minus (number 2)).evaluate d.lookup = .ok (.number (-2)) := by
  intro e bar bound c d
  have vars : e.vars = ["a", "b", "flag"] := by decide
  have agree : ∀ x ∈ e.vars, c.lookup x = d.lookup x := by
    rw [vars]
    simp only [List.forall_mem_cons]
    exact ⟨rfl, rfl, rfl, nofun⟩
  have lacks : (e.evaluate bound.lookup).mapError StrategyError.ofFault =
      .error (.unknownVariable "flag") := by rfl
  obtain ⟨-, same, unknown, -⟩ := evaluate_reads e
  have constant := (evaluate_reads (unary .minus (number 2))).2.2.2
  exact ⟨agree, same c d agree, lacks, unknown bound "flag" lacks, rfl, constant _ rfl d⟩

end Expr

end Stratagem
