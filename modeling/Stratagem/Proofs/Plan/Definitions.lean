import Stratagem.Plan.Definition
import Stratagem.Proofs.Decimal.Finite
import Stratagem.Proofs.Formula.Closure
import Stratagem.Proofs.Json.Proper
import Stratagem.Proofs.Plan.Expressions

/-!
# The expressions of definitions

An expression in a definition is read from a text, or it is a number or a truth value as it stands.
So a property that the grammar keeps holds of all expressions of a tree that is read from a proper
JSON value (`Node.every_ofJson`). The readers of instructions are followed one by one, and the
recursion is that of the value.

One such property is that a constant is finite (`closed_finite`).
-/

namespace Stratagem

namespace Definition

open Grammar (Closed)

variable {P : Expr → Prop} {fields : Fields} {key : String} {path : Path}

/-- The members of an object are proper, and the instructions among them have the property. -/
def Fields.Every (P : Expr → Prop) (fields : Fields) : Prop :=
  ∀ m ∈ fields, m.2.value.Proper ∧ ∀ path n, m.2.node path = .ok n → n.Every P

/-! ## Fields -/

theorem mem_of_find? {α : Type} {m : Keyed α} {v : α} (h : Keyed.find? key m = some v) :
    ∃ k, (k, v) ∈ m := by
  induction m with
  | nil => cases h
  | cons x m ih =>
    obtain ⟨k, w⟩ := x
    rw [Keyed.find?] at h
    split at h
    · cases h
      exact ⟨k, List.mem_cons_self⟩
    · obtain ⟨k', hk⟩ := ih h
      exact ⟨k', List.mem_cons_of_mem _ hk⟩

theorem Fields.Every.find? (every : fields.Every P) {m : Member}
    (h : Keyed.find? key fields = some m) :
    m.value.Proper ∧ ∀ path n, m.node path = .ok n → n.Every P := by
  obtain ⟨k, hk⟩ := mem_of_find? h
  exact every _ hk

theorem Fields.Every.optional? (every : fields.Every P) {m : Member}
    (h : optional? fields key = some m) :
    m.value.Proper ∧ ∀ path n, m.node path = .ok n → n.Every P := by
  unfold Definition.optional? at h
  split at h
  · cases h
  · cases h
  · cases h
    exact every.find? ‹_›

theorem Fields.Every.required (every : fields.Every P) {m : Member}
    (h : required fields key path = .ok m) :
    m.value.Proper ∧ ∀ path n, m.node path = .ok n → n.Every P := by
  unfold Definition.required at h
  split at h
  · cases h
    exact every.optional? ‹_›
  · cases h

theorem every_readBlock (every : fields.Every P) {n : Node}
    (h : readBlock fields path = .ok n) : n.Every P := by
  obtain ⟨_, -, h⟩ := bind_eq_ok.1 h
  split at h
  · cases h
  · rename_i m found
    split at h
    · exact (every.find? found).2 _ _ h
    · cases h

/-! ## Waits -/

theorem readTicks_ne_condition (v : Json) (e : Expr) (path : Path) :
    readTicks v path ≠ .ok (.condition e) := by
  intro h
  unfold readTicks at h
  split at h
  · cases h
  · split at h <;> cases h
  · cases h

/-- A duration is rounded to whole milliseconds. -/
theorem ofMillis_of_ofSeconds {seconds : Float} {span : TimeSpan}
    (h : Wait.ofSeconds seconds = .ok span) : TimeSpan.ofMillis span = span := by
  unfold Wait.ofSeconds at h
  split at h
  · cases h
  · dsimp only at h
    split at h
    · cases h
    · cases h
      exact congrArg TimeSpan.ofMillis (TimeSpan.millis_ofMillis _)

theorem ofMillis_of_readDuration {text : String} {span : TimeSpan}
    (h : Wait.readDuration text = .ok span) : TimeSpan.ofMillis span = span := by
  unfold Wait.readDuration at h
  dsimp only at h
  split at h
  · cases h
  · split at h
    · cases h
    · split at h
      · cases h
      · exact ofMillis_of_ofSeconds h

/-- What is read as a wait for a span of time waits for whole milliseconds. -/
theorem exists_elapsed_of_readElapsed {v : Json} {w : Wait} (h : readElapsed v path = .ok w) :
    ∃ span : TimeSpan, w = .elapsed span ∧ TimeSpan.ofMillis span = span := by
  simp only [readElapsed] at h
  split at h
  · rename_i span read
    cases h
    refine ⟨span, rfl, ?_⟩
    split at read
    · exact ofMillis_of_ofSeconds (mapError_eq_ok.1 read)
    · exact ofMillis_of_ofSeconds (mapError_eq_ok.1 read)
    · exact ofMillis_of_readDuration (mapError_eq_ok.1 read)
    · cases read
  · cases h

/-! ## Expressions -/

section

variable (closed : Closed P)
include closed

theorem every_expression {source field : String} {e : Expr}
    (h : expression source field path = .ok e) : P e := by
  unfold expression at h
  split at h
  · cases h
    exact closed.parse ‹_›
  · cases h

theorem every_numericExpression {v : Json} (proper : v.Proper) {field : String} {e : Expr}
    (h : numericExpression v field path = .ok e) : P e := by
  cases proper with
  | int low high =>
    cases h
    have limit : Decimal.int64Limit = 2 ^ 63 := rfl
    rw [limit] at low high
    exact closed.number (Finite.isFinite_ofInt low high)
  | float finite =>
    cases h
    exact closed.number finite
  | text s => exact every_expression closed h
  | null => cases h
  | bool b => cases h
  | array items => cases h
  | object members => cases h

theorem every_optionalExpression (every : fields.Every P) {e : Option Expr}
    (h : optionalExpression fields key path = .ok e) : ∀ x ∈ e, P x := by
  unfold optionalExpression at h
  split at h
  · cases h
    simp
  · rename_i m found
    cases hx : numericExpression m.value key path with
    | error fault => rw [hx] at h; cases h
    | ok x =>
      rw [hx] at h
      cases h
      simpa using every_numericExpression closed (every.optional? found).1 hx

/-! ## Instructions -/

omit closed in
theorem every_readIndicator {n : Node} (h : readIndicator fields path = .ok n) : n.Every P := by
  have leaf : ∃ name params target, n = .indicator name params target := by
    obtain ⟨_, -, h⟩ := bind_eq_ok.1 h
    obtain ⟨name, -, h⟩ := bind_eq_ok.1 h
    obtain ⟨target, -, h⟩ := bind_eq_ok.1 h
    split at h
    · cases h
      exact ⟨_, _, _, rfl⟩
    · split at h
      · obtain ⟨params, -, h⟩ := bind_eq_ok.1 h
        cases h
        exact ⟨_, _, _, rfl⟩
      · cases h
  obtain ⟨name, params, target, rfl⟩ := leaf
  exact Node.every_leaf (fun s => by cases s <;> rfl) (by simp [Node.expressions])

theorem every_readAssignment (every : fields.Every P) {n : Node}
    (h : readAssignment fields path = .ok n) : n.Every P := by
  have leaf : ∃ target e, n = .assign target e ∧ P e := by
    obtain ⟨_, -, h⟩ := bind_eq_ok.1 h
    split at h
    · split at h
      · cases h
      · split at h
        · split at h
          · cases h
            exact ⟨_, _, rfl, closed.parseAssignment ‹_›⟩
          · cases h
        · cases h
    · cases h
    · obtain ⟨target, -, h⟩ := bind_eq_ok.1 h
      obtain ⟨m, hm, h⟩ := bind_eq_ok.1 h
      obtain ⟨e, he, h⟩ := bind_eq_ok.1 h
      cases h
      exact ⟨_, _, rfl, every_numericExpression closed (every.required hm).1 he⟩
  obtain ⟨target, e, rfl, he⟩ := leaf
  exact Node.every_leaf (fun s => by cases s <;> rfl) (by simpa [Node.expressions] using he)

theorem every_readOrder (every : fields.Every P) {n : Node}
    (h : readOrder fields path = .ok n) : n.Every P := by
  obtain ⟨_, -, h⟩ := bind_eq_ok.1 h
  obtain ⟨symbol, -, h⟩ := bind_eq_ok.1 h
  obtain ⟨side, -, h⟩ := bind_eq_ok.1 h
  obtain ⟨m, hm, h⟩ := bind_eq_ok.1 h
  obtain ⟨size, hsize, h⟩ := bind_eq_ok.1 h
  obtain ⟨price, hprice, h⟩ := bind_eq_ok.1 h
  obtain ⟨stop, hstop, h⟩ := bind_eq_ok.1 h
  cases h
  refine Node.every_leaf (fun s => by cases s <;> rfl) ?_
  simp only [Node.expressions]
  intro e he
  obtain ⟨q, hq⟩ := Order.mem_expressions.1 he
  cases q with
  | size =>
    cases hq
    exact every_numericExpression closed (every.required hm).1 hsize
  | price => exact every_optionalExpression closed every hprice e hq
  | stop => exact every_optionalExpression closed every hstop e hq

theorem every_readWait {n : Node} (h : readWait fields path = .ok n) : n.Every P := by
  have leaf : ∃ w, n = .wait w ∧ ∀ e, w = .condition e → P e := by
    obtain ⟨_, -, h⟩ := bind_eq_ok.1 h
    split at h
    · obtain ⟨w, hw, h⟩ := bind_eq_ok.1 h
      cases h
      refine ⟨w, rfl, ?_⟩
      rintro e rfl
      exact absurd hw (readTicks_ne_condition _ e path)
    · obtain ⟨w, hw, h⟩ := bind_eq_ok.1 h
      cases h
      obtain ⟨span, rfl, -⟩ := exists_elapsed_of_readElapsed hw
      exact ⟨_, rfl, nofun⟩
    · obtain ⟨source, -, h⟩ := bind_eq_ok.1 h
      obtain ⟨e, he, h⟩ := bind_eq_ok.1 h
      cases h
      refine ⟨_, rfl, ?_⟩
      rintro e' ⟨⟩
      exact every_expression closed he
    · cases h
  obtain ⟨w, rfl, hw⟩ := leaf
  refine Node.every_leaf (fun s => by cases s <;> rfl) ?_
  intro e he
  cases w with
  | condition e' =>
    obtain rfl : e = e' := by simpa [Node.expressions] using he
    exact hw e rfl
  | ticks count => simp [Node.expressions] at he
  | elapsed span => simp [Node.expressions] at he

theorem every_readBranch (every : fields.Every P) {n : Node}
    (h : readBranch fields path = .ok n) : n.Every P := by
  obtain ⟨_, -, h⟩ := bind_eq_ok.1 h
  obtain ⟨condition, hcondition, h⟩ := bind_eq_ok.1 h
  obtain ⟨m, hm, h⟩ := bind_eq_ok.1 h
  obtain ⟨yes, hyes, h⟩ := bind_eq_ok.1 h
  have he : P condition := by
    obtain ⟨source, -, hcondition⟩ := bind_eq_ok.1 hcondition
    split at hcondition
    · exact every_expression closed hcondition
    · cases hcondition
      exact closed.bool _
    · cases hcondition
  have hyes := (every.required hm).2 _ _ hyes
  split at h
  · cases h
    exact Node.every_branch he hyes (by simp)
  · rename_i m' hm'
    obtain ⟨no, hno, h⟩ := bind_eq_ok.1 h
    cases h
    refine Node.every_branch he hyes ?_
    rintro n' ⟨⟩
    exact (every.optional? hm').2 _ _ hno

theorem every_readTyped (every : fields.Every P) {kind : String} {n : Node}
    (h : readTyped kind fields path = .ok n) : n.Every P := by
  unfold readTyped at h
  split at h
  · exact every_readBlock every h
  · exact every_readBranch closed every h
  · exact every_readIndicator h
  · exact every_readAssignment closed every h
  · exact every_readOrder closed every h
  · exact every_readWait closed h
  · cases h

end

/-! ## Trees -/

mutual
/-- Every instruction that is read has the property. -/
theorem every_readNode (closed : Closed P) (v : Json) (proper : v.Proper) {path : Path} {n : Node}
    (h : readNode v path = .ok n) : n.Every P := by
  match v, proper with
  | .array items, .array hitems =>
    rw [readNode] at h
    obtain ⟨ns, hns, h⟩ := bind_eq_ok.1 h
    cases h
    exact Node.every_block (every_readItems closed items hitems hns)
  | .object members, .object hmembers =>
    rw [readNode] at h
    obtain ⟨kind, -, h⟩ := bind_eq_ok.1 h
    exact every_readTyped closed (every_readMembers closed members hmembers) h
  | .null, _ => simp [readNode, fail] at h
  | .bool b, _ => simp [readNode, fail] at h
  | .int n, _ => simp [readNode, fail] at h
  | .float x, _ => simp [readNode, fail] at h
  | .text s, _ => simp [readNode, fail] at h

theorem every_readItems (closed : Closed P) (items : List Json) (proper : ∀ v ∈ items, v.Proper)
    {index : Nat} {path : Path} {ns : List Node} (h : readItems items index path = .ok ns) :
    ∀ n ∈ ns, n.Every P := by
  match items with
  | [] =>
    cases h
    simp
  | v :: items =>
    rw [readItems] at h
    obtain ⟨n, hn, h⟩ := bind_eq_ok.1 h
    obtain ⟨ns, hns, h⟩ := bind_eq_ok.1 h
    cases h
    intro m hm
    rcases List.mem_cons.1 hm with rfl | hm
    · exact every_readNode closed v (proper v List.mem_cons_self) hn
    · have later : ∀ v ∈ items, v.Proper := fun v hv => proper v (List.mem_cons_of_mem _ hv)
      exact every_readItems closed items later hns m hm

theorem every_readMembers (closed : Closed P) (members : List (String × Json))
    (proper : ∀ m ∈ members, m.2.Proper) : (readMembers members).Every P := by
  match members with
  | [] =>
    rw [readMembers]
    intro m hm
    cases hm
  | (key, v) :: members =>
    rw [readMembers]
    have first : v.Proper := proper (key, v) List.mem_cons_self
    intro m hm
    rcases List.mem_cons.1 hm with rfl | hm
    · exact ⟨first, fun path n => every_readNode closed v first⟩
    · have later : ∀ m ∈ members, m.2.Proper := fun m hm => proper m (List.mem_cons_of_mem _ hm)
      exact every_readMembers closed members later m hm
end

end Definition

/-- Signs keep a number finite, and no other expression is a constant. -/
theorem Grammar.closed_finite :
    Grammar.Closed fun e => ∀ x, e.constant? = some x → x.isFinite = true where
  number := by
    rintro x finite _ ⟨⟩
    exact finite
  bool := by
    rintro b _ ⟨⟩
  text := by
    rintro s _ ⟨⟩
  var := by
    rintro name _ ⟨⟩
  unary := by
    intro op e he x h
    cases op with
    | minus =>
      obtain ⟨y, hy, rfl⟩ := Option.map_eq_some_iff.1 h
      exact Finite.isFinite_neg (he y hy)
    | plus => exact he x h
    | not => cases h
  binary := by
    rintro op l r _ _ _ ⟨⟩
  compare := by
    rintro first rest _ _ _ ⟨⟩
  and := by
    rintro l r _ _ _ ⟨⟩
  or := by
    rintro l r _ _ _ ⟨⟩
  call := by
    rintro f args _ _ _ ⟨⟩

/-- The expressions of a tree that is read have every property that the grammar keeps. -/
theorem Node.every_ofJson {P : Expr → Prop} (closed : Grammar.Closed P) {v : Json}
    (proper : v.Proper) {tree : Node} (h : Node.ofJson v = .ok tree) : tree.Every P := by
  unfold Node.ofJson at h
  split at h
  · exact Definition.every_readNode closed _ proper h
  · obtain ⟨kind, -, h⟩ := bind_eq_ok.1 h
    split at h
    · exact Definition.every_readNode closed _ proper h
    · obtain ⟨n, hn, h⟩ := bind_eq_ok.1 h
      cases h
      refine Node.every_block ?_
      simpa using Definition.every_readNode closed _ proper hn
  · cases h

end Stratagem
