import Stratagem.Formula.Expr

/-!
# Variables in expressions

`Expr.Mentions` says of a name that an expression has a variable of that name, at one of the places
where an expression has parts. The list of occurrences holds exactly these names (`mentions_iff`),
and so does the list of variables in order (`mem_vars`).
-/

namespace Stratagem

theorem mem_insertName {x name : String} {names : List String} :
    x ∈ insertName name names ↔ x = name ∨ x ∈ names := by
  induction names with
  | nil => simp [insertName]
  | cons n ns ih =>
    rw [insertName]
    split
    · simp
    · split
      · rename_i h
        simp [h]
      · simp only [List.mem_cons, ih]
        exact or_left_comm

theorem mem_sortNames {x : String} {names : List String} : x ∈ sortNames names ↔ x ∈ names := by
  induction names with
  | nil => simp [sortNames]
  | cons n ns ih =>
    have step : sortNames (n :: ns) = insertName n (sortNames ns) := rfl
    rw [step, mem_insertName, ih, List.mem_cons]

namespace Expr

theorem mem_vars {e : Expr} {x : String} : x ∈ e.vars ↔ x ∈ e.occurrences :=
  mem_sortNames

/-- An expression has a variable of a given name. -/
inductive Mentions (x : String) : Expr → Prop
  | var : Mentions x (.var x)
  | operand {op : UnaryOp} {e : Expr} : Mentions x e → Mentions x (.unary op e)
  | left {op : BinaryOp} {l r : Expr} : Mentions x l → Mentions x (.binary op l r)
  | right {op : BinaryOp} {l r : Expr} : Mentions x r → Mentions x (.binary op l r)
  | first {e : Expr} {rest : List (CompareOp × Expr)} : Mentions x e → Mentions x (.compare e rest)
  | later {e : Expr} {rest : List (CompareOp × Expr)} {pair : CompareOp × Expr} :
      pair ∈ rest → Mentions x pair.2 → Mentions x (.compare e rest)
  | andLeft {l r : Expr} : Mentions x l → Mentions x (.and l r)
  | andRight {l r : Expr} : Mentions x r → Mentions x (.and l r)
  | orLeft {l r : Expr} : Mentions x l → Mentions x (.or l r)
  | orRight {l r : Expr} : Mentions x r → Mentions x (.or l r)
  | argument {f : Builtin} {args : List Expr} {e : Expr} :
      e ∈ args → Mentions x e → Mentions x (.call f args)

variable {x : String}

/-- The occurrences in the later operands of a comparison are those in one of them. -/
theorem mem_occurrencesInPairs {rest : List (CompareOp × Expr)} :
    x ∈ occurrencesInPairs rest ↔ ∃ pair ∈ rest, x ∈ pair.2.occurrences := by
  induction rest with
  | nil => simp [occurrencesInPairs]
  | cons pair rest ih => simp [occurrencesInPairs, ih]

/-- The occurrences in several expressions are those in one of them. -/
theorem mem_occurrencesInAll {args : List Expr} :
    x ∈ occurrencesInAll args ↔ ∃ e ∈ args, x ∈ e.occurrences := by
  induction args with
  | nil => simp [occurrencesInAll]
  | cons e args ih => simp [occurrencesInAll, ih]

theorem Mentions.mem {e : Expr} (h : e.Mentions x) : x ∈ e.occurrences := by
  induction h with
  | var => exact List.mem_singleton_self x
  | operand _ ih => exact ih
  | left _ ih | andLeft _ ih | orLeft _ ih => exact List.mem_append_left _ ih
  | right _ ih | andRight _ ih | orRight _ ih => exact List.mem_append_right _ ih
  | first _ ih => exact List.mem_append_left _ ih
  | later among _ ih => exact List.mem_append_right _ (mem_occurrencesInPairs.2 ⟨_, among, ih⟩)
  | argument among _ ih => exact mem_occurrencesInAll.2 ⟨_, among, ih⟩

mutual
theorem mentions_of_mem {e : Expr} (h : x ∈ e.occurrences) : e.Mentions x := by
  cases e with
  | number y | bool b | text s => cases h
  | var name =>
    obtain rfl := List.mem_singleton.1 h
    exact .var
  | unary op e => exact .operand (mentions_of_mem h)
  | binary op l r =>
    rcases List.mem_append.1 h with h | h
    · exact .left (mentions_of_mem h)
    · exact .right (mentions_of_mem h)
  | compare first rest =>
    rcases List.mem_append.1 h with h | h
    · exact .first (mentions_of_mem h)
    · obtain ⟨pair, among, mentions⟩ := mentions_of_mem_pairs h
      exact .later among mentions
  | and l r =>
    rcases List.mem_append.1 h with h | h
    · exact .andLeft (mentions_of_mem h)
    · exact .andRight (mentions_of_mem h)
  | or l r =>
    rcases List.mem_append.1 h with h | h
    · exact .orLeft (mentions_of_mem h)
    · exact .orRight (mentions_of_mem h)
  | call f args =>
    obtain ⟨e, among, mentions⟩ := mentions_of_mem_all h
    exact .argument among mentions

theorem mentions_of_mem_pairs {rest : List (CompareOp × Expr)} (h : x ∈ occurrencesInPairs rest) :
    ∃ pair ∈ rest, pair.2.Mentions x := by
  cases rest with
  | nil => cases h
  | cons pair rest =>
    rcases List.mem_append.1 h with h | h
    · exact ⟨pair, List.mem_cons_self, mentions_of_mem h⟩
    · obtain ⟨later, among, mentions⟩ := mentions_of_mem_pairs h
      exact ⟨later, List.mem_cons_of_mem _ among, mentions⟩

theorem mentions_of_mem_all {args : List Expr} (h : x ∈ occurrencesInAll args) :
    ∃ e ∈ args, e.Mentions x := by
  cases args with
  | nil => cases h
  | cons e args =>
    rcases List.mem_append.1 h with h | h
    · exact ⟨e, List.mem_cons_self, mentions_of_mem h⟩
    · obtain ⟨later, among, mentions⟩ := mentions_of_mem_all h
      exact ⟨later, List.mem_cons_of_mem _ among, mentions⟩
end

/-- The occurrences of an expression are the variables that it mentions. -/
theorem mentions_iff {e : Expr} : e.Mentions x ↔ x ∈ e.occurrences :=
  ⟨Mentions.mem, mentions_of_mem⟩

end Expr

end Stratagem
