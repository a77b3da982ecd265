import Stratagem.Plan.Review
import Stratagem.Proofs.Formula.Mentions
import Stratagem.Proofs.Plan.Agenda
import Stratagem.Proofs.Plan.Expressions

/-!
# Courses

A choice says of each branch of a tree which side is taken. With it the tree has one course: the
instructions that are run, in the order of the document (`Node.course`). Whether some choice leads
to an instruction before a name is bound is what the review of a tree decides, although it does not
look at choices one by one: it keeps one list of names at each place and intersects the lists of
both sides after a branch. `mem_review_unbound` says that it loses nothing that way.

* The course of a part depends on the choices within that part only (`course_congr`), so choices for
  two children of a block, or for a branch and one of its sides, are made independently
  (`exists_courses`, `exists_taken`).
* `Review.Exact` relates what a review finds about one name to all courses. It holds of instructions
  without parts (`Exact.single`), of one thing after another (`Exact.append`) and of the two sides
  of a branch (`Exact.join`), hence of every tree (`exact_node`).
-/

namespace Stratagem

/-- For each branch, given by its path, whether the side for a condition that holds is taken. -/
abbrev Choice := Path → Bool

namespace Node

/-! ## The course of a choice -/

mutual
/-- The instructions that are run from an instruction at a path on, in order, each with its path. -/
def course (choice : Choice) : Node → Path → Agenda
  | .block children, path => (.block children, path) :: courseFrom choice children 0 path
  | .branch e yes no, path =>
    (.branch e yes no, path) ::
      if choice path then course choice yes path.yes else courseOptional choice no path.no
  | .indicator name params target, path => [(.indicator name params target, path)]
  | .assign target e, path => [(.assign target e, path)]
  | .order o, path => [(.order o, path)]
  | .wait w, path => [(.wait w, path)]

/-- The instructions that are run from children of a block on, the first of which has a given
index. -/
def courseFrom (choice : Choice) : List Node → (index : Nat) → Path → Agenda
  | [], _, _ => []
  | n :: ns, index, path =>
    course choice n (path.child index) ++ courseFrom choice ns (index + 1) path

/-- The instructions that are run from a side of a branch on that may be missing. -/
def courseOptional (choice : Choice) : Option Node → Path → Agenda
  | none, _ => []
  | some n, path => course choice n path
end

/-! ## The instructions of a course -/

mutual
/-- What stands in a course stands in the tree. -/
theorem at_of_mem_course {choice : Choice} {n m : Node} {path p : Path}
    (h : (m, p) ∈ n.course choice path) : ∃ q, p = path ++ q ∧ n.at? q = some m := by
  cases n with
  | block children =>
    rw [course] at h
    rcases List.mem_cons.1 h with here | later
    · cases here
      exact ⟨[], (List.append_nil _).symm, rfl⟩
    · obtain ⟨i, q, rfl, part⟩ := at_of_mem_courseFrom later
      refine ⟨.child i :: q, ?_, part⟩
      rw [Path.child, List.append_assoc, List.singleton_append, Nat.zero_add]
  | branch e yes no =>
    rw [course] at h
    rcases List.mem_cons.1 h with here | later
    · cases here
      exact ⟨[], (List.append_nil _).symm, rfl⟩
    · split at later
      · obtain ⟨q, rfl, part⟩ := at_of_mem_course later
        exact ⟨.yes :: q, List.append_assoc _ _ _, part⟩
      · obtain ⟨n, q, rfl, rfl, part⟩ := at_of_mem_courseOptional later
        exact ⟨.no :: q, List.append_assoc _ _ _, part⟩
  | indicator name params target | assign target e | order o | wait w =>
    rw [course] at h
    cases List.mem_singleton.1 h
    exact ⟨[], (List.append_nil _).symm, rfl⟩

theorem at_of_mem_courseFrom {choice : Choice} {ns : List Node} {index : Nat} {m : Node}
    {path p : Path} (h : (m, p) ∈ courseFrom choice ns index path) :
    ∃ i q, p = path.child (index + i) ++ q ∧ (ns[i]?.bind fun n => n.at? q) = some m := by
  cases ns with
  | nil => cases h
  | cons n ns =>
    rw [courseFrom] at h
    rcases List.mem_append.1 h with first | later
    · obtain ⟨q, rfl, part⟩ := at_of_mem_course first
      exact ⟨0, q, rfl, part⟩
    · obtain ⟨i, q, rfl, part⟩ := at_of_mem_courseFrom later
      refine ⟨i + 1, q, ?_, part⟩
      rw [Nat.add_assoc, Nat.add_comm 1 i]

theorem at_of_mem_courseOptional {choice : Choice} {no : Option Node} {m : Node} {path p : Path}
    (h : (m, p) ∈ courseOptional choice no path) :
    ∃ n q, no = some n ∧ p = path ++ q ∧ n.at? q = some m := by
  cases no with
  | none => cases h
  | some n =>
    obtain ⟨q, rfl, part⟩ := at_of_mem_course h
    exact ⟨n, q, rfl, rfl, part⟩
end

/-! ## Independent choices -/

variable {choice other : Choice}

mutual
/-- A course depends on the choices at and below its instruction. -/
theorem course_congr (n : Node) (path : Path) (same : ∀ q, path <+: q → choice q = other q) :
    n.course choice path = n.course other path := by
  cases n with
  | block children =>
    rw [course, course, courseFrom_congr children 0 path]
    intro i _ q below
    exact same q ((List.prefix_append path [.child i]).trans below)
  | branch e yes no =>
    rw [course, course, same path List.prefix_rfl, course_congr yes path.yes,
      courseOptional_congr no path.no]
    · exact fun q below => same q ((List.prefix_append path [.no]).trans below)
    · exact fun q below => same q ((List.prefix_append path [.yes]).trans below)
  | indicator name params target | assign target e | order o | wait w => rw [course, course]

theorem courseFrom_congr (ns : List Node) (index : Nat) (path : Path)
    (same : ∀ i ≥ index, ∀ q, path.child i <+: q → choice q = other q) :
    courseFrom choice ns index path = courseFrom other ns index path := by
  cases ns with
  | nil => rw [courseFrom, courseFrom]
  | cons n ns =>
    rw [courseFrom, courseFrom, course_congr n (path.child index) (same index (Nat.le_refl index)),
      courseFrom_congr ns (index + 1) path]
    exact fun i later => same i (Nat.le_of_succ_le later)

theorem courseOptional_congr (no : Option Node) (path : Path)
    (same : ∀ q, path <+: q → choice q = other q) :
    courseOptional choice no path = courseOptional other no path := by
  cases no with
  | none => rw [courseOptional, courseOptional]
  | some n => exact course_congr n path same
end

/-- Two steps down from one place that lead to the same place are the same step. -/
theorem segment_eq_of_prefix {path q : Path} {s t : Segment} (hs : path ++ [s] <+: q)
    (ht : path ++ [t] <+: q) : s = t := by
  obtain ⟨u, rfl⟩ := hs
  obtain ⟨v, h⟩ := ht
  simp only [List.append_assoc, List.singleton_append, List.append_cancel_left_eq,
    List.cons.injEq] at h
  exact h.1.symm

/-- The choices for a child of a block and those for the later children go together. -/
theorem exists_courses (n : Node) (ns : List Node) (index : Nat) (path : Path)
    (choice other : Choice) :
    ∃ both : Choice, n.course both (path.child index) = n.course choice (path.child index) ∧
      courseFrom both ns (index + 1) path = courseFrom other ns (index + 1) path := by
  refine ⟨fun q => if path.child index <+: q then choice q else other q, ?_, ?_⟩
  · apply course_congr
    intro q below
    exact if_pos below
  · apply courseFrom_congr
    intro i later q below
    apply if_neg
    intro first
    cases segment_eq_of_prefix below first
    exact absurd later (Nat.not_succ_le_self index)

/-- A longer path is not a prefix of the path it extends. -/
theorem not_prefix_of_concat (path : Path) (s : Segment) : ¬ path ++ [s] <+: path := by
  intro h
  have shorter := h.length_le
  rw [List.length_append, List.length_singleton] at shorter
  omega

/-- A side of a branch can be taken whatever the choices within it are. -/
theorem exists_taken (choice : Choice) (path : Path) (side : Bool) :
    ∃ taken : Choice, taken path = side ∧
      ∀ s q, path ++ [s] <+: q → taken q = choice q := by
  refine ⟨fun q => if q = path then side else choice q, if_pos rfl, ?_⟩
  intro s q below
  apply if_neg
  rintro rfl
  exact not_prefix_of_concat q s below

/-! ## Names on a course -/

/-- An expression of an instruction, those of its parts excluded, mentions a name. -/
def Mentions (n : Node) (x : String) : Prop := ∃ e ∈ n.expressions, e.Mentions x

/-- The names that are bound once an instruction is run: the target of an assignment, the names of
an indicator. An indicator that is unknown counts as one with a single value. -/
def declares : Node → List String
  | .assign target _ => [target]
  | .indicator name _ target =>
    match Kind.ofName? name with
    | some kind => kind.boundNames target
    | none => [target]
  | .block _ | .branch _ _ _ | .order _ | .wait _ => []

end Node

namespace Agenda

variable {x : String} {p : Path}

/-- A name is not bound on a course. -/
def Silent (x : String) (a : Agenda) : Prop := ∀ m ∈ a, x ∉ m.1.declares

@[simp] theorem silent_nil : Silent x [] := by
  intro m h
  cases h

@[simp] theorem silent_cons {n : Node} {path : Path} {a : Agenda} :
    Silent x ((n, path) :: a) ↔ x ∉ n.declares ∧ Silent x a := List.forall_mem_cons

@[simp] theorem silent_append {a b : Agenda} : Silent x (a ++ b) ↔ Silent x a ∧ Silent x b :=
  List.forall_mem_append

/-- A name is mentioned at a place of a course, and it is not bound on the course until then. -/
def ReadsUnbound (x : String) (p : Path) (a : Agenda) : Prop :=
  ∃ before n rest, a = before ++ (n, p) :: rest ∧ n.Mentions x ∧ Silent x before

@[simp] theorem not_readsUnbound_nil : ¬ ReadsUnbound x p [] := by
  rintro ⟨before, n, rest, h, -, -⟩
  exact List.append_ne_nil_of_right_ne_nil before (List.cons_ne_nil _ _) h.symm

theorem readsUnbound_cons {n : Node} {path : Path} {a : Agenda} :
    ReadsUnbound x p ((n, path) :: a) ↔
      p = path ∧ n.Mentions x ∨ x ∉ n.declares ∧ ReadsUnbound x p a := by
  constructor
  · rintro ⟨before, m, rest, split, mentions, silent⟩
    cases before with
    | nil =>
      cases split
      exact .inl ⟨rfl, mentions⟩
    | cons first before =>
      cases split
      obtain ⟨here, silent⟩ := silent_cons.1 silent
      exact .inr ⟨here, before, m, rest, rfl, mentions, silent⟩
  · rintro (⟨rfl, mentions⟩ | ⟨here, before, m, rest, rfl, mentions, silent⟩)
    · exact ⟨[], n, a, rfl, mentions, silent_nil⟩
    · exact ⟨(n, path) :: before, m, rest, rfl, mentions, silent_cons.2 ⟨here, silent⟩⟩

theorem readsUnbound_append {a b : Agenda} :
    ReadsUnbound x p (a ++ b) ↔ ReadsUnbound x p a ∨ Silent x a ∧ ReadsUnbound x p b := by
  induction a with
  | nil => simp
  | cons m a ih =>
    obtain ⟨n, path⟩ := m
    rw [List.cons_append, readsUnbound_cons, readsUnbound_cons, ih, silent_cons, and_or_left,
      or_assoc, and_assoc]

end Agenda

namespace Review

open Agenda (Silent ReadsUnbound)

variable {x : String} {bound : Names}

/-! ## Issues about one name -/

theorem unbound_mem_reads {e : Expr} {path p : Path} :
    (⟨p, .unbound x⟩ : Issue) ∈ reads e path bound ↔ p = path ∧ e.Mentions x ∧ x ∉ bound := by
  rw [reads, List.mem_map]
  constructor
  · rintro ⟨name, among, same⟩
    cases same
    obtain ⟨occurs, free⟩ := List.mem_filter.1 among
    refine ⟨rfl, Expr.mentions_iff.2 (Expr.mem_vars.1 occurs), ?_⟩
    simpa using free
  · rintro ⟨rfl, mentions, free⟩
    refine ⟨x, List.mem_filter.2 ⟨Expr.mem_vars.2 (Expr.mentions_iff.1 mentions), ?_⟩, rfl⟩
    simpa using free

theorem unbound_mem_quantity {q : Quantity} {e : Option Expr} {path p : Path} :
    (⟨p, .unbound x⟩ : Issue) ∈ quantity q e path bound ↔
      p = path ∧ (∃ f, e = some f ∧ f.Mentions x) ∧ x ∉ bound := by
  cases e with
  | none => simp [quantity]
  | some e =>
    rw [quantity, List.mem_append, unbound_mem_reads]
    constructor
    · rintro (⟨rfl, mentions, free⟩ | constant)
      · exact ⟨rfl, ⟨e, rfl, mentions⟩, free⟩
      · split at constant
        · split at constant
          · cases List.mem_singleton.1 constant
          · cases constant
        · cases constant
    · rintro ⟨rfl, ⟨f, same, mentions⟩, free⟩
      cases same
      exact .inl ⟨rfl, mentions, free⟩

theorem unbound_mem_order {o : Order} {path p : Path} :
    (⟨p, .unbound x⟩ : Issue) ∈ order o path bound ↔
      p = path ∧ (Node.order o).Mentions x ∧ x ∉ bound := by
  simp only [order, List.mem_append, unbound_mem_quantity]
  constructor
  · rintro ((((symbol | side) | size) | price) | stop)
    · split at symbol
      · cases List.mem_singleton.1 symbol
      · cases symbol
    · split at side
      · cases side
      · cases List.mem_singleton.1 side
    · obtain ⟨rfl, ⟨e, has, mentions⟩, free⟩ := size
      exact ⟨rfl, ⟨e, Order.mem_expressions.2 ⟨.size, has⟩, mentions⟩, free⟩
    · obtain ⟨rfl, ⟨e, has, mentions⟩, free⟩ := price
      exact ⟨rfl, ⟨e, Order.mem_expressions.2 ⟨.price, has⟩, mentions⟩, free⟩
    · obtain ⟨rfl, ⟨e, has, mentions⟩, free⟩ := stop
      exact ⟨rfl, ⟨e, Order.mem_expressions.2 ⟨.stop, has⟩, mentions⟩, free⟩
  · rintro ⟨rfl, ⟨e, among, mentions⟩, free⟩
    obtain ⟨q, has⟩ := Order.mem_expressions.1 among
    cases q with
    | size => exact .inl (.inl (.inr ⟨rfl, ⟨e, has, mentions⟩, free⟩))
    | price => exact .inl (.inr ⟨rfl, ⟨e, has, mentions⟩, free⟩)
    | stop => exact .inr ⟨rfl, ⟨e, has, mentions⟩, free⟩

theorem unbound_mem_wait {w : Wait} {path p : Path} :
    (⟨p, .unbound x⟩ : Issue) ∈ wait w path bound ↔
      p = path ∧ (Node.wait w).Mentions x ∧ x ∉ bound := by
  cases w with
  | ticks count =>
    rw [wait]
    split <;> simp [Node.Mentions, Node.expressions]
  | elapsed span =>
    rw [wait]
    split <;> simp [Node.Mentions, Node.expressions]
  | condition e =>
    rw [wait, unbound_mem_reads]
    simp [Node.Mentions, Node.expressions]

theorem unbound_notMem_indicator {name : String} {params : Params} {target : String}
    {path p : Path} :
    (⟨p, .unbound x⟩ : Issue) ∉ (indicator name params target path bound).1 := by
  rw [indicator]
  cases Kind.ofName? name with
  | none => simp
  | some kind =>
    intro reported
    dsimp only at reported
    split at reported
    · cases reported
    · cases List.mem_singleton.1 reported

theorem indicator_names {name : String} {params : Params} {target : String} {path : Path} :
    x ∉ (indicator name params target path bound).2 ↔
      x ∉ (Node.indicator name params target).declares ∧ x ∉ bound := by
  rw [indicator, Node.declares]
  cases Kind.ofName? name <;> simp

/-! ## What a review finds about one name -/

/-- What a review finds about a name, from a place on where some names are bound, is what the
courses from there on show: the name is unbound after it if some course does not bind it, and it is
reported where some course reads it before binding it. -/
structure Exact (x : String) (bound : Names) (found : List Issue × Names)
    (course : Choice → Agenda) : Prop where
  after : x ∉ found.2 ↔ x ∉ bound ∧ ∃ choice, Silent x (course choice)
  reported : ∀ p, (⟨p, .unbound x⟩ : Issue) ∈ found.1 ↔
    x ∉ bound ∧ ∃ choice, ReadsUnbound x p (course choice)

namespace Exact

variable {found later : List Issue × Names} {first second : Choice → Agenda}

theorem nothing (x : String) (bound : Names) : Exact x bound ([], bound) fun _ => [] where
  after := by simp
  reported := by simp

/-- One instruction, without its parts. -/
theorem single {n : Node} {path : Path}
    (own : ∀ p, (⟨p, .unbound x⟩ : Issue) ∈ found.1 ↔ p = path ∧ n.Mentions x ∧ x ∉ bound)
    (binds : x ∉ found.2 ↔ x ∉ n.declares ∧ x ∉ bound) :
    Exact x bound found fun _ => [(n, path)] where
  after := by simp [binds, and_comm]
  reported := by
    intro p
    rw [own p]
    constructor
    · rintro ⟨rfl, mentions, free⟩
      exact ⟨free, fun _ => true, [], n, [], rfl, mentions, Agenda.silent_nil⟩
    · rintro ⟨free, -, read⟩
      rcases Agenda.readsUnbound_cons.1 read with ⟨rfl, mentions⟩ | ⟨-, none⟩
      · exact ⟨rfl, mentions, free⟩
      · exact absurd none Agenda.not_readsUnbound_nil

/-- One instruction that binds nothing, without its parts. -/
theorem binding_nothing {n : Node} {path : Path} {issues : List Issue}
    (own : ∀ p, (⟨p, .unbound x⟩ : Issue) ∈ issues ↔ p = path ∧ n.Mentions x ∧ x ∉ bound)
    (nothing : n.declares = []) : Exact x bound (issues, bound) fun _ => [(n, path)] := by
  apply single
  · exact own
  · simp [nothing]

/-- One thing after another. The second is reviewed with the names that are bound after the first,
and choices for both can be put together. -/
theorem append (hfirst : Exact x bound found first) (hsecond : Exact x found.2 later second)
    (together : ∀ c d, ∃ both, first both = first c ∧ second both = second d) :
    Exact x bound (found.1 ++ later.1, later.2) fun c => first c ++ second c where
  after := by
    rw [hsecond.after, hfirst.after]
    constructor
    · rintro ⟨⟨free, c, silent⟩, d, silent'⟩
      obtain ⟨both, hc, hd⟩ := together c d
      refine ⟨free, both, Agenda.silent_append.2 ?_⟩
      rw [hc, hd]
      exact ⟨silent, silent'⟩
    · rintro ⟨free, c, silent⟩
      obtain ⟨silent, silent'⟩ := Agenda.silent_append.1 silent
      exact ⟨⟨free, c, silent⟩, c, silent'⟩
  reported := by
    intro p
    rw [List.mem_append, hfirst.reported p, hsecond.reported p, hfirst.after]
    constructor
    · rintro (⟨free, c, read⟩ | ⟨⟨free, c, silent⟩, d, read⟩)
      · exact ⟨free, c, Agenda.readsUnbound_append.2 (.inl read)⟩
      · obtain ⟨both, hc, hd⟩ := together c d
        refine ⟨free, both, Agenda.readsUnbound_append.2 (.inr ?_)⟩
        rw [hc, hd]
        exact ⟨silent, read⟩
    · rintro ⟨free, c, read⟩
      rcases Agenda.readsUnbound_append.1 read with read | ⟨silent, read⟩
      · exact .inl ⟨free, c, read⟩
      · exact .inr ⟨⟨free, c, silent⟩, c, read⟩

/-- An instruction that binds nothing, and its parts. -/
theorem parts {n : Node} {path : Path} {issues : List Issue} {course : Choice → Agenda}
    (own : ∀ p, (⟨p, .unbound x⟩ : Issue) ∈ issues ↔ p = path ∧ n.Mentions x ∧ x ∉ bound)
    (nothing : n.declares = []) (h : Exact x bound found course) :
    Exact x bound (issues ++ found.1, found.2) fun c => (n, path) :: course c :=
  append (binding_nothing own nothing) h fun _ d => ⟨d, rfl, rfl⟩

/-- Two sides of a branch, of which a choice takes one. -/
theorem join {yes no : List Issue × Names} {path : Path} (hyes : Exact x bound yes first)
    (hno : Exact x bound no second)
    (free_yes : ∀ c, ∃ taken : Choice, taken path = true ∧ first taken = first c)
    (free_no : ∀ c, ∃ taken : Choice, taken path = false ∧ second taken = second c) :
    Exact x bound (yes.1 ++ no.1, yes.2.filter fun name => no.2.contains name)
      fun c => if c path then first c else second c where
  after := by
    have kept : x ∉ yes.2.filter (fun name => no.2.contains name) ↔ x ∉ yes.2 ∨ x ∉ no.2 := by
      rw [List.mem_filter, List.contains_iff_mem, not_and_or]
    rw [kept, hyes.after, hno.after]
    constructor
    · rintro (⟨free, c, silent⟩ | ⟨free, c, silent⟩)
      · obtain ⟨taken, side, same⟩ := free_yes c
        refine ⟨free, taken, ?_⟩
        rwa [if_pos side, same]
      · obtain ⟨taken, side, same⟩ := free_no c
        refine ⟨free, taken, ?_⟩
        rwa [if_neg (ne_true_of_eq_false side), same]
    · rintro ⟨free, c, silent⟩
      split at silent
      · exact .inl ⟨free, c, silent⟩
      · exact .inr ⟨free, c, silent⟩
  reported := by
    intro p
    rw [List.mem_append, hyes.reported p, hno.reported p]
    constructor
    · rintro (⟨free, c, read⟩ | ⟨free, c, read⟩)
      · obtain ⟨taken, side, same⟩ := free_yes c
        refine ⟨free, taken, ?_⟩
        rwa [if_pos side, same]
      · obtain ⟨taken, side, same⟩ := free_no c
        refine ⟨free, taken, ?_⟩
        rwa [if_neg (ne_true_of_eq_false side), same]
    · rintro ⟨free, c, read⟩
      split at read
      · exact .inl ⟨free, c, read⟩
      · exact .inr ⟨free, c, read⟩

end Exact

/-! ## The review of a tree -/

mutual
theorem exact_node (x : String) (n : Node) (path : Path) (bound : Names) :
    Exact x bound (node n path bound) fun c => n.course c path := by
  cases n with
  | block children =>
    simp only [node, Node.course]
    refine .parts ?_ rfl (exact_nodes x children 0 path bound)
    intro p
    split <;> simp [Node.Mentions, Node.expressions]
  | branch e yes no =>
    simp only [node, Node.course, List.append_assoc _ _ (optionalNode no path.no bound).1]
    refine .parts ?_ rfl
      (.join (exact_node x yes path.yes bound) (exact_optional x no path.no bound) ?_ ?_)
    · intro p
      rw [List.mem_append, unbound_mem_reads]
      have idle : (⟨p, .unbound x⟩ : Issue) ∉
          if (onlyWaits yes && no.all onlyWaits) = true then [⟨path, .idleBranch⟩] else [] := by
        split <;> simp
      rw [or_iff_left idle]
      simp [Node.Mentions, Node.expressions]
    · intro c
      obtain ⟨taken, side, same⟩ := Node.exists_taken c path true
      exact ⟨taken, side, Node.course_congr yes path.yes (same .yes)⟩
    · intro c
      obtain ⟨taken, side, same⟩ := Node.exists_taken c path false
      exact ⟨taken, side, Node.courseOptional_congr no path.no (same .no)⟩
  | indicator name params target =>
    simp only [node, Node.course]
    exact .single (fun p => by simp [unbound_notMem_indicator, Node.Mentions, Node.expressions])
      indicator_names
  | assign target e =>
    simp only [node, Node.course]
    apply Exact.single
    · intro p
      rw [unbound_mem_reads]
      simp [Node.Mentions, Node.expressions]
    · simp [Node.declares]
  | order o =>
    simp only [node, Node.course]
    exact .binding_nothing (fun p => unbound_mem_order) rfl
  | wait w =>
    simp only [node, Node.course]
    exact .binding_nothing (fun p => unbound_mem_wait) rfl

theorem exact_nodes (x : String) (ns : List Node) (index : Nat) (path : Path) (bound : Names) :
    Exact x bound (nodes ns index path bound) fun c => Node.courseFrom c ns index path := by
  cases ns with
  | nil =>
    simp only [nodes, Node.courseFrom]
    exact .nothing x bound
  | cons n ns =>
    simp only [nodes, Node.courseFrom]
    exact .append (exact_node x n (path.child index) bound) (exact_nodes x ns (index + 1) path _)
      (Node.exists_courses n ns index path)

theorem exact_optional (x : String) (no : Option Node) (path : Path) (bound : Names) :
    Exact x bound (optionalNode no path bound) fun c => Node.courseOptional c no path := by
  cases no with
  | none =>
    simp only [optionalNode, Node.courseOptional]
    exact .nothing x bound
  | some n =>
    simp only [optionalNode, Node.courseOptional]
    exact exact_node x n path bound
end

end Review

/-- A read of an unbound variable is reported exactly if the instruction at that path mentions the
variable, the market does not bind it, and some choice of sides for the branches leads to the
instruction with nothing before it on the course that binds the variable. -/
theorem mem_review_unbound (tree : Node) (p : Path) (x : String) :
    (⟨p, .unbound x⟩ : Issue) ∈ tree.review ↔
      ∃ n, tree.at? p = some n ∧ n.Mentions x ∧ x ∉ marketFields ∧
        ∃ choice before rest, tree.course choice [] = before ++ (n, p) :: rest ∧
          ∀ m ∈ before, x ∉ m.1.declares := by
  rw [Node.review, (Review.exact_node x tree [] marketFields).reported p]
  constructor
  · rintro ⟨free, choice, before, n, rest, course, mentions, silent⟩
    have among : (n, p) ∈ tree.course choice [] := by
      rw [course]
      exact List.mem_append_right before List.mem_cons_self
    obtain ⟨q, rfl, here⟩ := Node.at_of_mem_course among
    exact ⟨n, here, mentions, free, choice, before, rest, course, silent⟩
  · rintro ⟨n, -, mentions, free, choice, before, rest, course, silent⟩
    exact ⟨free, choice, before, n, rest, course, mentions, silent⟩

end Stratagem
