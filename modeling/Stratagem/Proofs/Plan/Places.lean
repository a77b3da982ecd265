import Mathlib.Data.List.Nodup
import Stratagem.Proofs.Plan.Agenda
import Stratagem.Proofs.Plan.Courses

/-!
# The places of a tree

`Node.places` lists the places of all instructions of a tree, each before its parts. It is the list
that a run goes along: forwards, and leaving some of them out.

* There are as many places as instructions (`length_places`), they are different
  (`nodup_places`), and at each of them stands an instruction (`exists_at_of_mem_places`).
* An instruction with its parts, and then what follows it, stand in this order in the tree
  (`places_follow_sublist`).
-/

namespace Stratagem

namespace Node

mutual
/-- The places of the instructions of a tree that stands at a path. -/
def places : Node → Path → List Path
  | block children, path => path :: placesFrom children 0 path
  | branch _ yes no, path => path :: (places yes path.yes ++ placesOptional no path.no)
  | indicator _ _ _, path | assign _ _, path | order _, path | wait _, path => [path]

/-- The places of children of a block, the first of which has a given index. -/
def placesFrom : List Node → (index : Nat) → Path → List Path
  | [], _, _ => []
  | n :: ns, index, path => places n (path.child index) ++ placesFrom ns (index + 1) path

/-- The places of a side of a branch that may be missing. -/
def placesOptional : Option Node → Path → List Path
  | none, _ => []
  | some n, path => places n path
end

mutual
theorem length_places (n : Node) (path : Path) : (n.places path).length = n.count := by
  cases n with
  | block children =>
    rw [places, List.length_cons, length_placesFrom children 0 path, count]
    omega
  | branch e yes no =>
    rw [places, List.length_cons, List.length_append, length_places yes path.yes,
      length_placesOptional no path.no, count]
    omega
  | _ => rfl

theorem length_placesFrom (ns : List Node) (index : Nat) (path : Path) :
    (placesFrom ns index path).length = countAll ns := by
  cases ns with
  | nil => rfl
  | cons n ns =>
    rw [placesFrom, List.length_append, length_places n, length_placesFrom ns, countAll]

theorem length_placesOptional (no : Option Node) (path : Path) :
    (placesOptional no path).length = countOptional no := by
  cases no with
  | none => rfl
  | some n => exact length_places n path
end

/-! ## What stands at a place -/

mutual
theorem exists_at_of_mem_places {n : Node} {path q : Path} (h : q ∈ n.places path) :
    ∃ rest m, q = path ++ rest ∧ n.at? rest = some m := by
  have here : q = path → ∃ rest m, q = path ++ rest ∧ n.at? rest = some m := by
    rintro rfl
    exact ⟨[], n, (List.append_nil q).symm, rfl⟩
  cases n with
  | block children =>
    rcases List.mem_cons.1 h with same | part
    · exact here same
    · obtain ⟨i, n, rest, m, child, rfl, there⟩ := exists_at_of_mem_placesFrom part
      refine ⟨.child (0 + i) :: rest, m, by simp [Path.child], ?_⟩
      simp [at?, step?, child, there]
  | branch e yes no =>
    rcases List.mem_cons.1 h with same | part
    · exact here same
    rcases List.mem_append.1 part with part | part
    · obtain ⟨rest, m, rfl, there⟩ := exists_at_of_mem_places part
      exact ⟨.yes :: rest, m, by simp [Path.yes], there⟩
    · obtain ⟨n, rest, m, side, rfl, there⟩ := exists_at_of_mem_placesOptional part
      refine ⟨.no :: rest, m, by simp [Path.no], ?_⟩
      simp [at?, step?, side, there]
  | indicator name params target => exact here (List.mem_singleton.1 h)
  | assign target e => exact here (List.mem_singleton.1 h)
  | order o => exact here (List.mem_singleton.1 h)
  | wait w => exact here (List.mem_singleton.1 h)

theorem exists_at_of_mem_placesFrom {ns : List Node} {index : Nat} {path q : Path}
    (h : q ∈ placesFrom ns index path) :
    ∃ i n rest m, ns[i]? = some n ∧ q = path.child (index + i) ++ rest ∧ n.at? rest = some m := by
  cases ns with
  | nil => cases h
  | cons n ns =>
    rcases List.mem_append.1 h with first | later
    · obtain ⟨rest, m, rfl, there⟩ := exists_at_of_mem_places first
      exact ⟨0, n, rest, m, rfl, rfl, there⟩
    · obtain ⟨i, n', rest, m, child, rfl, there⟩ := exists_at_of_mem_placesFrom later
      refine ⟨i + 1, n', rest, m, child, ?_, there⟩
      rw [Nat.add_assoc, Nat.add_comm 1 i]

theorem exists_at_of_mem_placesOptional {no : Option Node} {path q : Path}
    (h : q ∈ placesOptional no path) :
    ∃ n rest m, no = some n ∧ q = path ++ rest ∧ n.at? rest = some m := by
  cases no with
  | none => cases h
  | some n =>
    obtain ⟨rest, m, rfl, there⟩ := exists_at_of_mem_places h
    exact ⟨n, rest, m, rfl, rfl, there⟩
end

/-! ## Different places -/

theorem prefix_of_mem_places {n : Node} {path q : Path} (h : q ∈ n.places path) : path <+: q := by
  obtain ⟨rest, -, rfl, -⟩ := exists_at_of_mem_places h
  exact List.prefix_append path rest

/-- An instruction is no part of itself. -/
theorem notMem_places_of_step {n : Node} {path : Path} {s : Segment} :
    path ∉ n.places (path ++ [s]) :=
  fun h => not_prefix_of_concat path s (prefix_of_mem_places h)

theorem exists_child_of_mem_placesFrom {ns : List Node} {index : Nat} {path q : Path}
    (h : q ∈ placesFrom ns index path) : ∃ i, index ≤ i ∧ path.child i <+: q := by
  obtain ⟨i, -, rest, -, -, rfl, -⟩ := exists_at_of_mem_placesFrom h
  exact ⟨index + i, Nat.le_add_right index i, List.prefix_append _ rest⟩

mutual
theorem nodup_places (n : Node) (path : Path) : (n.places path).Nodup := by
  cases n with
  | block children =>
    refine List.nodup_cons.2 ⟨fun h => ?_, nodup_placesFrom children 0 path⟩
    obtain ⟨i, -, below⟩ := exists_child_of_mem_placesFrom h
    exact not_prefix_of_concat path (.child i) below
  | branch e yes no =>
    have sides : ∀ q ∈ placesOptional no path.no, path.no <+: q := by
      intro q hq
      obtain ⟨-, rest, -, -, rfl, -⟩ := exists_at_of_mem_placesOptional hq
      exact List.prefix_append _ rest
    refine List.nodup_cons.2 ⟨fun h => ?_, ?_⟩
    · rcases List.mem_append.1 h with h | h
      · exact notMem_places_of_step h
      · exact not_prefix_of_concat path .no (sides path h)
    · refine (nodup_places yes path.yes).append (nodup_placesOptional no path.no) ?_
      intro q hyes hno
      cases segment_eq_of_prefix (prefix_of_mem_places hyes) (sides q hno)
  | indicator name params target => exact List.nodup_singleton path
  | assign target e => exact List.nodup_singleton path
  | order o => exact List.nodup_singleton path
  | wait w => exact List.nodup_singleton path

theorem nodup_placesFrom (ns : List Node) (index : Nat) (path : Path) :
    (placesFrom ns index path).Nodup := by
  cases ns with
  | nil => exact List.nodup_nil
  | cons n ns =>
    refine (nodup_places n (path.child index)).append (nodup_placesFrom ns (index + 1) path) ?_
    intro q first later
    obtain ⟨i, behind, below⟩ := exists_child_of_mem_placesFrom later
    cases segment_eq_of_prefix (prefix_of_mem_places first) below
    exact absurd behind (Nat.not_succ_le_self index)

theorem nodup_placesOptional (no : Option Node) (path : Path) :
    (placesOptional no path).Nodup := by
  cases no with
  | none => exact List.nodup_nil
  | some n => exact nodup_places n path
end

/-- The places of the children from some index on are places of the children. -/
theorem placesFrom_drop_sublist (ns : List Node) (count index : Nat) (path : Path) :
    (placesFrom (ns.drop count) (index + count) path).Sublist (placesFrom ns index path) := by
  induction ns generalizing count index with
  | nil => simp [placesFrom]
  | cons n ns ih =>
    cases count with
    | zero => exact .refl _
    | succ count =>
      rw [List.drop_succ_cons, placesFrom, ← Nat.succ_add_eq_add_succ]
      exact (ih count (index + 1)).trans (List.sublist_append_right _ _)

end Node

/-! ## Places of agendas -/

namespace Agenda

/-- The places of the instructions of an agenda, parts included. -/
def places (a : Agenda) : List Path := a.flatMap fun x => x.1.places x.2

@[simp] theorem places_nil : places [] = [] := rfl

@[simp] theorem places_cons (n : Node) (path : Path) (rest : Agenda) :
    places ((n, path) :: rest) = n.places path ++ places rest := rfl

@[simp] theorem places_append (a b : Agenda) : places (a ++ b) = places a ++ places b :=
  List.flatMap_append

@[simp] theorem places_ofChildren (ns : List Node) (index : Nat) (path : Path) :
    places (ofChildren ns index path) = Node.placesFrom ns index path := by
  induction ns generalizing index with
  | nil => rfl
  | cons n ns ih => rw [ofChildren, places_cons, ih, Node.placesFrom]

@[simp] theorem places_ofOptional (no : Option Node) (path : Path) :
    places (ofOptional no path) = Node.placesOptional no path := by
  cases no with
  | none => rfl
  | some n => simp [ofOptional, Node.placesOptional]

end Agenda

/-- In a tree the places of an instruction stand before those of what follows it. -/
theorem Node.places_follow_sublist {tree n : Node} {path : Path} (h : tree.at? path = some n) :
    (n.places path ++ Agenda.places (tree.follow path)).Sublist (tree.places []) := by
  induction path using List.reverseRecOn generalizing n with
  | nil =>
    obtain rfl : tree = n := Option.some.inj h
    rw [follow_nil, Agenda.places_nil, List.append_nil]
  | append_singleton path s ih =>
    obtain ⟨m, parent, hs⟩ := exists_step_of_at?_concat h
    refine List.Sublist.trans ?_ (ih parent)
    cases m with
    | block children =>
      cases s with
      | child i =>
        have here : children[i]? = some n := hs
        have split : children.drop i = n :: children.drop (i + 1) := by
          obtain ⟨inside, rfl⟩ := List.getElem?_eq_some_iff.1 here
          exact List.drop_eq_getElem_cons inside
        have later := placesFrom_drop_sublist children i 0 path
        rw [split, Nat.zero_add, placesFrom] at later
        rw [← Path.child, follow_child parent, Agenda.places_append, Agenda.places_ofChildren,
          ← List.append_assoc, places]
        exact (later.trans (List.sublist_cons_self _ _)).append (.refl _)
      | yes => cases hs
      | no => cases hs
    | branch e yes no =>
      cases s with
      | child i => cases hs
      | yes =>
        obtain rfl : yes = n := Option.some.inj hs
        rw [← Path.yes, follow_yes, places]
        exact ((List.sublist_append_left _ _).trans (List.sublist_cons_self _ _)).append (.refl _)
      | no =>
        obtain rfl : no = some n := hs
        rw [← Path.no, follow_no, places, placesOptional]
        exact ((List.sublist_append_right _ _).trans (List.sublist_cons_self _ _)).append (.refl _)
    | indicator name params target => cases hs
    | assign target e => cases hs
    | order o => cases hs
    | wait w => cases hs

end Stratagem
