import Mathlib.Data.Set.Card
import Stratagem.Plan.DefinitionFault
import Stratagem.Proofs.Decimal.Digits
import Stratagem.Proofs.Plan.Places

/-!
# The texts of paths

A path is read off its text. The text of a step tells where it ends (`Segment.chars_append_inj`),
so the steps of a path can be told apart from each other, and from what follows them unless this
goes on like a step (`Path.chars_append_inj`).

* Two paths with the same text are the same (`Path.render_injective`), and so are two places of
  definitions with the same text, unless their fields are named like steps
  (`Place.eq_of_render_eq`).
* A tree has as many paths as instructions (`Node.encard_paths`).
-/

namespace Stratagem

/-! ## Steps -/

namespace Segment

/-- A step in messages, as characters. -/
def chars (s : Segment) : List Char := s.render.toList

/-- The word that a step starts with. -/
def word : Segment → List Char
  | child _ => ['.', 'c', 'h', 'i', 'l', 'd', 'r', 'e', 'n', '[']
  | yes => ['.', 't', 'h', 'e', 'n']
  | no => ['.', 'e', 'l', 's', 'e']

/-- The index behind the word. -/
def index : Segment → List Char
  | child i => Nat.toDigits 10 i ++ [']']
  | yes | no => []

theorem chars_eq (s : Segment) : s.chars = s.word ++ s.index := by
  cases s with
  | child i =>
    have text : (child i).render = ".children[" ++ toString i ++ "]" := rfl
    rw [chars, text, String.toList_append, String.toList_append, Nat.toString_eq_repr,
      Nat.toList_repr, List.append_assoc]
    rfl
  | yes | no => rfl

theorem word_prefix_chars (s : Segment) : s.word <+: s.chars := ⟨s.index, s.chars_eq.symm⟩

/-- The index of a child ends at the bracket behind it. -/
theorem digits_append_inj {i j : Nat} {cs ds : List Char}
    (h : Nat.toDigits 10 i ++ ']' :: cs = Nat.toDigits 10 j ++ ']' :: ds) : i = j ∧ cs = ds := by
  have ends : ∀ cs : List Char, Decimal.EndsDigits (']' :: cs) :=
    fun cs => Decimal.endsDigits_cons rfl cs
  have digits : Nat.toDigits 10 i = Nat.toDigits 10 j := by
    have taken := congrArg (List.takeWhile Char.isDigit) h
    rwa [Decimal.takeWhile_digits (Decimal.areDigits_toDigits i) (ends cs),
      Decimal.takeWhile_digits (Decimal.areDigits_toDigits j) (ends ds)] at taken
  refine ⟨?_, ?_⟩
  · rw [← Decimal.digitsValue_toDigits i, digits, Decimal.digitsValue_toDigits]
  · rw [digits, List.append_cancel_left_eq, List.cons.injEq] at h
    exact h.2

/-- The text of a step tells where it ends. -/
theorem chars_append_inj {s t : Segment} {cs ds : List Char} (h : s.chars ++ cs = t.chars ++ ds) :
    s = t ∧ cs = ds := by
  rw [chars_eq, chars_eq, List.append_assoc, List.append_assoc] at h
  cases s with
  | child i =>
    cases t with
    | child j =>
      rw [word, word, List.append_cancel_left_eq, index, index, List.append_assoc,
        List.append_assoc, List.singleton_append, List.singleton_append] at h
      obtain ⟨rfl, same⟩ := digits_append_inj h
      exact ⟨rfl, same⟩
    | yes | no => simp [word] at h
  | yes =>
    cases t with
    | yes => exact ⟨rfl, List.append_cancel_left h⟩
    | child _ | no => simp [word] at h
  | no =>
    cases t with
    | no => exact ⟨rfl, List.append_cancel_left h⟩
    | child _ | yes => simp [word] at h

end Segment

/-- The characters go on like a step of a path. -/
def GoesOn (cs : List Char) : Prop := ∃ s : Segment, s.word <+: cs

theorem goesOn_of_step {s : Segment} {cs ds : List Char} (h : s.chars ++ cs = ds) : GoesOn ds := by
  subst h
  exact ⟨s, s.word_prefix_chars.trans (List.prefix_append _ _)⟩

theorem not_goesOn_nil : ¬ GoesOn [] := by
  rintro ⟨s, start⟩
  have none := List.prefix_nil.1 start
  cases s <;> simp [Segment.word] at none

/-! ## Paths -/

namespace Path

/-- The steps of a path in messages, as characters. -/
def chars (p : Path) : List Char := p.flatMap Segment.chars

theorem toList_render (p : Path) : p.render.toList = "root".toList ++ p.chars := by
  rw [render, String.toList_append]
  congr 1
  induction p with
  | nil => rfl
  | cons s p ih => rw [List.map_cons, String.join_cons, String.toList_append, ih]; rfl

/-- The steps of a path end where what follows does not go on like a step. -/
theorem chars_append_inj {p q : Path} {cs ds : List Char} (hcs : ¬ GoesOn cs) (hds : ¬ GoesOn ds)
    (h : p.chars ++ cs = q.chars ++ ds) : p = q ∧ cs = ds := by
  induction p generalizing q with
  | nil =>
    cases q with
    | nil => exact ⟨rfl, h⟩
    | cons t q =>
      rw [chars, chars, List.flatMap_cons, List.append_assoc] at h
      exact absurd (goesOn_of_step h.symm) hcs
  | cons s p ih =>
    cases q with
    | nil =>
      rw [chars, chars, List.flatMap_cons, List.append_assoc] at h
      exact absurd (goesOn_of_step h) hds
    | cons t q =>
      rw [chars, chars, List.flatMap_cons, List.flatMap_cons, List.append_assoc,
        List.append_assoc] at h
      obtain ⟨rfl, rest⟩ := Segment.chars_append_inj h
      obtain ⟨rfl, same⟩ := ih rest
      exact ⟨rfl, same⟩

theorem render_injective : Function.Injective Path.render := by
  intro p q same
  have chars := congrArg String.toList same
  rw [toList_render, toList_render, List.append_cancel_left_eq] at chars
  refine (chars_append_inj not_goesOn_nil not_goesOn_nil ?_).1
  rw [List.append_nil, List.append_nil, chars]

end Path

/-! ## Places in definitions -/

/-- A name that is no word of a step, as the names of fields are. -/
def IsFieldName (name : String) : Prop := ¬ GoesOn ('.' :: name.toList)

instance (name : String) : Decidable (IsFieldName name) :=
  decidable_of_iff (¬ (Segment.child 0).word <+: '.' :: name.toList ∧
      ¬ Segment.yes.word <+: '.' :: name.toList ∧ ¬ Segment.no.word <+: '.' :: name.toList) <| by
    refine ⟨?_, fun h => ⟨fun start => ?_, fun start => ?_, fun start => ?_⟩⟩
    · rintro ⟨child, yes, no⟩ ⟨s, start⟩
      cases s with
      | child i => exact child start
      | yes => exact yes start
      | no => exact no start
    · exact h ⟨.child 0, start⟩
    · exact h ⟨.yes, start⟩
    · exact h ⟨.no, start⟩

namespace Place

/-- The place of an instruction, or of one of its fields. -/
inductive Stands : Place → Path → Prop
  | node (path : Path) : Stands (.node path) path
  | field {name : String} (path : Path) (plain : IsFieldName name) :
      Stands (.field path name) path

/-- What follows the path in the text of a place. -/
def suffix : Place → List Char
  | field _ name => '.' :: name.toList
  | node _ | document | documentField _ => []

theorem Stands.toList_render {place : Place} {path : Path} (h : place.Stands path) :
    place.render.toList = "root".toList ++ (path.chars ++ place.suffix) ∧
      ¬ GoesOn place.suffix := by
  cases h with
  | node path => exact ⟨by rw [render, Path.toList_render, suffix, List.append_nil], not_goesOn_nil⟩
  | @field name path plain =>
    refine ⟨?_, plain⟩
    rw [render, String.toList_append, String.toList_append, Path.toList_render, suffix,
      List.append_assoc, List.append_assoc]
    rfl

/-- Two places in definitions with the same text are the same. -/
theorem eq_of_render_eq {place place' : Place} {path path' : Path} (h : place.Stands path)
    (h' : place'.Stands path') (same : place.render = place'.render) : place = place' := by
  obtain ⟨text, ends⟩ := h.toList_render
  obtain ⟨text', ends'⟩ := h'.toList_render
  rw [same, text', List.append_cancel_left_eq] at text
  obtain ⟨rfl, suffixes⟩ := Path.chars_append_inj ends' ends text
  cases h with
  | node path =>
    cases h' with
    | node => rfl
    | field => cases suffixes
  | field path =>
    cases h' with
    | node => cases suffixes
    | field =>
      cases String.toList_inj.1 (List.cons.inj suffixes).2
      rfl

end Place

/-! ## Paths of a tree -/

namespace Node

/-- The places of a tree are the paths at which an instruction stands. -/
theorem mem_places_iff {tree : Node} {p : Path} :
    p ∈ tree.places [] ↔ (tree.at? p).isSome = true := by
  refine ⟨fun h => ?_, fun h => ?_⟩
  · obtain ⟨rest, n, rfl, there⟩ := exists_at_of_mem_places h
    simp [there]
  · obtain ⟨n, there⟩ := Option.isSome_iff_exists.1 h
    have here : p ∈ n.places p := by cases n <;> simp [places]
    exact (places_follow_sublist there).subset (List.mem_append_left _ here)

/-- There are as many paths to instructions as instructions. -/
theorem encard_paths (tree : Node) :
    {p : Path | (tree.at? p).isSome = true}.encard = tree.count := by
  have same : {p : Path | (tree.at? p).isSome = true} = ((tree.places []).toFinset : Set Path) := by
    ext p
    rw [Set.mem_ofPred_eq, ← mem_places_iff, Finset.mem_coe, List.mem_toFinset]
  rw [same, Set.encard_coe_eq_coe_finsetCard, List.toFinset_card_of_nodup (nodup_places tree []),
    length_places]

end Node

end Stratagem
