import Stratagem.Market.History

/-!
# Bars in the order of their times

Bars that come in any order are sorted by time, and bars of one time keep their order
(`History.InOrder`). There is one list like this only (`InOrder.unique`), and it is the one that
`History.sortBars` gives (`inOrder_sortBars`). Bars that are left out before sorting are missing
afterwards, and nothing else changes (`sortBars_sublist`).
-/

namespace Stratagem.History

/-- Bars in the order of their times: none is lost or added, and those of one time stand in the
order in which they were given. -/
structure InOrder (bars sorted : List Bar) : Prop where
  perm : sorted.Perm bars
  ascending : sorted.Pairwise fun a b => a.time ≤ b.time
  stable : ∀ time, sorted.filter (fun b => b.time = time) = bars.filter (fun b => b.time = time)

private abbrev before (a b : Bar) : Bool := a.time ≤ b.time

private theorem before_trans (a b c : Bar) (hab : before a b = true) (hbc : before b c = true) :
    before a c = true := by
  simp only [before, decide_eq_true_eq] at *
  exact Instant.le_trans hab hbc

private theorem before_total (a b : Bar) : (before a b || before b a) = true := by
  simp only [before, Bool.or_eq_true, decide_eq_true_eq]
  exact Instant.le_total a.time b.time

theorem pairwise_sortBars (bars : List Bar) :
    (sortBars bars).Pairwise fun a b => a.time ≤ b.time :=
  (List.pairwise_mergeSort before_trans before_total bars).imp decide_eq_true_iff.1

theorem inOrder_sortBars (bars : List Bar) : InOrder bars (sortBars bars) := by
  have perm : (sortBars bars).Perm bars := List.mergeSort_perm bars before
  refine ⟨perm, pairwise_sortBars bars, fun time => ?_⟩
  -- The bars of one time are in order already, so sorting keeps them as a part of the list.
  have own : (bars.filter fun b => b.time = time).Pairwise fun a b => before a b = true := by
    refine List.pairwise_of_forall_mem_list fun a ha b hb => ?_
    simp only [List.mem_filter, decide_eq_true_eq] at ha hb
    simp only [before, decide_eq_true_eq, ha.2, hb.2]
    exact Instant.le_refl time
  have part := (List.sublist_mergeSort before_trans before_total own List.filter_sublist).filter
    (fun b => b.time = time)
  rw [List.filter_filter] at part
  simp only [Bool.and_self] at part
  exact (part.eq_of_length (perm.filter _).length_eq.symm).symm

/-- The order of the times and the order among bars of one time leave no choice. -/
theorem InOrder.unique {bars first second : List Bar} (h : InOrder bars first)
    (h' : InOrder bars second) : first = second := by
  have same : ∀ time, first.filter (fun b => b.time = time) =
      second.filter (fun b => b.time = time) :=
    fun time => (h.stable time).trans (h'.stable time).symm
  have perm : first.Perm second := h.perm.trans h'.perm.symm
  have ascending := h.ascending
  have ascending' := h'.ascending
  clear h h'
  induction first generalizing second with
  | nil => exact (List.nil_perm.1 perm).symm
  | cons a first ih =>
    cases second with
    | nil => exact absurd perm.length_eq (by simp)
    | cons b second =>
      rw [List.pairwise_cons] at ascending ascending'
      have time : a.time = b.time := by
        refine Instant.le_antisymm ?_ ?_
        · rcases List.mem_cons.1 (perm.mem_iff.2 List.mem_cons_self) with rfl | later
          · exact Instant.le_refl _
          · exact ascending.1 b later
        · rcases List.mem_cons.1 (perm.mem_iff.1 List.mem_cons_self) with rfl | later
          · exact Instant.le_refl _
          · exact ascending'.1 a later
      have head : a = b := by
        have own := same a.time
        rw [List.filter_cons_of_pos (by simp), List.filter_cons_of_pos (by simp [time])] at own
        exact (List.cons.inj own).1
      subst head
      refine congrArg (a :: ·)
        (ih (fun t => ?_) (List.perm_cons a |>.1 perm) ascending.2 ascending'.2)
      have rest := same t
      by_cases own : a.time = t
      · rw [List.filter_cons_of_pos (by simpa using own),
          List.filter_cons_of_pos (by simpa using own)] at rest
        exact (List.cons.inj rest).2
      · rwa [List.filter_cons_of_neg (by simpa using own),
          List.filter_cons_of_neg (by simpa using own)] at rest

theorem sortBars_eq_iff {bars sorted : List Bar} : sortBars bars = sorted ↔ InOrder bars sorted :=
  ⟨fun h => h ▸ inOrder_sortBars bars, fun h => (inOrder_sortBars bars).unique h⟩

/-- A further bar in front goes behind the bars that are earlier. -/
private theorem sortBars_cons (a : Bar) (bars : List Bar) :
    ∃ earlier later, sortBars (a :: bars) = earlier ++ a :: later ∧
      sortBars bars = earlier ++ later ∧ (∀ b ∈ earlier, before a b = false) ∧
      ∀ b ∈ later, before a b = true := by
  obtain ⟨earlier, later, sorted, rest, first⟩ :=
    List.mergeSort_cons before_trans before_total a bars
  refine ⟨earlier, later, sorted, rest, fun b hb => by simpa using first b hb, fun b hb => ?_⟩
  have ascending := List.pairwise_mergeSort before_trans before_total (a :: bars)
  rw [sorted, List.pairwise_append, List.pairwise_cons] at ascending
  exact ascending.2.1.1 b hb

private theorem filter_append_of_cut {p : Bar → Bool} {front back : List Bar}
    (hfront : ∀ b ∈ front, p b = false) (hback : ∀ b ∈ back, p b = true) :
    (front ++ back).filter (fun b => !p b) = front ∧ (front ++ back).filter p = back := by
  rw [List.filter_append, List.filter_append, List.filter_eq_self.2 (by simpa using hfront),
    List.filter_eq_nil_iff.2 (by simpa using hback), List.append_nil,
    List.filter_eq_nil_iff.2 (by simpa using hfront), List.filter_eq_self.2 hback, List.nil_append]
  exact ⟨rfl, rfl⟩

/-- Of fewer bars, sorting gives a part of what it gives of all. -/
theorem sortBars_sublist {some all : List Bar} (h : some.Sublist all) :
    (sortBars some).Sublist (sortBars all) := by
  induction h with
  | slnil => exact List.Sublist.refl _
  | @cons some all a h ih =>
    obtain ⟨earlier, later, sorted, rest, -⟩ := sortBars_cons a all
    rw [rest] at ih
    rw [sorted]
    exact ih.middle a
  | @cons_cons some all a h ih =>
    obtain ⟨earlier, later, sorted, rest, front, back⟩ := sortBars_cons a some
    obtain ⟨earlier', later', sorted', rest', front', back'⟩ := sortBars_cons a all
    rw [rest, rest'] at ih
    -- Both lists are cut at the same time, so each part of one is within the part of the other.
    have first := ih.filter fun b => !before a b
    have second := ih.filter (before a)
    rw [(filter_append_of_cut front back).1, (filter_append_of_cut front' back').1] at first
    rw [(filter_append_of_cut front back).2, (filter_append_of_cut front' back').2] at second
    rw [sorted, sorted']
    exact first.append (second.cons_cons a)

end Stratagem.History
