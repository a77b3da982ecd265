import Stratagem.Proofs.Session.Readings

/-!
# What is known of a decision

A decision that is made names a symbol and has positive numbers for quantities (`Decision.Sound`),
whatever the order was read from. Trimming does not make a symbol blank (`isBlankText_trim`).
-/

namespace Stratagem

namespace Text

theorem mem_skipBlanks {c : Char} (solid : isBlank c = false) {cs : List Char} :
    c ∈ skipBlanks cs ↔ c ∈ cs := by
  constructor
  · exact fun h => (List.dropWhile_sublist _).mem h
  · intro h
    rw [← List.takeWhile_append_dropWhile (p := isBlank) (l := cs), List.mem_append] at h
    rcases h with blank | h
    · rw [List.all_eq_true.1 (List.all_takeWhile (p := isBlank)) c blank] at solid
      cases solid
    · exact h

/-- A text without the blanks at its ends is blank only if the text is. -/
theorem isBlankText_trim (s : String) : isBlankText (trim s) = isBlankText s := by
  have mem : ∀ c, isBlank c = false → (c ∈ trimChars s.toList ↔ c ∈ s.toList) := by
    intro c solid
    rw [trimChars, List.mem_reverse, mem_skipBlanks solid, List.mem_reverse, mem_skipBlanks solid]
  rw [Bool.eq_iff_iff]
  simp only [isBlankText, trim, String.toList_ofList, List.all_eq_true]
  constructor
  · intro blank c hc
    cases solid : isBlank c with
    | true => rfl
    | false => rw [← solid, blank c ((mem c solid).2 hc)]
  · intro blank c hc
    cases solid : isBlank c with
    | true => rfl
    | false => rw [← solid, blank c ((mem c solid).1 hc)]

end Text

namespace Decision

/-- A quantity that a decision may have. -/
def Positive (x : Float) : Prop := x.isFinite = true ∧ 0.0 < x

/-- What is known of a decision. -/
structure Sound (d : Decision) : Prop where
  symbol : Text.isBlankText d.symbol = false
  size : Positive d.size
  price : ∀ x ∈ d.price, Positive x
  stop : ∀ x ∈ d.stop, Positive x

theorem positive_of_check {q : Quantity} {x : Float} (h : checkPositive q x = .ok ()) :
    Positive x := by
  unfold checkPositive at h
  split at h
  · rename_i inside
    rw [Bool.and_eq_true, decide_eq_true_eq] at inside
    exact inside
  · cases h

theorem positive_of_checkOptional {q : Quantity} {given : Option Float}
    (h : checkOptional q given = .ok ()) : ∀ x ∈ given, Positive x := by
  rintro x rfl
  exact positive_of_check h

theorem sound_make {symbol : String} {side : Side} {size : Float} {price stop : Option Float}
    {time : Instant} {d : Decision} (h : make symbol side size price stop time = .ok d) :
    d.Sound ∧ d.time = time := by
  unfold make at h
  split at h
  · cases h
  · rename_i named
    obtain ⟨⟨⟩, hsize, h⟩ := bind_eq_ok.1 h
    obtain ⟨⟨⟩, hprice, h⟩ := bind_eq_ok.1 h
    obtain ⟨⟨⟩, hstop, h⟩ := bind_eq_ok.1 h
    cases h
    refine ⟨⟨?_, positive_of_check hsize, positive_of_checkOptional hprice,
      positive_of_checkOptional hstop⟩, rfl⟩
    rw [Text.isBlankText_trim]
    exact Bool.eq_false_iff.2 named

end Decision

/-- The decision that an order leads to is sound, and carries the time of the latest bar. -/
theorem Context.sound_of_decision {c : Context} {o : Order} {d : Decision}
    (h : c.decision o = .ok d) : d.Sound ∧ c.latestBar?.map Bar.time = some d.time := by
  unfold decision at h
  cases hbar : c.latestBar? with
  | none =>
    rw [hbar] at h
    cases h
  | some bar =>
    simp only [hbar] at h
    obtain ⟨side, -, h⟩ := bind_eq_ok.1 h
    obtain ⟨size, -, h⟩ := bind_eq_ok.1 h
    obtain ⟨price, -, h⟩ := bind_eq_ok.1 h
    obtain ⟨stop, -, h⟩ := bind_eq_ok.1 h
    obtain ⟨sound, time⟩ := Decision.sound_make (mapError_eq_ok.1 h)
    exact ⟨sound, congrArg some time.symm⟩

end Stratagem
