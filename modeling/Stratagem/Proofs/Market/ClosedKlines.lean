import Stratagem.Market.Klines
import Stratagem.Proofs.Chains
import Stratagem.Proofs.Market.Rows
import Stratagem.Proofs.Market.Sorting

/-!
# Closed klines

What an answer of an exchange is read as. Every row must have six fields and begin with a time
(`Klines.Dated`). Of the rows that are not still open (`StillOpen`) each must have five numbers and
gives a bar (`Gives`); of the others nothing more is asked. `rowBars_eq_ok_iff` says that this is
all that reading the rows does. The bars are then sorted.

A row that is closed stays closed, so with time bars are added to an answer and none is lost.
-/

namespace Stratagem.Klines

/-- The number of a field, which is given as such or as a text. -/
def number? : Json → Option Float
  | .text s => (Decimal.read s).toOption
  | .int n => some (Float.ofInt n)
  | .float x => some x
  | _ => none

/-- The time of a field, which is given in milliseconds. -/
def time? (v : Json) : Option Instant := v.int64?.bind Instant.ofMillis?

/-- A row of at least six fields, the first of which is a time. -/
structure Dated (fields : List Json) (time : Instant) : Prop where
  six : 6 ≤ fields.length
  opens : fields[0]?.bind time? = some time

/-- The field behind the six is a time to come. -/
def StillOpen (now : Int) (fields : List Json) : Prop :=
  ∃ t ∈ fields[6]?.bind Json.int64?, now < t

/-- A row with a time and five numbers gives the bar of these. -/
abbrev Gives : List Json → Bar → Prop := Bar.ReadOff time? number?

theorem dated_of_gives {fields : List Json} {bar : Bar} (h : Gives fields bar) :
    Dated fields bar.time :=
  ⟨h.six, h.time⟩

instance (now : Int) (fields : List Json) : Decidable (StillOpen now fields) :=
  match h : fields[6]?.bind Json.int64? with
  | some t => decidable_of_iff (now < t) (by simp [StillOpen, h])
  | none => .isFalse (by simp [StillOpen, h])

/-! ## One row -/

theorem number_eq_ok_iff {row : Nat} {column : String} {v : Json} {x : Float} :
    number row column v = .ok x ↔ number? v = some x := by
  cases v with
  | text s =>
    cases h : Decimal.read s <;> simp [number, number?, h, Except.mapError, Except.toOption]
  | _ => simp [number, number?]

theorem isOpen_iff {now : Int} {a b c d e f : Json} {more : List Json} :
    isOpen now more = true ↔ StillOpen now (a :: b :: c :: d :: e :: f :: more) := by
  simp [isOpen, StillOpen, List.head?_eq_getElem?, Option.any_eq_true]

/-- A row of fewer fields cannot be read. -/
theorem rowBar?_eq_ok_six {now : Int} {row : Nat} {v : Json} {bar? : Option Bar}
    (h : rowBar? now row v = .ok bar?) : ∃ a b c d e f more,
      v = .array (a :: b :: c :: d :: e :: f :: more) := by
  unfold rowBar? at h
  split at h
  · exact ⟨_, _, _, _, _, _, _, rfl⟩
  · cases h

theorem rowBar?_of_six {now : Int} {row : Nat} {a b c d e f : Json} {more : List Json}
    {bar? : Option Bar} :
    rowBar? now row (.array (a :: b :: c :: d :: e :: f :: more)) = .ok bar? ↔
      if StillOpen now (a :: b :: c :: d :: e :: f :: more) then
        bar? = none ∧ ∃ time, Dated (a :: b :: c :: d :: e :: f :: more) time
      else ∃ bar, bar? = some bar ∧ Gives (a :: b :: c :: d :: e :: f :: more) bar := by
  have six : 6 ≤ (a :: b :: c :: d :: e :: f :: more).length := by simp
  unfold rowBar?
  cases htime : time? a with
  | none =>
    have undated : ∀ time, ¬Dated (a :: b :: c :: d :: e :: f :: more) time :=
      fun time dated => nomatch htime.symm.trans dated.opens
    have barless : ∀ bar, ¬Gives (a :: b :: c :: d :: e :: f :: more) bar :=
      fun bar gives => undated _ (dated_of_gives gives)
    simp only [undated, barless, exists_false, and_false, ite_self, iff_false]
    split
    · exact nofun
    · rename_i millis hmillis
      simp only [time?, hmillis, Option.bind_some] at htime
      simp [htime]
  | some time =>
    obtain ⟨millis, hmillis, hin⟩ := Option.bind_eq_some_iff.1 htime
    simp only [hmillis, hin, isOpen_iff (a := a) (b := b) (c := c) (d := d) (e := e) (f := f)]
    split
    · rw [Except.ok.injEq, eq_comm]
      exact (and_iff_left ⟨time, six, htime⟩).symm
    · simp only [bind_eq_ok, number_eq_ok_iff, pure, Except.pure, Except.ok.injEq]
      constructor
      · rintro ⟨x₁, h₁, x₂, h₂, x₃, h₃, x₄, h₄, x₅, h₅, rfl⟩
        exact ⟨_, rfl, htime, h₁, h₂, h₃, h₄, h₅⟩
      · rintro ⟨bar, rfl, own, h₁, h₂, h₃, h₄, h₅⟩
        cases htime.symm.trans own
        exact ⟨_, h₁, _, h₂, _, h₃, _, h₄, _, h₅, rfl⟩

/-- A row is read if it has a time and is still open, or gives a bar. -/
theorem rowBar?_eq_ok_iff {now : Int} {row : Nat} {v : Json} {bar? : Option Bar} :
    rowBar? now row v = .ok bar? ↔ ∃ fields, v = .array fields ∧
      if StillOpen now fields then bar? = none ∧ ∃ time, Dated fields time
      else ∃ bar, bar? = some bar ∧ Gives fields bar := by
  constructor
  · intro h
    obtain ⟨a, b, c, d, e, f, more, rfl⟩ := rowBar?_eq_ok_six h
    exact ⟨_, rfl, rowBar?_of_six.1 h⟩
  · rintro ⟨fields, rfl, h⟩
    have six : 6 ≤ fields.length := by
      split at h
      · exact h.2.choose_spec.six
      · exact h.choose_spec.2.six
    match fields, six with
    | a :: b :: c :: d :: e :: f :: more, _ => exact rowBar?_of_six.2 h

/-- A row that is still open later was open before. -/
theorem StillOpen.before {now later : Int} (h : now ≤ later) {fields : List Json}
    (still : StillOpen later fields) : StillOpen now fields := by
  obtain ⟨t, ht, future⟩ := still
  exact ⟨t, ht, by omega⟩

/-! ## All rows -/

/-- The rows whose times have come. -/
def closedRows (now : Int) (rows : List (List Json)) : List (List Json) :=
  rows.filter fun fields => ¬StillOpen now fields

theorem closedRows_sublist {now later : Int} (h : now ≤ later) (rows : List (List Json)) :
    (closedRows now rows).Sublist (closedRows later rows) := by
  refine List.monotone_filter_right rows fun fields closed => ?_
  simp only [decide_eq_true_eq] at closed ⊢
  exact mt (StillOpen.before h) closed

theorem rowBars_eq_ok_iff {now : Int} {row : Nat} {vs : List Json} {closed : List Bar} :
    rowBars now row vs = .ok closed ↔ ∃ rows : List (List Json), vs = rows.map .array ∧
      (∀ fields ∈ rows, ∃ time, Dated fields time) ∧
      List.Forall₂ Gives (closedRows now rows) closed := by
  induction vs generalizing row closed with
  | nil =>
    simp only [rowBars, Except.ok.injEq, List.nil_eq, List.map_eq_nil_iff, exists_eq_left]
    simp [closedRows]
  | cons v vs ih =>
    simp only [rowBars, bind_eq_ok, rowBar?_eq_ok_iff, ih, pure, Except.pure, Except.ok.injEq]
    constructor
    · rintro ⟨bar?, ⟨fields, rfl, first⟩, bars, ⟨rows, rfl, dated, gives⟩, rfl⟩
      refine ⟨fields :: rows, rfl, ?_, ?_⟩
      · refine List.forall_mem_cons.2 ⟨?_, dated⟩
        split at first
        · exact first.2
        · obtain ⟨bar, -, own⟩ := first
          exact ⟨_, dated_of_gives own⟩
      · unfold closedRows
        split at first
        · rename_i still
          rw [List.filter_cons_of_neg (by simpa using still), first.1]
          exact gives
        · rename_i past
          obtain ⟨bar, rfl, own⟩ := first
          rw [List.filter_cons_of_pos (by simpa using past)]
          exact .cons own gives
    · rintro ⟨_ | ⟨fields, rows⟩, eq, dated, gives⟩
      · cases eq
      · cases eq
        obtain ⟨own, dated⟩ := List.forall_mem_cons.1 dated
        unfold closedRows at gives
        by_cases still : StillOpen now fields
        · rw [List.filter_cons_of_neg (by simpa using still)] at gives
          exact ⟨none, ⟨fields, rfl, by rw [if_pos still]; exact ⟨rfl, own⟩⟩, closed,
            ⟨rows, rfl, dated, gives⟩, rfl⟩
        · rw [List.filter_cons_of_pos (by simpa using still)] at gives
          cases gives with
          | @cons _ bar _ bars own gives =>
            exact ⟨some bar, ⟨fields, rfl, by rw [if_neg still]; exact ⟨bar, rfl, own⟩⟩, bars,
              ⟨rows, rfl, dated, gives⟩, rfl⟩

/-! ## The answer -/

theorem bars_eq_ok_iff {body : Json} {now : Int} {bs : List Bar} :
    bars body now = .ok bs ↔ ∃ rows : List (List Json), body = .array (rows.map .array) ∧
      (∀ fields ∈ rows, ∃ time, Dated fields time) ∧
      ∃ closed, List.Forall₂ Gives (closedRows now rows) closed ∧ History.InOrder closed bs := by
  have read : bars body now = .ok bs ↔
      ∃ vs closed, body = .array vs ∧ rowBars now 0 vs = .ok closed ∧
        History.sortBars closed = bs := by
    unfold bars
    cases body with
    | array vs =>
      simp only [mapError_eq_ok, Json.array.injEq, exists_and_left, exists_eq_left']
      cases rowBars now 0 vs <;> simp [Except.map]
    | _ => simp
  rw [read]
  constructor
  · rintro ⟨vs, closed, rfl, hrows, sorted⟩
    obtain ⟨rows, rfl, dated, gives⟩ := rowBars_eq_ok_iff.1 hrows
    exact ⟨rows, rfl, dated, closed, gives, History.sortBars_eq_iff.1 sorted⟩
  · rintro ⟨rows, rfl, dated, closed, gives, sorted⟩
    exact ⟨_, closed, rfl, rowBars_eq_ok_iff.2 ⟨rows, rfl, dated, gives⟩,
      History.sortBars_eq_iff.2 sorted⟩

/-- An answer is read if it consists of rows with times of which those that are over give bars. It
is read as the bars of just these rows, in the order of their times. What is read later has all
bars that are read now, in the same order. -/
theorem reads_closed_klines (body : Json) :
    (∀ now, (∃ bs, bars body now = .ok bs) ↔
      ∃ rows : List (List Json), body = .array (rows.map .array) ∧
        ∀ fields ∈ rows, (∃ time, Dated fields time) ∧
          (¬StillOpen now fields → ∃ bar, Gives fields bar)) ∧
    (∀ now bs, bars body now = .ok bs →
      ∃ (rows : List (List Json)) (closed : List Bar), body = .array (rows.map .array) ∧
        List.Forall₂ Gives (closedRows now rows) closed ∧ History.InOrder closed bs) ∧
    ∀ now later early late, now ≤ later → bars body now = .ok early → bars body later = .ok late →
      early.Sublist late := by
  refine ⟨fun now => ⟨?_, ?_⟩, ?_, ?_⟩
  · rintro ⟨bs, h⟩
    obtain ⟨rows, rfl, dated, closed, gives, -⟩ := bars_eq_ok_iff.1 h
    refine ⟨rows, rfl, fun fields hfields => ⟨dated fields hfields, fun past => ?_⟩⟩
    exact Bar.ReadOff.exists_forall₂_iff.1 ⟨closed, gives⟩ fields
      (List.mem_filter.2 ⟨hfields, decide_eq_true past⟩)
  · rintro ⟨rows, rfl, good⟩
    have each : ∀ fields ∈ closedRows now rows, ∃ bar, Gives fields bar := by
      intro fields hfields
      obtain ⟨mem, past⟩ := List.mem_filter.1 hfields
      exact (good fields mem).2 (of_decide_eq_true past)
    obtain ⟨closed, gives⟩ := Bar.ReadOff.exists_forall₂_iff.2 each
    exact ⟨_, bars_eq_ok_iff.2 ⟨rows, rfl, fun fields h => (good fields h).1, closed, gives,
      History.inOrder_sortBars closed⟩⟩
  · intro now bs h
    obtain ⟨rows, rfl, -, closed, gives, sorted⟩ := bars_eq_ok_iff.1 h
    exact ⟨rows, closed, rfl, gives, sorted⟩
  · intro now later early late hle hearly hlate
    obtain ⟨rows, rfl, -, closed, gives, sorted⟩ := bars_eq_ok_iff.1 hearly
    obtain ⟨rows', same, -, closed', gives', sorted'⟩ := bars_eq_ok_iff.1 hlate
    obtain rfl : rows = rows' :=
      List.map_injective_iff.2 (fun _ _ => Json.array.inj) (Json.array.inj same)
    rw [← History.sortBars_eq_iff] at sorted sorted'
    rw [← sorted, ← sorted']
    exact History.sortBars_sublist (Bar.ReadOff.sublist (closedRows_sublist hle rows) gives gives')

/-- Two rows in the wrong order, of which one is over at 5 and both are at 15. -/
def swappedRows : List (List Json) :=
  [[.int 2, .int 1, .int 1, .int 1, .int 1, .int 0, .int 10],
    [.int 1, .int 1, .int 1, .int 1, .int 1, .int 0, .int 3]]

theorem reads_closed_klines_swappedRows : ∃ early late : List Bar,
    bars (.array (swappedRows.map .array)) 5 = .ok early ∧
    bars (.array (swappedRows.map .array)) 15 = .ok late ∧
    early.Sublist late ∧ early.length = 1 ∧ late.length = 2 := by
  obtain ⟨reads, sorted, grows⟩ := reads_closed_klines (.array (swappedRows.map .array))
  have good : ∀ fields ∈ swappedRows, ∃ bar, Gives fields bar :=
    List.forall_mem_cons.2 ⟨⟨⟨_, _, _, _, _, _⟩, rfl, rfl, rfl, rfl, rfl, rfl⟩,
      List.forall_mem_cons.2 ⟨⟨⟨_, _, _, _, _, _⟩, rfl, rfl, rfl, rfl, rfl, rfl⟩, nofun⟩⟩
  have read : ∀ now, ∃ bs, bars (.array (swappedRows.map .array)) now = .ok bs := fun now =>
    (reads now).2 ⟨swappedRows, rfl, fun fields h =>
      ⟨(good fields h).imp' Bar.time fun _ => dated_of_gives, fun _ => good fields h⟩⟩
  have count : ∀ now bs, bars (.array (swappedRows.map .array)) now = .ok bs →
      bs.length = (closedRows now swappedRows).length := by
    intro now bs h
    obtain ⟨rows, closed, same, gives, inOrder⟩ := sorted now bs h
    cases List.map_injective_iff.2 (fun _ _ => Json.array.inj) (Json.array.inj same)
    rw [inOrder.perm.length_eq, ← gives.length_eq]
  obtain ⟨early, hearly⟩ := read 5
  obtain ⟨late, hlate⟩ := read 15
  exact ⟨early, late, hearly, hlate, grows 5 15 early late (by decide) hearly hlate,
    count 5 early hearly, count 15 late hlate⟩

end Stratagem.Klines
