import Stratagem.Market.Archive
import Stratagem.Proofs.Chains
import Stratagem.Proofs.Market.Rows
import Stratagem.Proofs.Market.Sorting

/-!
# Stored histories

A table is read whole or not at all. A record is read if it is as wide as the header and gives a
bar (`History.Sound`). The first record that is not read decides what is said of the table
(`Faulty`): the place of a record of another width, and otherwise the line that the record would
have in a plain table, with the first field of it that is missing or wrong (`Blames`).
-/

namespace Stratagem.History

/-- The number of a field, which may stand between blanks. -/
def number? (text : String) : Option Float := (Decimal.read (Text.trim text)).toOption

/-- A row with a time and five numbers gives the bar of these. -/
abbrev Gives : List String → Bar → Prop := Bar.ReadOff Instant.read? number?

/-- The columns of numbers, which stand behind that of the times. -/
def numberColumns : List String := ["open", "high", "low", "close", "volume"]

/-- What is wrong with a row: its first field that is missing or cannot be read. -/
inductive Blames (fields : List String) : String → Prop
  | noTime (missing : fields[0]? = none) : Blames fields "missing timestamp column"
  | badTime {text : String} (found : fields[0]? = some text) (bad : Instant.read? text = none) :
      Blames fields s!"invalid timestamp '{text}'"
  | noNumber {k : Nat} {column : String} (timed : (fields[0]?.bind Instant.read?).isSome)
      (named : numberColumns[k]? = some column)
      (earlier : ∀ j < k, (fields[j + 1]?.bind number?).isSome) (missing : fields[k + 1]? = none) :
      Blames fields s!"missing {column} column"
  | badNumber {k : Nat} {column text : String} {error : Decimal.ReadError}
      (timed : (fields[0]?.bind Instant.read?).isSome) (named : numberColumns[k]? = some column)
      (earlier : ∀ j < k, (fields[j + 1]?.bind number?).isSome)
      (found : fields[k + 1]? = some text) (bad : Decimal.read (Text.trim text) = .error error) :
      Blames fields s!"invalid {column} value '{text}': {error.message}"

/-- A record that gives a bar, under a header of some width. -/
structure Sound (width : Nat) (r : Record) (bar : Bar) : Prop where
  width : r.fields.length = width
  gives : Gives r.fields bar

/-- What is said of a record that gives no bar. The records behind the header count from zero. -/
inductive Faulty (width index : Nat) (r : Record) : String → Prop
  | width (odd : r.fields.length ≠ width) :
      Faulty width index r ("CSV parse error: CSV error: " ++
        s!"record {toString (index + 1)} " ++
        s!"(line: {toString r.place.line}, byte: {toString r.place.byte}): " ++
        s!"found record with {toString r.fields.length} fields, " ++
        s!"but the previous record has {toString width} fields")
  | field {what : String} (even : r.fields.length = width) (blames : Blames r.fields what) :
      Faulty width index r (s!"line {toString (index + 2)}: " ++ what)

/-! ## The numbers of a row -/

variable {line : Nat} {fields : List String}

theorem number_eq_ok_iff {index : Nat} {column : String} {x : Float} :
    number line fields index column = .ok x ↔ fields[index]?.bind number? = some x := by
  cases hfield : fields[index]? with
  | none => simp [number, field, hfield, bind, Except.bind]
  | some text =>
    cases hread : Decimal.read (Text.trim text) <;>
      simp [number, field, hfield, number?, hread, bind, Except.bind, pure, Except.pure, throw,
        throwThe, MonadExceptOf.throw, Except.toOption]

theorem number_eq_error_iff {index : Nat} {column : String} {fault : RowFault} :
    number line fields index column = .error fault ↔
      (fields[index]? = none ∧ fault = .missing line column) ∨
      ∃ text error, fields[index]? = some text ∧ Decimal.read (Text.trim text) = .error error ∧
        fault = .badNumber line column text error := by
  cases hfield : fields[index]? with
  | none => simp [number, field, hfield, bind, Except.bind, eq_comm]
  | some text =>
    cases hread : Decimal.read (Text.trim text) <;>
      simp [number, field, hfield, hread, bind, Except.bind, pure, Except.pure, throw,
        throwThe, MonadExceptOf.throw, eq_comm]

/-- The numbers of a row under some columns, the first of which has a given index. -/
def numbers (line : Nat) (fields : List String) : Nat → List String → Except RowFault (List Float)
  | _, [] => .ok []
  | index, column :: columns => do
    let x ← number line fields index column
    let xs ← numbers line fields (index + 1) columns
    return x :: xs

theorem numbers_eq_error_iff {index : Nat} {columns : List String} {fault : RowFault} :
    numbers line fields index columns = .error fault ↔
      ∃ k column, columns[k]? = some column ∧
        (∀ j < k, (fields[j + index]?.bind number?).isSome) ∧
        number line fields (k + index) column = .error fault := by
  induction columns generalizing index with
  | nil => simp [numbers]
  | cons first columns ih =>
    simp only [numbers, bind_eq_error, ih, number_eq_ok_iff, pure, Except.pure, reduceCtorEq,
      and_false, exists_false, or_false]
    constructor
    · rintro (h | ⟨x, hx, k, column, named, earlier, h⟩)
      · exact ⟨0, first, rfl, nofun, by rwa [Nat.zero_add]⟩
      · refine ⟨k + 1, column, named, ?_, by rwa [Nat.add_right_comm]⟩
        rintro (_ | j) hj
        · rw [Nat.zero_add, hx, Option.isSome_some]
        · rw [Nat.add_right_comm]
          exact earlier j (Nat.lt_of_succ_lt_succ hj)
    · rintro ⟨_ | k, column, named, earlier, h⟩
      · obtain rfl := Option.some.inj named
        exact .inl (by rwa [Nat.zero_add] at h)
      · have own := earlier 0 k.succ_pos
        rw [Nat.zero_add] at own
        refine .inr ⟨_, Option.eq_some_of_isSome own, k, column, named, fun j hj => ?_, ?_⟩
        · have next := earlier (j + 1) (Nat.succ_lt_succ hj)
          rwa [Nat.add_right_comm] at next
        · rwa [Nat.add_right_comm] at h

/-! ## One row -/

theorem rowBar_eq_ok_iff {bar : Bar} : rowBar line fields = .ok bar ↔ Gives fields bar := by
  cases hstamp : fields[0]? with
  | none =>
    simp only [rowBar, field, hstamp, bind, Except.bind, reduceCtorEq, false_iff]
    intro gives
    have timed := gives.time
    rw [hstamp] at timed
    cases timed
  | some stamp =>
    cases htime : Instant.read? stamp with
    | none =>
      simp only [rowBar, field, hstamp, bind, Except.bind, htime, throw, throwThe,
        MonadExceptOf.throw, reduceCtorEq, false_iff]
      intro gives
      have timed := gives.time
      rw [hstamp, Option.bind_some, htime] at timed
      cases timed
    | some time =>
      have timed : fields[0]?.bind Instant.read? = some time := by
        rw [hstamp, Option.bind_some, htime]
      unfold rowBar field
      rw [hstamp]
      simp only [bind_eq_ok, Except.ok.injEq, exists_eq_left', htime, number_eq_ok_iff, pure,
        Except.pure]
      constructor
      · rintro ⟨x₁, h₁, x₂, h₂, x₃, h₃, x₄, h₄, x₅, h₅, rfl⟩
        exact ⟨timed, h₁, h₂, h₃, h₄, h₅⟩
      · rintro ⟨own, h₁, h₂, h₃, h₄, h₅⟩
        cases timed.symm.trans own
        exact ⟨_, h₁, _, h₂, _, h₃, _, h₄, _, h₅, rfl⟩

/-- Behind its time, a row fails where its numbers fail. -/
theorem rowBar_eq_error_iff_numbers {stamp : String} {time : Instant} {fault : RowFault}
    (hstamp : fields[0]? = some stamp) (htime : Instant.read? stamp = some time) :
    rowBar line fields = .error fault ↔ numbers line fields 1 numberColumns = .error fault := by
  unfold rowBar field
  rw [hstamp]
  simp [numbers, numberColumns, bind_eq_error, htime, pure, Except.pure]

/-! Every fault of a row names its line first. -/

theorem describe_missing (line : Nat) (column : String) :
    (RowFault.missing line column).describe =
      s!"line {toString line}: " ++ s!"missing {column} column" := by
  unfold RowFault.describe
  rw [show ": missing " = ": " ++ "missing " from rfl]
  simp only [toString, String.append_assoc]

theorem describe_badTime (line : Nat) (text : String) :
    (RowFault.badTime line text).describe =
      s!"line {toString line}: " ++ s!"invalid timestamp '{text}'" := by
  unfold RowFault.describe
  rw [show ": invalid timestamp '" = ": " ++ "invalid timestamp '" from rfl]
  simp only [toString, String.append_assoc]

theorem describe_badNumber (line : Nat) (column text : String) (error : Decimal.ReadError) :
    (RowFault.badNumber line column text error).describe =
      s!"line {toString line}: " ++ s!"invalid {column} value '{text}': {error.message}" := by
  unfold RowFault.describe
  rw [show ": invalid " = ": " ++ "invalid " from rfl]
  simp only [toString, String.append_assoc]

/-- A row fails with the first of its fields that is missing or cannot be read. -/
theorem rowBar_eq_error_iff {message : String} :
    (∃ fault, rowBar line fields = .error fault ∧ fault.describe = message) ↔
      ∃ what, Blames fields what ∧ message = s!"line {toString line}: " ++ what := by
  constructor
  · rintro ⟨fault, h, rfl⟩
    cases hstamp : fields[0]? with
    | none =>
      obtain rfl : RowFault.missing line "timestamp" = fault := by
        simpa [rowBar, field, hstamp, bind, Except.bind] using h
      exact ⟨_, .noTime hstamp, describe_missing line _⟩
    | some stamp =>
      cases htime : Instant.read? stamp with
      | none =>
        obtain rfl : RowFault.badTime line stamp = fault := by
          simpa [rowBar, field, hstamp, bind, Except.bind, htime, throw, throwThe,
            MonadExceptOf.throw] using h
        exact ⟨_, .badTime hstamp htime, describe_badTime line stamp⟩
      | some time =>
        have timed : (fields[0]?.bind Instant.read?).isSome := by
          rw [hstamp, Option.bind_some, htime, Option.isSome_some]
        rw [rowBar_eq_error_iff_numbers hstamp htime, numbers_eq_error_iff] at h
        obtain ⟨k, column, named, earlier, h⟩ := h
        obtain ⟨missing, rfl⟩ | ⟨text, error, found, bad, rfl⟩ := number_eq_error_iff.1 h
        · exact ⟨_, .noNumber timed named earlier missing, describe_missing line column⟩
        · exact ⟨_, .badNumber timed named earlier found bad,
            describe_badNumber line column text error⟩
  · rintro ⟨what, blames, rfl⟩
    -- Behind a time, a fault of a number is the fault of the row.
    have numbers_fault : ∀ {k column fault}, (fields[0]?.bind Instant.read?).isSome →
        numberColumns[k]? = some column → (∀ j < k, (fields[j + 1]?.bind number?).isSome) →
        number line fields (k + 1) column = .error fault → rowBar line fields = .error fault := by
      intro k column fault timed named earlier h
      obtain ⟨time, htime⟩ := Option.isSome_iff_exists.1 timed
      obtain ⟨stamp, hstamp, htime⟩ := Option.bind_eq_some_iff.1 htime
      rw [rowBar_eq_error_iff_numbers hstamp htime, numbers_eq_error_iff]
      exact ⟨k, column, named, earlier, h⟩
    cases blames with
    | noTime missing =>
      exact ⟨.missing line "timestamp", by simp [rowBar, field, missing, bind, Except.bind],
        describe_missing line _⟩
    | badTime found bad =>
      exact ⟨.badTime line _,
        by simp [rowBar, field, found, bind, Except.bind, bad, throw, throwThe,
          MonadExceptOf.throw],
        describe_badTime line _⟩
    | noNumber timed named earlier missing =>
      exact ⟨_, numbers_fault timed named earlier (number_eq_error_iff.2 (.inl ⟨missing, rfl⟩)),
        describe_missing line _⟩
    | badNumber timed named earlier found bad =>
      exact ⟨_, numbers_fault timed named earlier
        (number_eq_error_iff.2 (.inr ⟨_, _, found, bad, rfl⟩)), describe_badNumber line _ _ _⟩

/-! ## All records -/

/-- The bar of a record, which has a given number among all records. -/
def recordBar (width index : Nat) (r : Record) : Except RowFault Bar :=
  if r.fields.length ≠ width then .error (.fieldCount index r.place r.fields.length width)
  else rowBar (index + 1) r.fields

variable {width index : Nat} {r : Record} {rs : List Record}

theorem rowBars_cons : rowBars width index (r :: rs) = do
    let bar ← recordBar width index r
    let bars ← rowBars width (index + 1) rs
    return bar :: bars := by
  by_cases h : r.fields.length = width <;>
    simp [rowBars, recordBar, h, bind, Except.bind, throw, throwThe, MonadExceptOf.throw]

theorem recordBar_eq_ok_iff {bar : Bar} :
    recordBar width index r = .ok bar ↔ Sound width r bar := by
  unfold recordBar
  split
  · rename_i odd
    exact ⟨nofun, fun sound => absurd sound.width odd⟩
  · rename_i even
    rw [rowBar_eq_ok_iff]
    exact ⟨fun gives => ⟨of_not_not even, gives⟩, Sound.gives⟩

theorem recordBar_eq_error_iff {message : String} :
    (∃ fault, recordBar width (index + 1) r = .error fault ∧ fault.describe = message) ↔
      Faulty width index r message := by
  unfold recordBar
  split
  · rename_i odd
    constructor
    · rintro ⟨_, ⟨⟩, rfl⟩
      exact .width odd
    · rintro (_ | ⟨even, -⟩)
      · exact ⟨_, rfl, rfl⟩
      · exact absurd even odd
  · rename_i even
    rw [rowBar_eq_error_iff]
    constructor
    · rintro ⟨what, blames, rfl⟩
      exact .field (of_not_not even) blames
    · rintro (odd | ⟨-, blames⟩)
      · exact absurd odd even
      · exact ⟨_, blames, rfl⟩

theorem rowBars_eq_ok_iff {bars : List Bar} :
    rowBars width index rs = .ok bars ↔ List.Forall₂ (Sound width) rs bars := by
  induction rs generalizing index bars with
  | nil => simp [rowBars, eq_comm]
  | cons r rs ih =>
    rw [rowBars_cons, List.forall₂_cons_left_iff]
    simp only [bind_eq_ok, recordBar_eq_ok_iff, ih, pure, Except.pure, Except.ok.injEq]
    simp only [exists_and_left, eq_comm]

/-- A table fails at its first record that is not read. -/
theorem rowBars_eq_error_iff {fault : RowFault} :
    rowBars width index rs = .error fault ↔ ∃ before r after, rs = before ++ r :: after ∧
      (∀ q ∈ before, ∃ bar, Sound width q bar) ∧
      recordBar width (index + before.length) r = .error fault := by
  induction rs generalizing index with
  | nil => simp [rowBars]
  | cons r rs ih =>
    rw [rowBars_cons]
    simp only [bind_eq_error, recordBar_eq_ok_iff, ih, pure, Except.pure, reduceCtorEq, and_false,
      exists_false, or_false]
    constructor
    · rintro (h | ⟨bar, sound, before, q, after, rfl, earlier, h⟩)
      · exact ⟨[], r, rs, rfl, nofun, h⟩
      · refine ⟨r :: before, q, after, rfl, List.forall_mem_cons.2 ⟨⟨bar, sound⟩, earlier⟩, ?_⟩
        rwa [List.length_cons, ← Nat.add_assoc, Nat.add_right_comm]
    · rintro ⟨_ | ⟨r', before⟩, q, after, split, earlier, h⟩
      · cases split
        exact .inl h
      · cases split
        obtain ⟨⟨bar, sound⟩, earlier⟩ := List.forall_mem_cons.1 earlier
        rw [List.length_cons, ← Nat.add_assoc, Nat.add_right_comm] at h
        exact .inr ⟨bar, sound, before, q, after, rfl, earlier, h⟩

/-! ## The table -/

/-- The records of a table behind its header. -/
def rows (records : List Record) : List Record := records.tail

/-- The number of columns of a table. -/
def headerWidth (records : List Record) : Nat :=
  records.head?.elim 0 fun header => header.fields.length

theorem ofRecords_eq (records : List Record) :
    ofRecords records = (rowBars (headerWidth records) 1 (rows records)).map sortBars := by
  cases records with
  | nil => simp [ofRecords, rows, rowBars, Except.map, sortBars]
  | cons header rs => rfl

variable {split : String → List Record} {text : String}

theorem ofText_eq_error_iff {e : FeedError} :
    ofText split text = .error e ↔ ∃ before r after message,
      rows (split text) = before ++ r :: after ∧
      (∀ q ∈ before, ∃ bar, Sound (headerWidth (split text)) q bar) ∧
      Faulty (headerWidth (split text)) before.length r message ∧ e = .malformed message := by
  have fails : ∀ fault, ofRecords (split text) = .error fault ↔
      rowBars (headerWidth (split text)) 1 (rows (split text)) = .error fault := by
    intro fault
    rw [ofRecords_eq]
    cases rowBars (headerWidth (split text)) 1 (rows (split text)) <;> simp [Except.map]
  simp only [ofText, mapError_eq_error, fails, rowBars_eq_error_iff, Nat.add_comm 1]
  constructor
  · rintro ⟨fault, ⟨before, r, after, cut, earlier, h⟩, rfl⟩
    exact ⟨before, r, after, _, cut, earlier, recordBar_eq_error_iff.1 ⟨fault, h, rfl⟩, rfl⟩
  · rintro ⟨before, r, after, message, cut, earlier, faulty, rfl⟩
    obtain ⟨fault, h, rfl⟩ := recordBar_eq_error_iff.2 faulty
    exact ⟨fault, ⟨before, r, after, cut, earlier, h⟩, rfl⟩

theorem ofText_eq_ok_iff {bars : List Bar} :
    ofText split text = .ok bars ↔ ∃ unsorted,
      List.Forall₂ (Sound (headerWidth (split text))) (rows (split text)) unsorted ∧
        InOrder unsorted bars := by
  have gives : ∀ unsorted,
      List.Forall₂ (Sound (headerWidth (split text))) (rows (split text)) unsorted ↔
        rowBars (headerWidth (split text)) 1 (rows (split text)) = .ok unsorted :=
    fun _ => rowBars_eq_ok_iff.symm
  simp only [ofText, mapError_eq_ok, ofRecords_eq, gives, ← sortBars_eq_iff]
  cases rowBars (headerWidth (split text)) 1 (rows (split text)) <;> simp [Except.map]

theorem latest_eq_error_iff {path : String} {count : Nat} {bars : List Bar} {e : FeedError} :
    latest path count bars = .error e ↔ bars = [] ∧ e = .unavailable s!"{path} has no rows" := by
  cases bars with
  | nil => simp [latest, eq_comm]
  | cons bar bars => simp [latest]

/-- The latest bars are an end of the history, and as many as were asked for if there are enough. -/
theorem latest_eq_ok_iff {path : String} {count : Nat} {bars last : List Bar} :
    latest path count bars = .ok last ↔
      bars ≠ [] ∧ last <:+ bars ∧ last.length = min count bars.length := by
  unfold latest
  split
  · rename_i empty
    simp [List.isEmpty_iff.1 empty]
  · rename_i some
    rw [Except.ok.injEq, lastOf]
    constructor
    · rintro rfl
      refine ⟨mt List.isEmpty_iff.2 some, List.drop_suffix _ _, ?_⟩
      rw [List.length_drop]
      omega
    · rintro ⟨-, suffix, length⟩
      rw [List.suffix_iff_eq_drop.1 suffix, length]
      congr 1
      omega

end Stratagem.History

namespace Stratagem.Archive

open History

/-- However a text is split into records, a history is read whole, in the order of the times of its
records, or it fails at the first record that is not read. What is asked for is an end of it, as
long as is wanted and there is; this fails of itself only if the history is empty. -/
theorem reads_whole_history (a : Archive) (split : String → List Record)
    (symbol interval text : String) :
    (∀ e, a.bars symbol interval (.ok text) split = .error e ↔
      ∃ before r after message, rows (split text) = before ++ r :: after ∧
        (∀ q ∈ before, ∃ bar, Sound (headerWidth (split text)) q bar) ∧
        Faulty (headerWidth (split text)) before.length r message ∧ e = .malformed message) ∧
    (∀ bars, a.bars symbol interval (.ok text) split = .ok bars ↔ ∃ unsorted,
      List.Forall₂ (Sound (headerWidth (split text))) (rows (split text)) unsorted ∧
        InOrder unsorted bars) ∧
    ∀ count,
      (∀ e, a.latest symbol interval count (.ok text) split = .error e ↔
        a.bars symbol interval (.ok text) split = .error e ∨
          a.bars symbol interval (.ok text) split = .ok [] ∧
            e = .unavailable s!"{a.path symbol interval} has no rows") ∧
      ∀ last, a.latest symbol interval count (.ok text) split = .ok last ↔
        ∃ bars, a.bars symbol interval (.ok text) split = .ok bars ∧ bars ≠ [] ∧
          last <:+ bars ∧ last.length = min count bars.length := by
  refine ⟨fun e => ofText_eq_error_iff, fun bars => ofText_eq_ok_iff, fun count => ⟨fun e => ?_,
    fun last => ?_⟩⟩
  · simp only [Archive.latest, bind_eq_error, latest_eq_error_iff]
    refine or_congr_right ⟨?_, fun ⟨h, reason⟩ => ⟨[], h, rfl, reason⟩⟩
    rintro ⟨_, h, rfl, reason⟩
    exact ⟨h, reason⟩
  · simp only [Archive.latest, bind_eq_ok, latest_eq_ok_iff]

/-- Behind an empty line in front, a record of another width is placed by the lines of the text: the
first record is said to be on line 3, not on line 2. -/
theorem bars_behind_empty_line :
    (rows (Record.ofText "\ntimestamp,open,high,low,close,volume\n1,2\n")).map Record.fields =
      [["1", "2"]] ∧
    ∃ message, (⟨"data"⟩ : Archive).bars "S" "1h"
        (.ok "\ntimestamp,open,high,low,close,volume\n1,2\n") = .error (.malformed message) ∧
      "line: 3".toList <:+: message.toList ∧ ¬"line: 2".toList <:+: message.toList ∧
      ¬"line 2".toList <:+: message.toList := by
  generalize written : "\ntimestamp,open,high,low,close,volume\n1,2\n" = text
  have found : rows (Record.ofText text) = [⟨⟨3, 38⟩, ["1", "2"]⟩] := by
    subst written
    decide +kernel
  have columns : headerWidth (Record.ofText text) = 6 := by
    subst written
    decide +kernel
  have said : Faulty (headerWidth (Record.ofText text)) 0 ⟨⟨3, 38⟩, ["1", "2"]⟩
      ("CSV parse error: CSV error: record 1 (line: 3, byte: 38): " ++
        "found record with 2 fields, but the previous record has 6 fields") := by
    rw [columns]
    exact .width (by decide)
  refine ⟨by rw [found]; rfl, _, ofText_eq_error_iff.2 ⟨[], _, [], _, found, nofun, said, rfl⟩, ?_⟩
  decide +kernel

end Stratagem.Archive
