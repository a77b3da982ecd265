import Stratagem.Proofs.Json.WrittenNumbers
import Stratagem.Proofs.Keyed
import Stratagem.Proofs.Time.Stamps
import Stratagem.Proofs.Trade.Decisions
import Stratagem.Text.Parts

/-!
# A log of decisions is read back

A log holds one line for each decision, and each line is read as its decision but for the last bits
of its numbers (`log_decodes`), whatever characters the symbol has, for all positive doubles and all
instants of the calendar.

A line is read as JSON (`decode?`), by the names of its members and not by their order, and a price
or a stop that is missing is not given. The JSON reader rounds a number more than once, so that it
is read as a double nearby (`Json.Reread`): a size of 1/11 is not read as it was written
(`eleventh_read_apart`).
-/

namespace Stratagem

theorem Text.parts_ne_nil (separator : Char) (cs : List Char) : parts separator cs ≠ [] := by
  cases cs with
  | nil => simp [parts]
  | cons c cs =>
    rw [parts]
    split
    · simp
    · split <;> simp

theorem Text.parts_append_cons {separator : Char} {p : List Char} (h : separator ∉ p)
    (rest : List Char) : parts separator (p ++ separator :: rest) = p :: parts separator rest := by
  induction p with
  | nil =>
    obtain ⟨q, qs, hq⟩ := List.exists_cons_of_ne_nil (parts_ne_nil separator rest)
    rw [List.nil_append, parts, hq]
    exact if_pos rfl
  | cons c p ih =>
    obtain ⟨other, later⟩ := not_or.1 (mt List.mem_cons.2 h)
    rw [List.cons_append, parts, ih later]
    exact if_neg (Ne.symm other)

namespace Side

/-- The side that has a name. -/
def ofName? : String → Option Side
  | "buy" => some buy
  | "sell" => some sell
  | _ => none

theorem ofName?_name (side : Side) : ofName? side.name = some side := by
  cases side <;> rfl

end Side

namespace Decision

open Json

/-! ## Reading a line -/

/-- A number that need not be given. -/
def optional? (key : String) (members : Keyed Json) : Option (Option Float) :=
  match members.find? key with
  | none => some none
  | some v => v.float?.map some

/-- The decision that the members of an object stand for. -/
def ofMembers? (members : Keyed Json) : Option Decision := do
  let symbol ← (members.find? "symbol").bind Json.text?
  let side ← ((members.find? "side").bind Json.text?).bind Side.ofName?
  let size ← (members.find? "size").bind Json.float?
  let price ← optional? "price" members
  let stop ← optional? "stop" members
  let time ← ((members.find? "timestamp").bind Json.text?).bind Instant.ofStamp?
  return { symbol, side, size, price, stop, time }

/-- The decision of a line. -/
def decode? (line : String) : Option Decision :=
  match read? line with
  | some (.object members) => ofMembers? members
  | _ => none

/-- The decision with its numbers as they are read. -/
def reread (d : Decision) : Decision where
  symbol := d.symbol
  side := d.side
  size := Json.reread d.size
  price := d.price.map Json.reread
  stop := d.stop.map Json.reread
  time := d.time

/-- The numbers of a decision. -/
def numbers (d : Decision) : List Float := d.size :: (d.price.toList ++ d.stop.toList)

/-! ## Written decisions -/

/-- A number under its key, as it is written, and as it is read. -/
def writtenNumber (key : String) (x : Float) : String × List Char × Json :=
  (key, (Decimal.logged x).toList, .float (Json.reread x))

/-- A text under its key, as it is written. -/
def writtenText (key text : String) : String × List Char × Json :=
  (key, quoteChars text.toList, .text text)

/-- The members behind the symbol, as they are written. -/
def laterMembers (d : Decision) : Json.Written :=
  [writtenText "side" d.side.name, writtenNumber "size" d.size] ++
    (d.price.map (writtenNumber "price")).toList ++ (d.stop.map (writtenNumber "stop")).toList ++
    [writtenText "timestamp" d.time.zuluStamp]

theorem intercalate_cons {α : Type} (separator : α) (x : List α) (xs : List (List α)) :
    [separator].intercalate (x :: xs) = x ++ xs.flatMap (separator :: ·) := by
  induction xs generalizing x with
  | nil => simp
  | cons y ys ih => rw [List.intercalate_cons_cons, ih, List.flatMap_cons]; simp

/-- A line is an object without blanks. -/
theorem toList_encode (d : Decision) : d.encode.toList =
    '\x7b' :: (memberChars "symbol" (quoteChars d.symbol.toList) ++ laterChars d.laterMembers ++
      ['\x7d']) := by
  have text (key text : String) : (quote key ++ ":" ++ quote text).toList =
      memberChars key (quoteChars text.toList) := by
    simp [quote, memberChars]
  have number (key : String) (x : Float) : (encodeNumber key x).toList =
      memberChars key (Decimal.logged x).toList := by
    simp [encodeNumber, quote, memberChars]
  unfold encode
  rw [String.toList_append, String.toList_append, String.toList_intercalate]
  simp only [List.map_append, List.map_cons, List.map_nil, text, number]
  have later : [memberChars "side" (quoteChars d.side.name.toList),
        memberChars "size" (Decimal.logged d.size).toList] ++
      ((d.price.map (encodeNumber "price")).toList.map String.toList) ++
      ((d.stop.map (encodeNumber "stop")).toList.map String.toList) ++
      [memberChars "timestamp" (quoteChars d.time.zuluStamp.toList)] =
        d.laterMembers.map fun m => memberChars m.1 m.2.1 := by
    unfold laterMembers
    cases d.price <;> cases d.stop <;> simp [writtenText, writtenNumber, number]
  rw [List.cons_append, List.cons_append, List.cons_append, later]
  show '\x7b' :: ([','].intercalate _ ++ ['\x7d']) = _
  rw [intercalate_cons, List.flatMap_map]
  rfl

/-- A positive number is a finite double with a significand. -/
theorem Positive.parts {x : Float} (h : Positive x) : ∃ m e, Rounding.Parts x m e := by
  have finite : x.toModel.unpack.isFinite = true := h.1
  have above : (0.0 : Float).toModel.unpack.lt x.toModel.unpack = true := Finite.lt_iff.1 h.2
  have zero : (0.0 : Float).toModel.unpack = .zero .positive := rfl
  rw [zero] at above
  cases hx : x.toModel.unpack with
  | infinity s => rw [hx] at finite; cases finite
  | notANumber => rw [hx] at finite; cases finite
  | zero s => rw [hx] at above; cases above
  | finite s m e pos =>
    cases s with
    | negative => rw [hx] at above; cases above
    | positive => exact ⟨m, e, by rw [Decimal.Double.of_eq, hx]; rfl, pos⟩

theorem Positive.takes {x : Float} (h : Positive x) (nested : Option (Reader Json)) :
    Takes (readWith nested) (Decimal.logged x).toList (.float (Json.reread x)) := by
  obtain ⟨m, e, parts⟩ := h.parts
  exact (reread_spec parts).2 nested

theorem Positive.reread {x : Float} (h : Positive x) : Reread x (Json.reread x) := by
  obtain ⟨m, e, parts⟩ := h.parts
  exact (reread_spec parts).1

/-- What is true of all written texts and of all written positive numbers is true of the members
behind the symbol. -/
theorem Sound.forall_laterMembers {d : Decision} (sound : d.Sound)
    {p : String × List Char × Json → Prop} (text : ∀ key s, p (writtenText key s))
    (number : ∀ key x, Positive x → p (writtenNumber key x)) : ∀ m ∈ d.laterMembers, p m := by
  have given (key : String) {given : Option Float} (positive : ∀ x ∈ given, Positive x) :
      ∀ m ∈ (given.map (writtenNumber key)).toList, p m := by
    intro m hm
    rw [Option.mem_toList, Option.map_eq_some_iff] at hm
    obtain ⟨x, rfl, rfl⟩ := hm
    exact number key x (positive x rfl)
  simp only [laterMembers, List.forall_mem_append, List.forall_mem_cons]
  exact ⟨⟨⟨⟨text _ _, number _ _ sound.size, by simp⟩, given _ sound.price⟩, given _ sound.stop⟩,
    text _ _, by simp⟩

/-- The members behind the symbol are taken one after the other. -/
theorem Sound.takes {d : Decision} (sound : d.Sound) (nested : Option (Reader Json)) :
    ∀ m ∈ d.laterMembers, Takes (readWith nested) m.2.1 m.2.2 :=
  sound.forall_laterMembers (fun _ s => takes_quoteChars s) fun _ _ positive =>
    positive.takes nested

/-- The numbers of a decision are positive. -/
theorem Sound.forall_numbers {d : Decision} (sound : d.Sound) : ∀ x ∈ d.numbers, Positive x := by
  simp only [numbers, List.forall_mem_cons, List.forall_mem_append, Option.mem_toList]
  exact ⟨sound.size, sound.price, sound.stop⟩

/-- The members that are read make up the decision. -/
theorem ofMembers?_written {d : Decision} (valid : d.time.Valid) :
    ofMembers? (Keyed.insertAll [("symbol", .text d.symbol)]
      (d.laterMembers.map fun m => (m.1, m.2.2))) = some d.reread := by
  have time := Instant.ofStamp?_zuluStamp valid
  have side := Side.ofName?_name d.side
  obtain ⟨symbol, side, size, price, stop, time⟩ := d
  cases price <;> cases stop <;>
    simp_all [laterMembers, writtenText, writtenNumber, Keyed.insertAll, ofMembers?, optional?,
      Keyed.find?_insert, Keyed.find?, Json.text?, Json.float?, reread]

theorem readWith_brace (item : Reader Json) (cs : List Char) :
    readWith (some item) ('\x7b' :: cs) = readObject item cs := rfl

/-- A line is read as its decision, but for the last bits of its numbers. -/
theorem decode?_encode {d : Decision} (sound : d.Sound) (valid : d.time.Valid) :
    decode? d.encode = some d.reread := by
  have members : readObject (readNested (maxDepth - 1))
      (memberChars "symbol" (quoteChars d.symbol.toList) ++ laterChars d.laterMembers ++
        ['\x7d']) = _ :=
    readObject_memberChars (takes_quoteChars d.symbol) (sound.takes _) []
  have line : read? d.encode = some (.object (Keyed.insertAll [("symbol", .text d.symbol)]
      (d.laterMembers.map fun m => (m.1, m.2.2)))) := by
    unfold read?
    rw [toList_encode]
    show (readWith (some (readNested (maxDepth - 1))) ('\x7b' :: _)).bind _ = _
    rw [readWith_brace, members]
    rfl
  unfold decode?
  rw [line]
  exact ofMembers?_written valid

/-! ## Logs -/

/-- A log with one more decision behind it. -/
def record (log : String) (d : Decision) : String := log ++ (d.encode ++ "\n")

/-- Decisions that are recorded one after the other are a log. -/
theorem foldl_record (log : String) (ds : List Decision) :
    ds.foldl record log = log ++ encodeLog ds := by
  induction ds generalizing log with
  | nil => simp [encodeLog]
  | cons d ds ih =>
    rw [List.foldl_cons, ih, record, String.append_assoc]
    simp [encodeLog]

/-- The lines of a text. Behind the last line feed there is one only if the text goes on. -/
def lines (text : String) : List String :=
  let parts := Text.parts '\n' text.toList
  (if parts.getLast? = some [] then parts.dropLast else parts).map String.ofList

theorem lineFeed_notMem_memberChars {key : String} {text : List Char} (h : '\n' ∉ text) :
    '\n' ∉ memberChars key text := by
  simp [memberChars, lineFeed_notMem_quoteChars, h]

theorem Positive.lineFeed_notMem {x : Float} (h : Positive x) :
    '\n' ∉ (Decimal.logged x).toList := by
  obtain ⟨m, e, parts⟩ := h.parts
  obtain ⟨n, shows⟩ := exists_numeral_logged parts
  exact shows.chars ▸ lineFeed_notMem_chars shows.proper

/-- A decision is on one line, whatever characters its symbol has. -/
theorem Sound.lineFeed_notMem {d : Decision} (sound : d.Sound) : '\n' ∉ d.encode.toList := by
  have later : ∀ m ∈ d.laterMembers, '\n' ∉ m.2.1 :=
    sound.forall_laterMembers (fun _ s => lineFeed_notMem_quoteChars s.toList)
      fun _ _ positive => positive.lineFeed_notMem
  have first := @lineFeed_notMem_memberChars "symbol" _ (lineFeed_notMem_quoteChars d.symbol.toList)
  have rest : '\n' ∉ laterChars d.laterMembers := by
    rw [laterChars, List.mem_flatMap]
    rintro ⟨m, hm, within⟩
    exact lineFeed_notMem_memberChars (later m hm) (by simpa using within)
  rw [toList_encode]
  simp [first, rest]

theorem parts_encodeLog {ds : List Decision} (sound : ∀ d ∈ ds, d.Sound) :
    Text.parts '\n' (encodeLog ds).toList = ds.map (·.encode.toList) ++ [[]] := by
  induction ds with
  | nil => rfl
  | cons d ds ih =>
    obtain ⟨first, later⟩ := List.forall_mem_cons.1 sound
    have text : (encodeLog (d :: ds)).toList =
        d.encode.toList ++ '\n' :: (encodeLog ds).toList := by
      simp [encodeLog]
    rw [text, Text.parts_append_cons first.lineFeed_notMem, ih later]
    rfl

/-- The lines of a log are its decisions. -/
theorem lines_encodeLog {ds : List Decision} (sound : ∀ d ∈ ds, d.Sound) :
    lines (encodeLog ds) = ds.map encode := by
  unfold lines
  rw [parts_encodeLog sound]
  simp [Function.comp_def]

/-- The decision was made, for an instant of the calendar. -/
def Made (d : Decision) : Prop :=
  ∃ symbol side size price stop time, Instant.Valid time ∧
    make symbol side size price stop time = .ok d

theorem Made.sound {d : Decision} (made : d.Made) : d.Sound ∧ d.time.Valid := by
  obtain ⟨symbol, side, size, price, stop, time, valid, h⟩ := made
  obtain ⟨sound, rfl⟩ := sound_make h
  exact ⟨sound, valid⟩

/-- Decisions that were made and are recorded in order give a log with one line for each of them,
and each line is read as its decision with its numbers as they are read: as doubles nearby, which
are the same if the digits that are written and their power of ten are exact. -/
theorem log_decodes {ds : List Decision} (made : ∀ d ∈ ds, d.Made) :
    ds.foldl record "" = encodeLog ds ∧
      (∀ d ∈ ds, '\n' ∉ d.encode.toList) ∧
      lines (encodeLog ds) = ds.map encode ∧
      (lines (encodeLog ds)).map decode? = ds.map (fun d => some d.reread) ∧
      ∀ d ∈ ds, ∀ x ∈ d.numbers, Reread x (Json.reread x) := by
  have sound : ∀ d ∈ ds, d.Sound := fun d hd => (made d hd).sound.1
  have own := lines_encodeLog sound
  refine ⟨by rw [foldl_record, String.empty_append], fun d hd => (sound d hd).lineFeed_notMem,
    own, ?_, fun d hd x hx => ((sound d hd).forall_numbers x hx).reread⟩
  rw [own, List.map_map]
  exact List.map_congr_left fun d hd => decode?_encode (sound d hd) (made d hd).sound.2

/-- A decision about a symbol with a quote, a backslash and a line feed, during a leap second. -/
def quoted : Decision where
  symbol := "a\"b\\c\nd"
  side := .sell
  size := 0.1
  price := some 25e16
  stop := none
  time := ⟨1483228799, 1500000000⟩

theorem log_decodes_quoted :
    (∀ d ∈ [quoted, quoted], d.Made) ∧
      [quoted, quoted].foldl record "" = encodeLog [quoted, quoted] ∧
      (∀ d ∈ [quoted, quoted], '\n' ∉ d.encode.toList) ∧
      lines (encodeLog [quoted, quoted]) = [quoted, quoted].map encode ∧
      (lines (encodeLog [quoted, quoted])).map decode? =
        [quoted, quoted].map (fun d => some d.reread) ∧
      ∀ d ∈ [quoted, quoted], ∀ x ∈ d.numbers, Reread x (Json.reread x) := by
  have made : ∀ d ∈ [quoted, quoted], d.Made := by
    have one : quoted.Made :=
      ⟨" a\"b\\c\nd ", .sell, 0.1, some 25e16, none, ⟨1483228799, 1500000000⟩,
        ⟨by decide, by decide, by decide, by decide⟩, rfl⟩
    simp [one]
  exact ⟨made, log_decodes made⟩

/-- A decision about one eleventh. -/
def eleventh : Decision where
  symbol := "X"
  side := .buy
  size := 1 / 11
  price := none
  stop := none
  time := ⟨1704067200, 0⟩

/-- The decision that its line is read as. -/
def nearEleventh : Decision := { eleventh with size := 0.09090909090909093 }

/-- The line of a decision about one eleventh is read as a decision about another number. -/
theorem eleventh_read_apart :
    eleventh.Made ∧
      lines (encodeLog [eleventh]) = ["\x7b\"symbol\":\"X\",\"side\":\"buy\"," ++
        "\"size\":0.09090909090909091,\"timestamp\":\"2024-01-01T00:00:00Z\"\x7d"] ∧
      (lines (encodeLog [eleventh])).map decode? = [some nearEleventh] ∧
      (lines (encodeLog [eleventh])).map decode? ≠ [eleventh].map some := by
  have made : eleventh.Made := ⟨"X", .buy, 1 / 11, none, none, ⟨1704067200, 0⟩,
    ⟨by decide, by decide, by decide, by decide⟩, rfl⟩
  have number : Json.reread eleventh.size = nearEleventh.size := by decide +kernel
  have other : nearEleventh.size ≠ eleventh.size := by decide +kernel
  have line : decode? eleventh.encode = some nearEleventh := by
    rw [decode?_encode made.sound.1 made.sound.2, reread, number]
    rfl
  have own : lines (encodeLog [eleventh]) = [eleventh.encode] :=
    lines_encodeLog (List.forall_mem_singleton.2 made.sound.1)
  rw [own, List.map_singleton, line]
  refine ⟨made, by decide +kernel, rfl, fun same => other ?_⟩
  exact congrArg Decision.size (Option.some_inj.1 (List.head_eq_of_cons_eq same))

end Decision

end Stratagem
