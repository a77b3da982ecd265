import Stratagem.Json.Reading
import Stratagem.Proofs.Json.Quoting
import Stratagem.Proofs.Json.Scaling

/-!
# Written numbers are read

The text of a positive double is a numeral (`exists_numeral_logged`). The JSON reader takes it off
in front of whatever ends a number (`readUnsigned_chars`), and what it makes of it is a double in
any case: the same one if the digits and the power of ten are exact, and else one that is at most
eight units in the last place away (`reread_spec`).
-/

namespace Stratagem.Json

open Decimal Rounding

variable {n : Numeral} {rest : List Char}

/-- What follows a number, if anything does, is no part of it. -/
def EndsNumber (rest : List Char) : Prop :=
  ∀ c ∈ rest.head?, c.isDigit = false ∧ c ≠ '.' ∧ c ≠ 'e' ∧ c ≠ 'E'

theorem EndsNumber.endsDigits (ends : EndsNumber rest) : EndsDigits rest :=
  fun c hc => (ends c hc).1

/-- Digits that fit are all gathered. -/
theorem gather_append {ds rest : List Char} {significand : Nat} (digits : AreDigits ds)
    (ends : EndsDigits rest)
    (few : significand * 10 ^ ds.length + digitsValue ds < significandLimit) :
    gather significand (ds ++ rest) = (significand * 10 ^ ds.length + digitsValue ds, rest) := by
  induction ds generalizing significand with
  | nil =>
    rw [List.nil_append, List.length_nil, Nat.pow_zero, Nat.mul_one]
    cases rest with
    | nil => rfl
    | cons c rest =>
      rw [gather, ends c rfl]
      rfl
  | cons d ds ih =>
    obtain ⟨digit, digits⟩ := List.forall_mem_cons.1 digits
    have value : significand * 10 ^ (d :: ds).length + digitsValue (d :: ds) =
        (significand * 10 + (d.toNat - '0'.toNat)) * 10 ^ ds.length + digitsValue ds := by
      rw [digitsValue_cons, List.length_cons, Nat.pow_succ]
      ring
    rw [value] at few ⊢
    have next : significand * 10 + (d.toNat - '0'.toNat) < significandLimit :=
      lt_of_le_of_lt ((Nat.le_mul_of_pos_right _ (Nat.pow_pos (by decide))).trans
        (Nat.le_add_right _ _)) few
    rw [List.cons_append, gather]
    rw [digit, decide_eq_true next]
    exact ih digits few

/-- The end of a numeral is read up to what follows it. -/
theorem readScaled_exponentChars {significand : Nat} {place : Int} (ends : EndsNumber rest)
    (small : ∀ e ∈ n.exponent, e.natAbs < exponentLimit) :
    readScaled significand place (n.exponentChars ++ rest) =
      (scale significand (n.exponent.getD 0 + place)).map fun x => (x, rest) := by
  unfold Numeral.exponentChars
  cases hn : n.exponent with
  | none =>
    rw [List.nil_append, Option.getD_none, zero_add]
    cases rest with
    | nil => rfl
    | cons c rest =>
      obtain ⟨-, -, small, large⟩ := ends c rfl
      simp [readScaled, small, large]
  | some e =>
    have digits := areDigits_toDigits e.natAbs
    have sign (text : List Char) : splitSign ((if e < 0 then '-' else '+') :: text) =
        (decide (e < 0), text) := by
      by_cases negative : e < 0
      · rw [if_pos negative, decide_eq_true negative]
        rfl
      · rw [if_neg negative, decide_eq_false negative]
        rfl
    have value : (if decide (e < 0) = true then place - e.natAbs else place + e.natAbs) =
        e + place := by
      simp only [decide_eq_true_eq]
      split <;> omega
    show readScaled significand place ('e' :: (if e < 0 then '-' else '+') ::
      (Nat.toDigits 10 e.natAbs ++ rest)) = _
    unfold readScaled
    dsimp only
    rw [if_pos (by decide), sign]
    dsimp only
    rw [takeWhile_digits digits ends.endsDigits, dropWhile_digits digits ends.endsDigits,
      digitsValue_toDigits, if_neg (by simp), if_neg (not_le.2 (small e hn)), value]
    rfl

/-- What follows the digits of a numeral goes on with no digit. -/
theorem EndsNumber.exponentChars (ends : EndsNumber rest) (n : Numeral) :
    EndsDigits (n.exponentChars ++ rest) := by
  unfold Numeral.exponentChars
  split
  · exact ends.endsDigits
  · exact endsDigits_cons rfl _

/-- A number without a fraction goes on with its exponent. -/
theorem readRest_exponentChars {significand : Nat} {e : Int} (he : n.exponent = some e)
    (small : e.natAbs < exponentLimit) (ends : EndsNumber rest) :
    readRest significand (n.exponentChars ++ rest) =
      (scale significand e).map fun x => (.inr x, rest) := by
  have fits : ∀ e ∈ n.exponent, e.natAbs < exponentLimit := by
    rw [he]
    rintro _ ⟨⟩
    exact small
  have read := @readScaled_exponentChars n rest significand 0 ends fits
  have text : n.exponentChars ++ rest =
      'e' :: ((if e < 0 then '-' else '+') :: Nat.toDigits 10 e.natAbs ++ rest) := by
    rw [Numeral.exponentChars, he]
    rfl
  rw [text] at read ⊢
  show (readScaled significand 0 ('e' :: _)).map _ = _
  rw [read, he]
  simp [Function.comp_def]

/-- The digits behind the point are gathered on. -/
theorem readRest_fractionChars {significand : Nat} (fraction : AreDigits n.fraction)
    (nonempty : n.fraction ≠ [])
    (few : significand * 10 ^ n.fraction.length + digitsValue n.fraction < significandLimit)
    (small : ∀ e ∈ n.exponent, e.natAbs < exponentLimit) (ends : EndsNumber rest) :
    readRest significand (n.fractionChars ++ (n.exponentChars ++ rest)) =
      (scale (significand * 10 ^ n.fraction.length + digitsValue n.fraction) n.scaled.place).map
        fun x => (.inr x, rest) := by
  have tail := ends.exponentChars n
  have text : n.fractionChars ++ (n.exponentChars ++ rest) =
      '.' :: (n.fraction ++ (n.exponentChars ++ rest)) := by
    rw [Numeral.fractionChars, if_neg nonempty]
    rfl
  have digit : (n.fraction ++ (n.exponentChars ++ rest)).head?.any Char.isDigit = true := by
    obtain ⟨d, ds, hds⟩ := List.exists_cons_of_ne_nil nonempty
    rw [hds] at fraction ⊢
    exact fraction d List.mem_cons_self
  have length : (n.fraction ++ (n.exponentChars ++ rest)).length -
      (n.exponentChars ++ rest).length = n.fraction.length := by
    rw [List.length_append, Nat.add_sub_cancel]
  have place : n.exponent.getD 0 + ((0 : Nat) - n.fraction.length : Int) = n.scaled.place := by
    show _ = n.exponent.getD 0 - _
    omega
  rw [text]
  show (if _ then _ else _) = _
  rw [if_pos digit, gather_append fraction tail few]
  dsimp only
  rw [length, dropWhile_of_ends tail]
  show (readScaled _ ((0 : Nat) - n.fraction.length : Int) (n.exponentChars ++ rest)).map _ = _
  rw [readScaled_exponentChars ends small, place]
  simp [Function.comp_def]

/-- The rest of a number is read up to what follows it. -/
theorem readRest_chars {significand : Nat} (fraction : AreDigits n.fraction)
    (notWhole : n.fraction ≠ [] ∨ n.exponent ≠ none)
    (few : significand * 10 ^ n.fraction.length + digitsValue n.fraction < significandLimit)
    (small : ∀ e ∈ n.exponent, e.natAbs < exponentLimit) (ends : EndsNumber rest) :
    readRest significand (n.fractionChars ++ (n.exponentChars ++ rest)) =
      (scale (significand * 10 ^ n.fraction.length + digitsValue n.fraction) n.scaled.place).map
        fun x => (.inr x, rest) := by
  by_cases none : n.fraction = []
  · obtain ⟨e, he⟩ := Option.ne_none_iff_exists'.1 (notWhole.resolve_left (not_not.2 none))
    have place : n.scaled.place = e := by simp [Numeral.scaled, none, he]
    rw [place, none, Numeral.fractionChars, if_pos none, List.nil_append,
      readRest_exponentChars he (small e he) ends]
    simp [digitsValue]
  · exact readRest_fractionChars fraction none few small ends

theorem readWhole_append {whole rest : List Char} (digits : AreDigits whole)
    (nonempty : whole ≠ []) (front : whole.head? = some '0' → whole = ['0'])
    (few : digitsValue whole < significandLimit) (ends : EndsDigits rest) :
    readWhole (whole ++ rest) = (digitsValue whole, rest) := by
  by_cases zero : whole.head? = some '0'
  · rw [front zero]
    rfl
  · have gathered := @gather_append whole rest 0 digits ends (by omega)
    rw [Nat.zero_mul, Nat.zero_add] at gathered
    obtain ⟨d, ds, rfl⟩ := List.exists_cons_of_ne_nil nonempty
    unfold readWhole
    split
    · rename_i same
      injection same with same
      exact absurd (congrArg some same) zero
    · exact gathered

/-- A numeral is read up to what follows it. -/
theorem readUnsigned_chars (proper : n.Proper) (notWhole : n.fraction ≠ [] ∨ n.exponent ≠ none)
    (few : n.scaled.digits < significandLimit)
    (small : ∀ e ∈ n.exponent, e.natAbs < exponentLimit) (ends : EndsNumber rest) :
    readUnsigned (n.chars ++ rest) =
      (scale n.scaled.digits n.scaled.place).map fun x => (.inr x, rest) := by
  have value : n.scaled.digits = digitsValue n.whole * 10 ^ n.fraction.length +
    digitsValue n.fraction := digitsValue_append _ _
  rw [value] at few ⊢
  have tail : EndsDigits (n.fractionChars ++ (n.exponentChars ++ rest)) := by
    unfold Numeral.fractionChars
    split
    · exact ends.exponentChars n
    · exact endsDigits_cons rfl _
  have start := readWhole_append proper.whole proper.nonempty proper.front (by
    refine lt_of_le_of_lt ((Nat.le_mul_of_pos_right _ (Nat.pow_pos (by decide))).trans
      (Nat.le_add_right _ _)) few) tail
  obtain ⟨d, ds, whole⟩ := List.exists_cons_of_ne_nil proper.nonempty
  have digit := proper.whole d (by rw [whole]; exact List.mem_cons_self)
  have first : (n.whole ++ (n.fractionChars ++ (n.exponentChars ++ rest))).head?.any Char.isDigit =
      true := by
    rw [whole]
    exact digit
  have next : (n.fractionChars ++ (n.exponentChars ++ rest)).head?.any Char.isDigit = false := by
    generalize n.fractionChars ++ (n.exponentChars ++ rest) = cs at tail
    cases cs with
    | nil => rfl
    | cons c cs => exact tail c rfl
  unfold readUnsigned
  rw [Numeral.chars, List.append_assoc, List.append_assoc, start]
  dsimp only
  rw [first, next, Bool.and_false, Bool.not_false, Bool.and_true, if_pos rfl]
  exact readRest_chars proper.fraction notWhole few small ends

/-! ## Values -/

section

variable {nested : Option (Reader Json)}

/-- A text in quotes is taken up to what follows it. -/
theorem takes_quoteChars (s : String) :
    Takes (readWith nested) (quoteChars s.toList) (.text s) := by
  intro c rest _
  have text : quoteChars s.toList ++ c :: rest =
      '"' :: (s.toList.flatMap escapeChar ++ '"' :: c :: rest) := by
    simp [quoteChars]
  rw [text]
  show ((readText (s.toList.flatMap escapeChar ++ '"' :: c :: rest)).map fun p =>
    (Json.text p.1, p.2)) = _
  rw [readText_quoted]
  rfl

/-- A digit starts no value but a number. -/
theorem readWith_of_digit {d : Char} (digit : d.isDigit = true) (cs : List Char) :
    readWith nested (d :: cs) = (readUnsigned (d :: cs)).map fun
      | (.inl n, rest) => (.int n, rest)
      | (.inr x, rest) => (.float x, rest) := by
  have not {c : Char} (h : c.isDigit = false) : d ≠ c := by
    rintro rfl
    rw [h] at digit
    cases digit
  have space : skipSpace (d :: cs) = d :: cs := by
    refine List.dropWhile_cons_of_neg ?_
    simp [not (c := ' ') rfl, not (c := '\n') rfl, not (c := '\t') rfl, not (c := '\r') rfl]
  unfold readWith
  rw [space]
  split
  case h_7 =>
    unfold readNumber
    split
    · rename_i same
      cases same
      cases digit
    · rfl
  all_goals
    rename_i same
    cases same
    cases digit

/-- A numeral is read as the double that its digits and its power of ten give. -/
theorem readWith_chars (proper : n.Proper) (notWhole : n.fraction ≠ [] ∨ n.exponent ≠ none)
    (few : n.scaled.digits < significandLimit)
    (small : ∀ e ∈ n.exponent, e.natAbs < exponentLimit) (ends : EndsNumber rest) :
    readWith nested (n.chars ++ rest) =
      (scale n.scaled.digits n.scaled.place).map fun x => (.float x, rest) := by
  have read := readUnsigned_chars proper notWhole few small ends
  obtain ⟨d, ds, whole⟩ := List.exists_cons_of_ne_nil proper.nonempty
  have digit := proper.whole d (by rw [whole]; exact List.mem_cons_self)
  have front : n.chars ++ rest = d :: (ds ++ (n.fractionChars ++ n.exponentChars) ++ rest) := by
    rw [Numeral.chars, whole]
    rfl
  rw [front] at read ⊢
  rw [readWith_of_digit digit, read, Option.map_map]
  rfl

end

/-! ## Doubles -/

/-- The double that is read where a double was written. -/
def reread (x : Float) : Float := ((read? (logged x)).bind float?).getD x

/-- The double `y` is read off the text of `x`: the digits of the text and its power of ten make it
up. If both are exact, it is `x`, and else at most eight units in the last place away. -/
structure Reread (x y : Float) : Prop where
  text : ∃ n : Numeral, n.Proper ∧ (logged x).toList = n.chars ∧
    nearest n.scaled.digits n.scaled.place = x ∧ scale n.scaled.digits n.scaled.place = some y ∧
    (n.scaled.digits < 2 ^ 53 → n.scaled.place.natAbs ≤ 22 → y = x)
  close : ∃ m e n d, Parts x m e ∧ Parts y n d ∧ |(n * 2 ^ d - m * 2 ^ e : ℚ)| ≤ 8 * 2 ^ e

section

variable {x : Float} {m : Nat} {e : Int}

/-- The text of a positive double is a numeral with the value of its shortest decimal. -/
theorem exists_numeral_logged (parts : Parts x m e) :
    ∃ n : Numeral, n.Shows (logged x).toList (shortest .even m e) := by
  obtain ⟨n, shows⟩ := exists_numeral parts.pos.ne'
    (digits_shortest_ne_zero .even parts.canonical parts.high)
  refine ⟨n, ?_⟩
  unfold logged Layout.write
  rw [parts.of]
  rwa [show (String.ofList (if false = true then _ else loggedLayout.magnitude m e)).toList = _ from
    String.toList_ofList]

/-- The power of ten of a double's text is small. -/
theorem natAbs_exponent_lt (parts : Parts x m e)
    (shows : n.Shows (logged x).toList (shortest .even m e)) :
    ∀ k ∈ n.exponent, k.natAbs < exponentLimit := by
  intro k hk
  obtain ⟨low, high⟩ := (shortest_rounds .even parts.canonical parts.high).limits
    parts.canonical parts.high
  obtain ⟨least, most⟩ := shows.leading k hk
  have ten : (1 : ℚ) < 10 := by norm_num
  have below := (zpow_lt_zpow_iff_right₀ ten).1 (least.trans_lt high)
  have above := (zpow_lt_zpow_iff_right₀ ten).1 (low.trans most)
  have limit : exponentLimit = 2 ^ 31 := rfl
  omega

/-- The text of a positive double is taken up to what follows it, as one and the same double. -/
theorem exists_reread (parts : Parts x m e) : ∃ y, Reread x y ∧
    ∀ nested rest, EndsNumber rest →
      readWith nested ((logged x).toList ++ rest) = some (.float y, rest) := by
  obtain ⟨n, shows⟩ := exists_numeral_logged parts
  have few : n.scaled.digits ≤ 10 ^ 17 :=
    shows.few.trans (max_le (digits_shortest_le .even parts.canonical parts.high) le_rfl)
  obtain ⟨y, k, d, read, other, close⟩ := scaledNear_shortest parts few shows.value
  have rounds := shortest_rounds .even parts.canonical parts.high
  rw [← shows.value] at rounds
  have some : 0 < n.scaled.digits := by
    have positive := rounds.pos parts.pos
    exact Nat.pos_of_ne_zero fun zero => by simp [Scaled.value, zero] at positive
  refine ⟨y, ⟨⟨n, shows.proper, shows.chars, nearest_eq parts.of parts.pos rounds, read, ?_⟩,
    m, e, k, d, parts, other, close⟩, fun nested rest ends => ?_⟩
  · intro lt near
    exact Option.some_inj.1 (read.symm.trans (scale_of_exact parts rounds some lt near))
  · have limit : significandLimit = 2 ^ 64 := rfl
    rw [shows.chars, readWith_chars shows.proper shows.notWhole (by omega)
      (natAbs_exponent_lt parts shows) ends, read]
    rfl

theorem reread_spec (parts : Parts x m e) : Reread x (reread x) ∧
    ∀ nested, Takes (readWith nested) (logged x).toList (.float (reread x)) := by
  obtain ⟨y, spec, takes⟩ := exists_reread parts
  have alone : read? (logged x) = some (.float y) := by
    have taken := takes (some (readNested (maxDepth - 1))) [] nofun
    rw [List.append_nil] at taken
    show (readWith (some (readNested (maxDepth - 1))) (logged x).toList).bind _ = _
    rw [taken]
    rfl
  have same : reread x = y := by
    rw [reread, alone]
    rfl
  rw [same]
  refine ⟨spec, fun nested c rest hc => takes nested (c :: rest) ?_⟩
  rintro _ ⟨⟩
  obtain rfl | rfl := hc <;> decide

end

/-! ## Line feeds -/

theorem lineFeed_notMem_digits {ds : List Char} (digits : AreDigits ds) : '\n' ∉ ds := by
  intro h
  exact absurd (digits _ h) (by decide)

/-- A numeral stays on one line. -/
theorem lineFeed_notMem_chars {n : Numeral} (proper : n.Proper) : '\n' ∉ n.chars := by
  have whole := lineFeed_notMem_digits proper.whole
  have fraction := lineFeed_notMem_digits proper.fraction
  have exponent : '\n' ∉ n.exponentChars := by
    unfold Numeral.exponentChars
    split
    · exact List.not_mem_nil
    · rename_i e _
      have digits := lineFeed_notMem_digits (areDigits_toDigits e.natAbs)
      split <;> simp [digits]
  have point : '\n' ∉ n.fractionChars := by
    unfold Numeral.fractionChars
    split
    · exact List.not_mem_nil
    · simp [fraction]
  simp [Numeral.chars, whole, point, exponent]

end Stratagem.Json
