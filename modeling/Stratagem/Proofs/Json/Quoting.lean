import Stratagem.Json.Reading
import Stratagem.Json.Writing
import Stratagem.Proofs.Chains

/-!
# Written texts and objects are read back

A text in quotes is read as itself, whatever characters it has (`readText_quoted`), and stays on
one line (`lineFeed_notMem_quoteChars`). An object that is written without blanks is read as its
members, if the reader of values takes each of them up to what follows it
(`readObject_memberChars`).
-/

namespace Stratagem.Json

/-! ## Texts -/

theorem hexValue_hexDigit {n : Nat} (h : n < 16) : hexValue (hexDigit n) = some n := by
  decide +revert

theorem readUnicode_control {c : Char} (h : c.toNat < 0x20) (rest : List Char) :
    readUnicode ('0' :: '0' :: hexDigit (c.toNat / 16) :: hexDigit (c.toNat % 16) :: rest) =
      some (c, rest) := by
  have unit : c.toNat / 16 * 16 + c.toNat % 16 = c.toNat := by omega
  have zero : hexValue '0' = some 0 := rfl
  simp only [readUnicode, readHex4, zero, hexValue_hexDigit (show c.toNat / 16 < 16 by omega),
    hexValue_hexDigit (show c.toNat % 16 < 16 by omega), Option.bind_eq_bind, Option.bind_some,
    Option.pure_def, Nat.zero_mul, Nat.zero_add, unit]
  rw [if_neg (by omega), if_neg (by omega), Char.ofNat_toNat]

/-- A character is written as an escape that stands for it, or as itself if it may be. -/
theorem escapeChar_cases (c : Char) :
    (∃ code, escapeChar c = '\\' :: code ∧ '\n' ∉ code ∧
      ∀ rest, readEscape (code ++ rest) = some (c, rest)) ∨
    (escapeChar c = [c] ∧ c ≠ '"' ∧ c ≠ '\\' ∧ ¬c.toNat < 0x20) := by
  unfold escapeChar
  split
  · subst c; exact .inl ⟨_, rfl, by decide, fun _ => rfl⟩
  split
  · subst c; exact .inl ⟨_, rfl, by decide, fun _ => rfl⟩
  split
  · subst c; exact .inl ⟨_, rfl, by decide, fun _ => rfl⟩
  split
  · subst c; exact .inl ⟨_, rfl, by decide, fun _ => rfl⟩
  split
  · subst c; exact .inl ⟨_, rfl, by decide, fun _ => rfl⟩
  split
  · subst c; exact .inl ⟨_, rfl, by decide, fun _ => rfl⟩
  split
  · subst c; exact .inl ⟨_, rfl, by decide, fun _ => rfl⟩
  rename_i quote backslash _ _ _ _ _
  split
  · rename_i control
    have digit : ∀ n < 16, '\n' ≠ hexDigit n := by decide
    refine .inl ⟨_, rfl, ?_, readUnicode_control control⟩
    simp [digit (c.toNat / 16) (by omega), digit (c.toNat % 16) (by omega)]
  · rename_i plain
    exact .inr ⟨rfl, quote, backslash, plain⟩

/-- One character, however it is written, is read in one step. -/
theorem readQuoted_escapeChar (c : Char) (budget : Nat) (read rest : List Char) :
    readQuoted (budget + 1) read (escapeChar c ++ rest) = readQuoted budget (c :: read) rest := by
  obtain ⟨code, written, -, stands⟩ | ⟨written, quote, backslash, plain⟩ := escapeChar_cases c
  · rw [written, List.cons_append, readQuoted, stands]
  · rw [written, List.singleton_append, readQuoted]
    · exact if_neg plain
    · rintro rfl; exact quote rfl
    · rintro rfl; exact backslash rfl

theorem readQuoted_flatMap (cs : List Char) {budget : Nat} (enough : cs.length < budget)
    (read rest : List Char) :
    readQuoted budget read (cs.flatMap escapeChar ++ '"' :: rest) =
      some (read.reverse ++ cs, rest) := by
  induction cs generalizing budget read with
  | nil =>
    obtain ⟨budget, rfl⟩ := Nat.exists_eq_add_one_of_ne_zero (Nat.ne_of_gt enough)
    rw [List.append_nil]
    rfl
  | cons c cs ih =>
    obtain ⟨budget, rfl⟩ :=
      Nat.exists_eq_add_one_of_ne_zero (Nat.ne_of_gt (Nat.zero_lt_of_lt enough))
    rw [List.flatMap_cons, List.append_assoc, readQuoted_escapeChar,
      ih (Nat.lt_of_succ_lt_succ enough), List.reverse_cons, List.append_assoc,
      List.singleton_append]

theorem length_le_flatMap_escapeChar (cs : List Char) :
    cs.length ≤ (cs.flatMap escapeChar).length := by
  induction cs with
  | nil => exact Nat.le_refl _
  | cons c cs ih =>
    have some : 1 ≤ (escapeChar c).length := by
      obtain ⟨code, written, -⟩ | ⟨written, -⟩ := escapeChar_cases c <;> simp [written]
    rw [List.flatMap_cons, List.length_append, List.length_cons]
    omega

/-- A text is read up to its closing quote, whatever follows. -/
theorem readText_quoted (s : String) (rest : List Char) :
    readText (s.toList.flatMap escapeChar ++ '"' :: rest) = some (s, rest) := by
  have enough := length_le_flatMap_escapeChar s.toList
  rw [readText, readQuoted_flatMap s.toList]
  · exact congrArg (fun t => some (t, rest)) String.ofList_toList
  · rw [List.length_append]
    omega

theorem lineFeed_notMem_quoteChars (cs : List Char) : '\n' ∉ quoteChars cs := by
  have escaped : ∀ c, '\n' ∉ escapeChar c := by
    intro c
    obtain ⟨code, written, clear, -⟩ | ⟨written, -, -, plain⟩ := escapeChar_cases c
    · simp [written, clear]
    · rw [written, List.mem_singleton]
      rintro rfl
      exact plain (by decide)
  simp [quoteChars, escaped]

/-! ## Members -/

/-- The characters of a member whose value is written already. -/
def memberChars (key : String) (text : List Char) : List Char :=
  quoteChars key.toList ++ ':' :: text

/-- A reader takes a value off its text in front of a comma or a closing brace. -/
def Takes (item : Reader Json) (text : List Char) (v : Json) : Prop :=
  ∀ c rest, c = ',' ∨ c = '\x7d' → item (text ++ c :: rest) = some (v, c :: rest)

/-- The written members of an object, with the texts of the values and the values. -/
abbrev Written := List (String × List Char × Json)

/-- The characters of the members behind the first one. -/
def laterChars (ms : Written) : List Char := ms.flatMap fun m => ',' :: memberChars m.1 m.2.1

/-- What follows a member is the comma of the next one or the closing brace. -/
theorem exists_laterChars (ms : Written) (rest : List Char) :
    ∃ c after, (c = ',' ∨ c = '\x7d') ∧ laterChars ms ++ '\x7d' :: rest = c :: after := by
  cases ms with
  | nil => exact ⟨_, _, .inr rfl, rfl⟩
  | cons m ms => exact ⟨_, _, .inl rfl, rfl⟩

theorem length_le_laterChars (ms : Written) : ms.length ≤ (laterChars ms).length := by
  induction ms with
  | nil => exact Nat.le_refl _
  | cons m ms ih =>
    have here : laterChars (m :: ms) = ',' :: memberChars m.1 m.2.1 ++ laterChars ms := rfl
    rw [here, List.length_append, List.length_cons, List.length_cons]
    omega

variable {item : Reader Json}

theorem readMember_memberChars {key : String} {text : List Char} {v : Json}
    (takes : Takes item text v) {c : Char} (hc : c = ',' ∨ c = '\x7d') (rest : List Char) :
    readMember item (memberChars key text ++ c :: rest) = some ((key, v), c :: rest) := by
  have behind : memberChars key text ++ c :: rest =
      '"' :: (key.toList.flatMap escapeChar ++ '"' :: (':' :: (text ++ c :: rest))) := by
    simp [memberChars, quoteChars]
  rw [behind]
  refine bind_of_eq_some (readText_quoted key _) ?_
  exact bind_of_eq_some (takes c rest hc) rfl

theorem readMembers_laterChars {ms : Written} (takes : ∀ m ∈ ms, Takes item m.2.1 m.2.2)
    {budget : Nat} (enough : ms.length < budget) (members : Keyed Json) (rest : List Char) :
    readMembers item budget members (laterChars ms ++ '\x7d' :: rest) =
      some (members.insertAll (ms.map fun m => (m.1, m.2.2)), rest) := by
  induction ms generalizing budget members with
  | nil =>
    obtain ⟨budget, rfl⟩ := Nat.exists_eq_add_one_of_ne_zero (Nat.ne_of_gt enough)
    rfl
  | cons m ms ih =>
    obtain ⟨budget, rfl⟩ :=
      Nat.exists_eq_add_one_of_ne_zero (Nat.ne_of_gt (Nat.zero_lt_of_lt enough))
    obtain ⟨own, takes⟩ := List.forall_mem_cons.1 takes
    obtain ⟨c, after, hc, follows⟩ := exists_laterChars ms rest
    have next := ih takes (Nat.lt_of_succ_lt_succ enough) (members.insert m.1 m.2.2)
    have space : skipSpace (laterChars (m :: ms) ++ '\x7d' :: rest) =
        ',' :: (memberChars m.1 m.2.1 ++ c :: after) := by
      rw [← follows, ← List.append_assoc]
      rfl
    simp only [readMembers, space, readMember_memberChars own hc]
    rw [← follows]
    exact next

/-- An object is read as its members, of which the last one with a key counts. -/
theorem readObject_memberChars {key : String} {text : List Char} {v : Json} {ms : Written}
    (first : Takes item text v) (takes : ∀ m ∈ ms, Takes item m.2.1 m.2.2) (rest : List Char) :
    readObject item (memberChars key text ++ laterChars ms ++ '\x7d' :: rest) =
      some (.object (Keyed.insertAll [(key, v)] (ms.map fun m => (m.1, m.2.2))), rest) := by
  obtain ⟨c, after, hc, follows⟩ := exists_laterChars ms rest
  have enough := length_le_laterChars ms
  rw [List.append_assoc, follows]
  refine bind_of_eq_some (readMember_memberChars first hc after) ?_
  rw [← follows]
  refine bind_of_eq_some (readMembers_laterChars takes ?_ _ rest) rfl
  rw [List.length_append]
  omega

end Stratagem.Json
