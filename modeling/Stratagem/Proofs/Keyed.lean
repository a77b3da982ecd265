import Stratagem.Keyed

/-!
# Looking up in keyed lists

`find?_insert` is the law that ties looking up to insertion: a key that is set has its new value,
and every other key the one that it had. Several values that are set one after the other leave the
keys that are not among theirs (`find?_insertAll_of_notMem`), and under keys that differ each is
found (`find?_insertAll_zip`). Insertions keep the keys in ascending order (`pairwise_keys_insert`).
-/

namespace Stratagem.Keyed

variable {α : Type}

theorem find?_insert_self (key : String) (value : α) (m : Keyed α) :
    find? key (insert key value m) = some value := by
  induction m with
  | nil => simp [insert, find?]
  | cons p rest ih =>
    obtain ⟨k, v⟩ := p
    rw [insert]
    split
    · simp [find?]
    · split
      · simp [find?]
      · rename_i h
        simp [find?, h, ih]

theorem find?_insert_of_ne {key other : String} (h : key ≠ other) (value : α) (m : Keyed α) :
    find? other (insert key value m) = find? other m := by
  induction m with
  | nil => simp [insert, find?, h]
  | cons p rest ih =>
    obtain ⟨k, v⟩ := p
    rw [insert]
    split
    · simp [find?, h]
    · split
      · rename_i hk
        subst hk
        simp [find?, h]
      · simp [find?, ih]

theorem find?_insert (key other : String) (value : α) (m : Keyed α) :
    find? other (insert key value m) = if other = key then some value else find? other m := by
  split
  · rename_i h
    rw [h, find?_insert_self]
  · rename_i h
    exact find?_insert_of_ne (Ne.symm h) value m

/-- The keys are the texts that have a value. -/
theorem mem_keys_iff {key : String} {m : Keyed α} : key ∈ keys m ↔ (find? key m).isSome = true := by
  induction m with
  | nil => simp [keys, find?]
  | cons p rest ih =>
    obtain ⟨k, v⟩ := p
    rw [find?]
    split
    · rename_i h
      simp [keys, h]
    · rename_i h
      simp only [keys] at ih ⊢
      simp [Ne.symm h, ih]

/-- An insertion adds its key to the keys and nothing else. -/
theorem mem_keys_insert {key other : String} {value : α} {m : Keyed α} :
    other ∈ keys (insert key value m) ↔ other = key ∨ other ∈ keys m := by
  induction m with
  | nil => simp [insert, keys]
  | cons p rest ih =>
    obtain ⟨k, v⟩ := p
    simp only [keys] at ih ⊢
    rw [insert]
    split
    · simp
    · split
      · rename_i h
        subst h
        simp
      · simp [ih]
        grind

/-- Insertions keep the keys in ascending order. -/
theorem pairwise_keys_insert {m : Keyed α} (h : (keys m).Pairwise (· < ·)) (key : String)
    (value : α) : (keys (insert key value m)).Pairwise (· < ·) := by
  induction m with
  | nil => simp [insert, keys]
  | cons p rest ih =>
    obtain ⟨k, v⟩ := p
    simp only [keys, List.map_cons, List.pairwise_cons] at h
    rw [insert]
    split
    · rename_i hk
      simp only [keys, List.map_cons, List.pairwise_cons, List.mem_cons]
      refine ⟨?_, h⟩
      rintro x (rfl | hx)
      · exact hk
      · exact String.lt_trans hk (h.1 x hx)
    · split
      · rename_i hk
        subst hk
        simpa [keys] using h
      · have hlt : k < key := by grind
        simp only [keys, List.map_cons, List.pairwise_cons]
        refine ⟨fun x hx => ?_, ih h.2⟩
        rcases mem_keys_insert.1 hx with rfl | hx
        · exact hlt
        · exact h.1 x hx

theorem insertAll_append (m : Keyed α) (first second : List (String × α)) :
    m.insertAll (first ++ second) = (m.insertAll first).insertAll second :=
  List.foldl_append

theorem pairwise_keys_insertAll {m : Keyed α} (h : (keys m).Pairwise (· < ·))
    (writes : List (String × α)) : (keys (m.insertAll writes)).Pairwise (· < ·) := by
  induction writes generalizing m with
  | nil => exact h
  | cons w writes ih => exact ih (pairwise_keys_insert h w.1 w.2)

theorem find?_insertAll_of_notMem {key : String} {names : List String} (h : key ∉ names)
    (values : List α) (m : Keyed α) :
    find? key (m.insertAll (names.zip values)) = find? key m := by
  induction names generalizing values m with
  | nil => rfl
  | cons first names ih =>
    obtain ⟨other, later⟩ := not_or.1 (mt List.mem_cons.2 h)
    cases values with
    | nil => rfl
    | cons v values =>
      show find? key (insertAll (insert first v m) (names.zip values)) = _
      rw [ih later, find?_insert_of_ne (Ne.symm other)]

/-- Of values that are set under different names, each is found under its name. -/
theorem find?_insertAll_zip {names : List String} (distinct : names.Nodup) {key : String} {v : α}
    {values : List α} {j : Nat} (hkey : names[j]? = some key) (hv : values[j]? = some v)
    (m : Keyed α) : find? key (m.insertAll (names.zip values)) = some v := by
  induction names generalizing values j m with
  | nil => cases hkey
  | cons first names ih =>
    obtain ⟨once, distinct⟩ := List.nodup_cons.1 distinct
    cases values with
    | nil => cases hv
    | cons w values =>
      cases j with
      | zero =>
        cases hkey
        cases hv
        exact (find?_insertAll_of_notMem once values _).trans (find?_insert_self key v m)
      | succ j => exact ih distinct hkey hv _

end Stratagem.Keyed
