/-!
# Keyed lists

A keyed list gives values to texts. `insert` keeps the keys in ascending order and each at most
once, so that a keyed list built by insertions is a canonical form: it depends on what is looked
up in it only. `insertAll` sets several values, of which the last one of a key counts.
-/

namespace Stratagem

/-- Values by name, in ascending order of the names. -/
abbrev Keyed (α : Type) := List (String × α)

namespace Keyed

variable {α : Type}

/-- The value at a key. -/
def find? (key : String) : Keyed α → Option α
  | [] => none
  | (k, v) :: rest => if k = key then some v else find? key rest

/-- The list with `key` bound to `value`, in place of any earlier value. -/
def insert (key : String) (value : α) : Keyed α → Keyed α
  | [] => [(key, value)]
  | (k, v) :: rest =>
    if key < k then (key, value) :: (k, v) :: rest
    else if k = key then (key, value) :: rest
    else (k, v) :: insert key value rest

/-- The keys, in order. -/
def keys (m : Keyed α) : List String := m.map Prod.fst

/-- Whether a key has a value. -/
def contains (key : String) (m : Keyed α) : Bool := (find? key m).isSome

/-- The list with values set under names, one after the other. -/
def insertAll (m : Keyed α) (writes : List (String × α)) : Keyed α :=
  writes.foldl (fun m w => insert w.1 w.2 m) m

/-- The list built by inserting pairs one after the other, so that the last value of a key wins. -/
def ofPairs (pairs : List (String × α)) : Keyed α :=
  pairs.foldl (fun m p => insert p.1 p.2 m) []

end Keyed

end Stratagem
