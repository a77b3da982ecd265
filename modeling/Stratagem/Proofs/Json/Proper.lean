import Stratagem.Json.Value

/-!
# Proper values

JSON has no numbers but whole numbers of 64 bits, with or without a sign, and finite doubles. A
value is proper if it holds no others, at whatever depth.
-/

namespace Stratagem.Json

/-- All numbers in the value are whole numbers of 64 bits or finite doubles. -/
inductive Proper : Json → Prop
  | null : Proper .null
  | bool (b : Bool) : Proper (.bool b)
  | int {n : Int} (low : -Decimal.int64Limit ≤ n) (high : n < 2 * Decimal.int64Limit) :
      Proper (.int n)
  | float {x : Float} (finite : x.isFinite = true) : Proper (.float x)
  | text (s : String) : Proper (.text s)
  | array {items : List Json} (h : ∀ v ∈ items, Proper v) : Proper (.array items)
  | object {members : List (String × Json)} (h : ∀ m ∈ members, Proper m.2) :
      Proper (.object members)

end Stratagem.Json
