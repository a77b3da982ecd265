/-!
# Blank characters

The characters with the `White_Space` property, and trimming. Texts are taken apart as lists of
characters, so that what a scan consumed and what it left are both lists; `bytes` measures such a
list in the encoding that offsets are counted in.
-/

namespace Stratagem.Text

/-- The 25 characters with the `White_Space` property. -/
def isBlank (c : Char) : Bool :=
  let n := c.toNat
  (0x09 ≤ n && n ≤ 0x0D) || n == 0x20 || n == 0x85 || n == 0xA0 || n == 0x1680 ||
    (0x2000 ≤ n && n ≤ 0x200A) || n == 0x2028 || n == 0x2029 || n == 0x202F || n == 0x205F ||
    n == 0x3000

/-- The characters from the first one that is not blank. -/
def skipBlanks (cs : List Char) : List Char := cs.dropWhile isBlank

/-- The characters without the blank ones at either end. -/
def trimChars (cs : List Char) : List Char := (skipBlanks (skipBlanks cs).reverse).reverse

/-- A text without the blank characters at either end. -/
def trim (s : String) : String := String.ofList (trimChars s.toList)

/-- A text that holds nothing, or blank characters only. -/
def isBlankText (s : String) : Bool := s.toList.all isBlank

/-- The length of a list of characters in bytes. -/
def bytes : List Char → Nat
  | [] => 0
  | c :: cs => c.utf8Size + bytes cs

/-- The number of characters in front of a byte offset, unless the offset lies past the end or
inside a character. -/
def charsBefore : Nat → List Char → Option Nat
  | 0, _ => some 0
  | _ + 1, [] => none
  | n + 1, c :: cs =>
    if c.utf8Size ≤ n + 1 then (charsBefore (n + 1 - c.utf8Size) cs).map (· + 1) else none

end Stratagem.Text
