/-
  Harvest.Text.Blank — white space and letter case of words.

  Blank is the Unicode property White_Space, twenty-five characters; `trim` takes the
  blanks off both ends of a text and leaves those inside. Case is folded for the ASCII
  letters alone, because every word that is compared without case is ASCII.
-/

namespace Harvest.Text

/-- The closed code point ranges of the property White_Space. -/
def blanks : List (Nat × Nat) :=
  [(0x9, 0xd), (0x20, 0x20), (0x85, 0x85), (0xa0, 0xa0), (0x1680, 0x1680), (0x2000, 0x200a), (0x2028, 0x2029),
    (0x202f, 0x202f), (0x205f, 0x205f), (0x3000, 0x3000)]

def isBlank (c : Char) : Bool :=
  blanks.any fun (first, last) => first ≤ c.toNat && c.toNat ≤ last

def trimChars (cs : List Char) : List Char :=
  ((cs.dropWhile isBlank).reverse.dropWhile isBlank).reverse

/-- The text without the blanks at its two ends. -/
def trim (s : String) : String := String.ofList (trimChars s.toList)

/-- The text with `A` to `Z` in lower case. -/
def lower (s : String) : String := s.map Char.toLower

/-- A word read without case and without the blanks around it. -/
def word (s : String) : String := lower (trim s)

end Harvest.Text
