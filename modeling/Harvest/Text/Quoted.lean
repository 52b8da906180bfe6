/-
  Harvest.Text.Quoted — a text between quotes, as an error message shows it.

  Every character that has no glyph of its own is written by its code point, so a
  quoted text is one line of shown characters whatever the text holds.
-/

import Harvest.Text.Printable

namespace Harvest.Text

/-- The lower-case hexadecimal digits of `n`, at least one. -/
def hex (n : Nat) : String := String.ofList (Nat.toDigits 16 n)

def quoteChar (c : Char) : String :=
  match c with
  | '"' => "\\\""
  | '\\' => "\\\\"
  | '\n' => "\\n"
  | '\r' => "\\r"
  | '\t' => "\\t"
  | '\x00' => "\\0"
  | c => if isShown c then c.toString else "\\u\x7b" ++ hex c.toNat ++ "\x7d"

/-- The text between double quotes, with escapes. -/
def quoted (s : String) : String := "\"" ++ String.join (s.toList.map quoteChar) ++ "\""

end Harvest.Text
