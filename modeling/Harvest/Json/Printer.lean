/-
  Harvest.Json.Printer — the text of a document, compact and over several lines.

  Both forms keep the order of items and members. A string escapes the quote, the
  backslash and the control characters below U+0020, the five usual ones by a letter
  and the others by four hexadecimal digits, and holds every other character as it is.
-/

import Harvest.Decimal.Notation
import Harvest.Json.Basic
import Harvest.Text.Column
import Harvest.Text.Quoted

namespace Harvest.Json

/-- A double is written in plain notation when its leading digit stands between the fifth
    place after the point and the sixteenth before it. -/
def numberLayout : Decimal.Layout := ⟨-5, 15⟩

def escapeChar (c : Char) : List Char :=
  if c = '"' then ['\\', '"']
  else if c = '\\' then ['\\', '\\']
  else if c = '\x08' then ['\\', 'b']
  else if c = '\t' then ['\\', 't']
  else if c = '\n' then ['\\', 'n']
  else if c = '\x0c' then ['\\', 'f']
  else if c = '\r' then ['\\', 'r']
  else if c.toNat < 0x20 then
    ['\\', 'u', '0', '0', Nat.digitChar (c.toNat / 16), Nat.digitChar (c.toNat % 16)]
  else [c]

def stringText (s : String) : String := "\"" ++ String.ofList (s.toList.flatMap escapeChar) ++ "\""

/-! ## Compact text -/

mutual

def compact : Json → String
  | .null => "null"
  | .bool true => "true"
  | .bool false => "false"
  | .int n => toString n
  | .float x => numberLayout.text x
  | .string s => stringText s
  | .array items => "[" ++ String.intercalate "," (compactItems items) ++ "]"
  | .object members => "\x7b" ++ String.intercalate "," (compactMembers members) ++ "\x7d"

def compactItems : List Json → List String
  | [] => []
  | v :: rest => compact v :: compactItems rest

def compactMembers : List (String × Json) → List String
  | [] => []
  | (name, v) :: rest => (stringText name ++ ":" ++ compact v) :: compactMembers rest

end

/-! ## Text over several lines -/

/-- A bracketed list: a line for each part one level deeper, or nothing between the brackets. -/
def block (opening closing : String) (level : Nat) (parts : List String) : String :=
  if parts.isEmpty then opening ++ closing
  else opening ++ "\n" ++ String.intercalate ",\n" (parts.map (Text.indent (level + 1) ++ ·)) ++
    "\n" ++ Text.indent level ++ closing

mutual

/-- The text of a value that stands `level` containers deep. -/
def prettyAt (level : Nat) : Json → String
  | .array items => block "[" "]" level (prettyItems (level + 1) items)
  | .object members => block "\x7b" "\x7d" level (prettyMembers (level + 1) members)
  | v => compact v

def prettyItems (level : Nat) : List Json → List String
  | [] => []
  | v :: rest => prettyAt level v :: prettyItems level rest

def prettyMembers (level : Nat) : List (String × Json) → List String
  | [] => []
  | (name, v) :: rest => (stringText name ++ ": " ++ prettyAt level v) :: prettyMembers level rest

end

/-- The text with two spaces for each level of nesting. -/
def pretty (v : Json) : String := prettyAt 0 v

end Harvest.Json
