/-
  Harvest.Log — what a run tells about itself.

  A log line has a level, a message and named fields. A threshold lets through the lines
  of its level and of the graver ones. In a message the characters that steer a terminal
  are written by their code points.
-/

import Harvest.Matching.Outcome
import Harvest.Text.Blank
import Harvest.Text.Column
import Harvest.Text.Quoted

namespace Harvest

/-! ## Levels -/

inductive Level where
  | error
  | warn
  | info
  | debug
  | trace
  deriving DecidableEq, Repr

namespace Level

def all : List Level := [error, warn, info, debug, trace]

def name : Level → String
  | error => "error"
  | warn => "warn"
  | info => "info"
  | debug => "debug"
  | trace => "trace"

/-- The graver the level, the smaller the rank, from one on. -/
def rank : Level → Nat
  | error => 1
  | warn => 2
  | info => 3
  | debug => 4
  | trace => 5

/-- The threshold a word or a rank names; any other text lets nothing through. -/
def threshold? (s : String) : Option Level :=
  all.find? fun l => l.name == Text.lower s || toString l.rank == s

/-- Whether a threshold lets a level through. -/
def passes (threshold : Option Level) (l : Level) : Bool := threshold.any (l.rank ≤ ·.rank)

end Level

/-! ## Lines -/

structure LogLine where
  level : Level
  message : String
  fields : List (String × String) := []
  deriving DecidableEq, Repr

/-- A character of a message: those that steer a terminal are escaped. -/
def LogLine.messageChar (c : Char) : String :=
  if c = '\x1b' then "\\x1b"
  else if c = '\x07' then "\\x07"
  else if c = '\x08' then "\\x08"
  else if c = '\x0c' then "\\x0c"
  else if c = '\x7f' then "\\x7f"
  else if 0x80 ≤ c.toNat ∧ c.toNat ≤ 0x9f then "\\u\x7b" ++ Text.hex c.toNat ++ "\x7d"
  else c.toString

def LogLine.text (l : LogLine) : String :=
  l.level.name.map Char.toUpper ++ " " ++ String.join (l.message.toList.map messageChar) ++
    String.join (l.fields.map fun (name, value) => " " ++ name ++ "=" ++ value)

/-- The lines that a threshold lets through, each ended by a line feed. -/
def logText (threshold : Option Level) (lines : List LogLine) : String :=
  String.join ((lines.filter fun l => Level.passes threshold l.level).map fun l => Text.line l.text)

/-! ## The log of a match -/

/-- At a low level what a node chose, and each skipped branch. -/
def Note.logLine {V : Type} [Nesting V] : Note V → LogLine
  | .chose node chosen available =>
    { level := .debug
      message := "selected elements"
      fields := [("spec", node.text), ("selected", toString chosen), ("available", toString available)] }
  | .skipped m => { level := .warn, message := "skipping branch: " ++ m.message }

end Harvest
