/-
  Harvest.Json.Fault — what is wrong with a text that is not a document, and where.

  A fault is found by a reader that sees only the text still ahead, so it is placed by
  the number of bytes left after it. The message gives the line, from one, and the
  number of bytes of that line before the place, the byte that shows the fault included.
-/

namespace Harvest.Json

inductive Cause where
  | endInValue
  | endInList
  | endInObject
  | endInString
  | valueExpected
  | wordExpected
  | colonExpected
  | listCommaOrEnd
  | objectCommaOrEnd
  | trailingComma
  | trailingCharacters
  | nameNotString
  | invalidNumber
  | outOfRange
  | invalidEscape
  | controlCharacter
  | loneSurrogate
  | unfinishedSurrogate
  | tooDeep
  deriving DecidableEq, Repr

def Cause.message : Cause → String
  | .endInValue => "EOF while parsing a value"
  | .endInList => "EOF while parsing a list"
  | .endInObject => "EOF while parsing an object"
  | .endInString => "EOF while parsing a string"
  | .valueExpected => "expected value"
  | .wordExpected => "expected ident"
  | .colonExpected => "expected `:`"
  | .listCommaOrEnd => "expected `,` or `]`"
  | .objectCommaOrEnd => "expected `,` or `\x7d`"
  | .trailingComma => "trailing comma"
  | .trailingCharacters => "trailing characters"
  | .nameNotString => "key must be a string"
  | .invalidNumber => "invalid number"
  | .outOfRange => "number out of range"
  | .invalidEscape => "invalid escape"
  | .controlCharacter => "control character (\\u0000-\\u001F) found while parsing a string"
  | .loneSurrogate => "lone leading surrogate in hex escape"
  | .unfinishedSurrogate => "unexpected end of hex escape"
  | .tooDeep => "recursion limit exceeded"

/-- A fault noticed when `left` bytes of the text were still ahead. -/
structure Fault where
  cause : Cause
  left : Nat
  deriving DecidableEq, Repr

/-- The length in UTF-8. -/
def bytes : List Char → Nat
  | [] => 0
  | c :: s => c.utf8Size + bytes s

/-- The fault noticed `seen` bytes into `rest`: most faults show in the byte ahead. -/
def Fault.at (cause : Cause) (rest : List Char) (seen : Nat := 1) : Fault := ⟨cause, bytes rest - seen⟩

def fail {α : Type} (cause : Cause) (rest : List Char) (seen : Nat := 1) : Except Fault α :=
  .error (.at cause rest seen)

/-- What a mapped reading comes from. -/
theorem of_map_ok {α β : Type} {x : Except Fault α} {f : α → β} {b : β} (h : x.map f = .ok b) :
    ∃ a, x = .ok a ∧ f a = b := by
  cases x with
  | error e => cases h
  | ok a => cases h; exact ⟨a, rfl, rfl⟩

/-- What a reading in two stages comes from. -/
theorem of_bind_ok {α β : Type} {x : Except Fault α} {f : α → Except Fault β} {b : β} (h : (x >>= f) = .ok b) :
    ∃ a, x = .ok a ∧ f a = .ok b := by
  cases x with
  | error e => cases h
  | ok a => exact ⟨a, rfl, h⟩

/-- A fault at its place in a text. -/
structure SyntaxError where
  cause : Cause
  line : Nat
  column : Nat
  deriving DecidableEq, Repr

def Fault.inText (f : Fault) (text : String) : SyntaxError :=
  let before := text.toUTF8.toList.take (text.utf8ByteSize - f.left)
  { cause := f.cause
    line := before.count 10 + 1
    column := (before.reverse.takeWhile (· != 10)).length }

def SyntaxError.message (e : SyntaxError) : String :=
  e.cause.message ++ " at line " ++ toString e.line ++ " column " ++ toString e.column

end Harvest.Json
