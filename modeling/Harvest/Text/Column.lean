/-
  Harvest.Text.Column — columns of a listing, padded by characters.
-/

namespace Harvest.Text

/-- The text followed by as many spaces as it lacks of `width` characters. -/
def padRight (width : Nat) (s : String) : String := s ++ String.ofList (List.replicate (width - s.length) ' ')

/-- Two spaces for each level. -/
def indent (depth : Nat) : String := String.ofList (List.replicate (2 * depth) ' ')

/-- The text with a line feed after it. -/
def line (s : String) : String := s ++ "\n"

end Harvest.Text
