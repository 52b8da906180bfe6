/-
  Harvest.Report.Text — a report as a listing.

  There is a line for each row, then one for each skipped branch, then the totals. Names
  and labels are written as they are; a surfaced value is compact JSON.
-/

import Harvest.Report.Basic

namespace Harvest

def Row.line (r : Row) : String :=
  Text.padRight 8 r.kind.text ++ " ix:" ++ Text.padRight 4 (toString r.position) ++
    " spec_name:" ++ Text.padRight 12 (r.specName.getD "NULL") ++
    " elem_name:" ++ Text.padRight 12 (r.elementName.getD "NULL") ++ " " ++ r.value.elim "-" Json.compact

namespace Report

def totalsLine (r : Report) : String :=
  toString r.rows.length ++ " records (" ++ toString (r.count .value) ++ " values, " ++
    toString (r.count .ordinal) ++ " ordinals), " ++ toString r.mismatches.length ++ " skipped branches"

def lines (r : Report) : List String :=
  r.rows.map Row.line ++ r.mismatches.map ("skipped  " ++ ·) ++ [r.totalsLine]

def text (r : Report) : String := String.join (r.lines.map Text.line)

end Report

end Harvest
