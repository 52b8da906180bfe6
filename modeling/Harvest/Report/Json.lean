/-
  Harvest.Report.Json — a report as a JSON document.

  The document has the rows in order under `records`, the skipped branches under
  `mismatches`, and the totals. What a row lacks is null.
-/

import Harvest.Report.Basic

namespace Harvest

def Row.toJson (r : Row) : Json :=
  .object [
    ("ix", .nat r.position),
    ("kind", .string r.kind.text),
    ("spec_name", .text? r.specName),
    ("elem_name", .text? r.elementName),
    ("stack", .string r.stack.text),
    ("process", .string r.process.text),
    ("value", r.value.getD .null)]

namespace Report

def totals (r : Report) : Json :=
  .object [
    ("records", .nat r.rows.length),
    ("values", .nat (r.count .value)),
    ("ordinals", .nat (r.count .ordinal)),
    ("mismatches", .nat r.mismatches.length)]

def toJson (r : Report) : Json :=
  .object [
    ("spec", .string r.spec),
    ("records", .array (r.rows.map Row.toJson)),
    ("mismatches", .array (r.mismatches.map .string)),
    ("totals", r.totals)]

/-- The document over several lines, ended by a line feed. -/
def jsonText (r : Report) : String := Text.line r.toJson.pretty

end Report

end Harvest
