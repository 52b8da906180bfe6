/-
  Harvest.Command.Run — the two commands.

  `match` reads a description and an input, matches them and puts the report out, to a
  file if one is named. `describe` lists the tree of a description. The tree is built
  before the input is read, nothing is written before everything else has succeeded, and
  a failure says what was attempted and why it failed.
-/

import Harvest.Command.Arguments
import Harvest.Command.Files
import Harvest.Description.Tree
import Harvest.Json.Reader
import Harvest.Report.Json
import Harvest.Report.Text
import Harvest.Spec.Listing

namespace Harvest

/-! ## Failures -/

/-- A message with the name of the program before it. -/
def errorMessage (message : String) : String := "unnest-spec: " ++ message

inductive Failure where
  /-- What was attempted, and why it failed, the nearest cause first. -/
  | attempt (action : String) (causes : List String)
  /-- A check of the program on itself did not hold. -/
  | internal (message : String)
  deriving DecidableEq, Repr

namespace Failure

def status : Failure → Nat
  | attempt .. => 1
  | internal _ => 101

/-- A cause, set in. Its further lines are set in as far as the first, whose number
    stands before it when there are several causes. -/
def causeText (number : Option Nat) (cause : String) : String :=
  let lines := (cause.toList.splitOn '\n').map String.ofList
  match number with
  | none => "    " ++ String.intercalate "\n    " lines
  | some n => String.ofList (List.replicate (5 - (toString n).length) ' ') ++ toString n ++ ": " ++
      String.intercalate "\n       " lines

def causeTexts : List String → List String
  | [cause] => [causeText none cause]
  | causes => causes.mapIdx fun n cause => causeText (some n) cause

def text : Failure → String
  | attempt action causes =>
    let cause := if causes.isEmpty then "" else "\n\nCaused by:\n" ++ String.intercalate "\n" (causeTexts causes)
    Text.line ("Error: " ++ errorMessage action ++ cause)
  | internal message => Text.line message

end Failure

/-! ## Documents -/

/-- The document in a file's content. -/
def documentOf (path : String) (content : Except FileError ByteArray) : Except Failure Json :=
  match content with
  | .error e => .error (.attempt ("read " ++ path) [e.message])
  | .ok bytes =>
    match String.fromUTF8? bytes with
    | none => .error (.attempt ("read " ++ path) ["stream did not contain valid UTF-8"])
    | some text =>
      match Json.parse text with
      | .error e => .error (.attempt ("parse JSON in " ++ path) [e.message])
      | .ok v => .ok v

/-- The causes that a rejection gives: where it is placed below the root, the problem
    with its place and then the problem. -/
def Rejection.causes (r : Rejection) : List String :=
  if r.place.isEmpty then [r.problem.message] else [r.message "", r.problem.message]

/-- The tree of a description, and a warning if the document does not look like one. -/
def specOf (path : String) (v : Json) : List LogLine × Except Failure Spec :=
  let log := if v.looksLikeSpec then [] else
    [{ level := .warn, message := path ++ " does not look like a spec description" }]
  match Spec.ofJson v with
  | .ok spec => (log, .ok spec)
  | .error r => (log, .error (.attempt ("invalid spec in " ++ path) r.causes))

/-! ## Reports -/

def Report.render (r : Report) : Format → String
  | .json => r.jsonText
  | .text => r.text

/-- The rendered report of a match. -/
def reportOf (a : MatchArguments) (spec : Spec) (v : Json) : List LogLine × Except Failure String :=
  let log := (spec.explore a.mode v).2.notes.map Note.logLine
  match spec.gather a.mode v with
  | .error (.mismatch m) =>
    (log, .error (.attempt ("match " ++ a.spec ++ " against " ++ a.input) [m.message]))
  | .error (.stale node) => (log, .error (.internal (Halt.message (V := Json) (.stale node))))
  | .ok y =>
    let matched : LogLine :=
      { level := .info
        message := "matched " ++ a.input
        fields := [("records", toString y.records.length), ("skipped", toString y.mismatches.length)] }
    (log ++ [matched], .ok ((Report.ofYield spec y).render a.format))

/-! ## Commands -/

/-- What a run shows. -/
structure Answer where
  status : Nat
  stdout : String
  stderr : String
  deriving DecidableEq, Repr

namespace Answer

def ofResult (threshold : Option Level) (log : List LogLine) : Except Failure String → Answer
  | .ok text => ⟨0, text, logText threshold log⟩
  | .error f => ⟨f.status, "", logText threshold log ++ f.text⟩

def ofRefusal : Refusal → Answer
  | .usage => ⟨2, "", "Usage: unnest-spec [--log-level LEVEL] <match|describe> [OPTIONS]\n"⟩
  | .help => ⟨0, "Match declarative unnest specs against nested JSON\n", ""⟩

end Answer

variable {m : Type → Type} [Monad m]

def loadSpec (files : Files m) (path : String) : m (List LogLine × Except Failure Spec) := do
  match documentOf path (← files.read path) with
  | .error f => return ([], .error f)
  | .ok v => return specOf path v

def runMatch (files : Files m) (a : MatchArguments) : m (List LogLine × Except Failure String) := do
  match ← loadSpec files a.spec with
  | (log, .error f) => return (log, .error f)
  | (log, .ok spec) =>
    match documentOf a.input (← files.read a.input) with
    | .error f => return (log, .error f)
    | .ok v =>
      match reportOf a spec v, a.out with
      | (log', .error f), _ => return (log ++ log', .error f)
      | (log', .ok text), none => return (log ++ log', .ok text)
      | (log', .ok text), some path =>
        match ← files.write path text.toUTF8 with
        | .error e => return (log ++ log', .error (.attempt ("write " ++ path) [e.message]))
        | .ok () => return (log ++ log', .ok (Text.line ("Wrote " ++ path)))

def runDescribe (files : Files m) (path : String) : m (List LogLine × Except Failure String) := do
  let (log, spec) ← loadSpec files path
  return (log, spec.map Spec.listing)

def runCommand (files : Files m) : Command → m (List LogLine × Except Failure String)
  | .gather a => runMatch files a
  | .describe path => runDescribe files path

/-- A run of the program with these arguments. -/
def run (files : Files m) (args : List String) : m Answer :=
  match Invocation.ofArguments args with
  | .error r => return Answer.ofRefusal r
  | .ok i => do
    let (log, result) ← runCommand files i.command
    return Answer.ofResult i.threshold log result

end Harvest
