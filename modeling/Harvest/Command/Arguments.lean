/-
  Harvest.Command.Arguments — the command line taken apart.

  Options stand before or after the name of a command, each where it belongs; the log
  level may stand in both places, and the one after the name counts. A long option takes
  its value after `=` or from the next argument, a short one also from the rest of its
  own argument. A value in an argument of its own may not start with a dash, unless it
  is a dash alone. No option may be repeated in one place. Arguments are judged from
  left to right, so a request for help counts if nothing before it is amiss.
-/

import Harvest.Log

namespace Harvest

/-! ## Commands -/

inductive Format where
  | json
  | text
  deriving DecidableEq, Repr

structure MatchArguments where
  spec : String
  input : String
  out : Option String
  format : Format
  mode : Mode
  deriving DecidableEq, Repr

inductive Command where
  | gather (a : MatchArguments)
  | describe (spec : String)
  deriving DecidableEq, Repr

structure Invocation where
  threshold : Option Level
  command : Command
  deriving DecidableEq, Repr

/-- Why no command is run. -/
inductive Refusal where
  | usage
  | help
  deriving DecidableEq, Repr

/-! ## Options -/

inductive Switch where
  | logLevel
  | spec
  | input
  | out
  | format
  | strict
  deriving DecidableEq, Repr

namespace Switch

def all : List Switch := [logLevel, spec, input, out, format, strict]

def name : Switch → String
  | logLevel => "log-level"
  | spec => "spec"
  | input => "input"
  | out => "out"
  | format => "format"
  | strict => "strict"

def letter? : Switch → Option Char
  | out => some 'o'
  | _ => none

def takesValue (s : Switch) : Bool := s != strict

/-- Whether the option may have a value. -/
def allows (s : Switch) (value : String) : Bool := s != format || value == "json" || value == "text"

end Switch

/-- The options given in one place, with their values. -/
abbrev Settings := List (Switch × String)

namespace Settings

def get? (s : Settings) (switch : Switch) : Option String := (s.find? (·.1 == switch)).map (·.2)

def set (s : Settings) (switch : Switch) (value : String) : Except Refusal Settings :=
  if (s.get? switch).isSome || !switch.allows value then .error .usage else .ok ((switch, value) :: s)

end Settings

/-- An argument by its form. -/
inductive Argument where
  | long (name : String) (value : Option String)
  | short (letter : Char) (rest : List Char)
  | escape
  | plain (s : String)
  deriving DecidableEq, Repr

def Argument.ofString (s : String) : Argument :=
  match s.toList with
  | ['-', '-'] => .escape
  | '-' :: '-' :: cs =>
    let name := String.ofList (cs.takeWhile (· != '='))
    match cs.dropWhile (· != '=') with
    | [] => .long name none
    | _ :: value => .long name (some (String.ofList value))
  | '-' :: c :: cs => .short c cs
  | _ => .plain s

/-- Whether an argument can be the value of the option before it. -/
def Argument.isValue : Argument → Bool
  | .plain _ => true
  | _ => false

/-- The option of an argument and the value inside the argument, among those allowed. -/
def Argument.switch? (allowed : List Switch) : Argument → Except Refusal (Switch × Option String)
  | .long name value =>
    if name = "help" ∧ value.isNone then .error .help
    else match allowed.find? (·.name == name) with
      | none => .error .usage
      | some s => if s.takesValue || value.isNone then .ok (s, value) else .error .usage
  | .short letter rest =>
    if letter = 'h' then .error .help
    else match allowed.find? (·.letter? == some letter) with
      | none => .error .usage
      | some s => .ok (s, match rest with
        | [] => none
        | '=' :: value => some (String.ofList value)
        | _ => some (String.ofList rest))
  | _ => .error .usage

/-- The options up to the first plain argument, and the arguments from there on. -/
def Settings.scan (allowed : List Switch) (s : Settings) : List String → Except Refusal (Settings × List String)
  | [] => .ok (s, [])
  | arg :: rest =>
    match Argument.ofString arg with
    | .plain _ => .ok (s, arg :: rest)
    | .escape => if rest.isEmpty then .ok (s, []) else .error .usage
    | a =>
      match a.switch? allowed with
      | .error r => .error r
      | .ok (switch, some value) => do Settings.scan allowed (← s.set switch value) rest
      | .ok (switch, none) =>
        if !switch.takesValue then do Settings.scan allowed (← s.set switch "") rest
        else match rest with
          | value :: rest =>
            if (Argument.ofString value).isValue then do Settings.scan allowed (← s.set switch value) rest
            else .error .usage
          | [] => .error .usage

/-! ## The whole line -/

def Settings.require (s : Settings) (switch : Switch) : Except Refusal String :=
  match s.get? switch with
  | some value => .ok value
  | none => .error .usage

/-- The options of a command, which takes no plain arguments. -/
def commandSettings (allowed : List Switch) (args : List String) : Except Refusal Settings := do
  let (s, rest) ← Settings.scan allowed [] args
  if rest.isEmpty then return s else throw .usage

def MatchArguments.ofSettings (s : Settings) : Except Refusal MatchArguments := do
  let spec ← s.require .spec
  let input ← s.require .input
  return {
    spec
    input
    out := s.get? .out
    format := if s.get? .format = some "text" then .text else .json
    mode := if (s.get? .strict).isSome then .strict else .lenient }

/-- The threshold asked for after the command's name, else before it, else for warnings. -/
def Settings.threshold (outer inner : Settings) : Option Level :=
  Level.threshold? (((inner.get? .logLevel).or (outer.get? .logLevel)).getD "warn")

def commandNames : List String := ["match", "describe", "help"]

def Invocation.ofArguments (args : List String) : Except Refusal Invocation := do
  match ← Settings.scan [.logLevel] [] args with
  | (outer, "match" :: rest) =>
    let inner ← commandSettings Switch.all rest
    return ⟨Settings.threshold outer inner, .gather (← MatchArguments.ofSettings inner)⟩
  | (outer, "describe" :: rest) =>
    let inner ← commandSettings [.logLevel, .spec] rest
    return ⟨Settings.threshold outer inner, .describe (← inner.require .spec)⟩
  | (_, ["help"]) => throw .help
  | (_, ["help", name]) => throw (if commandNames.contains name then .help else .usage)
  | _ => throw .usage

end Harvest
