import Landing.Submission.Signal
import Landing.Text.Numeral

/-!
# Verbosity

How much a program says about its own work.  The standing directives let warnings
of everything through and the chosen level of the program's own parts.
-/

namespace Landing

/-- The levels of verbosity, quietest first. -/
inductive Verbosity where
  | error
  | warn
  | info
  | debug
  | trace
  deriving DecidableEq

namespace Verbosity

def text : Verbosity → String
  | error => "error"
  | warn => "warn"
  | info => "info"
  | debug => "debug"
  | trace => "trace"

/-- The levels by rank. -/
def ofRank? : Nat → Option Verbosity
  | 1 => some error
  | 2 => some warn
  | 3 => some info
  | 4 => some debug
  | 5 => some trace
  | _ => none

/-- The level with this name, in any case of letters. -/
def ofName? (s : String) : Option Verbosity :=
  match s.toLower with
  | "error" => some error
  | "warn" => some warn
  | "info" => some info
  | "debug" => some debug
  | "trace" => some trace
  | _ => none

/-- The level with this name or rank. -/
def ofText? (s : String) : Option Verbosity :=
  match Text.natural? s with
  | some n => ofRank? n
  | none => ofName? s

/-- Whether log lines of a level are let through. -/
def admits : Verbosity → LogLevel → Bool
  | error, _ => false
  | warn, .warn => true
  | warn, .info => false
  | _, _ => true

/-- The directives that hold unless others are given. -/
def directives (v : Verbosity) : String :=
  "warn,changegate=" ++ v.text ++ ",changegate_core=" ++ v.text ++ ",changegate_state=" ++ v.text

end Verbosity

end Landing
