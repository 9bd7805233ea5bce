import Landing.Text.Layout

/-!
# Complaints

What a command says when it fails: what it was doing, and below that the causes,
outermost first.  Several causes are numbered; a single one is not.
-/

namespace Landing.CommandLine

/-- An error with its causes, in words. -/
structure Complaint where
  message : String
  causes : List String
  deriving DecidableEq

namespace Complaint

/-- A text with `first` before its first line and `others` before every other one. -/
def indent (first others : String) (text : String) : String :=
  first ++ String.ofList (text.toList.flatMap fun c => if c = '\n' then c :: others.toList else [c])

/-- Causes numbered from `n` on. -/
def numbered : (n : Nat) → List String → List String
  | _, [] => []
  | n, cause :: rest =>
    let number := toString n
    let margin := String.ofList (List.replicate (5 - number.length) ' ') ++ number ++ ": "
    indent margin "       " cause :: numbered (n + 1) rest

/-- The lines about the causes. -/
def causeLines : List String → List String
  | [] => []
  | [cause] => ["", "Caused by:", indent "    " "    " cause]
  | causes => "" :: "Caused by:" :: numbered 0 causes

/-- The whole complaint. -/
def text (c : Complaint) : String :=
  "Error: " ++ Text.join "\n" (c.message :: causeLines c.causes) ++ "\n"

end Complaint

end Landing.CommandLine
