import Landing.Policy
import Landing.Toml.Reader

/-!
# Policy files

A policy file is a TOML table with any of the four settings of a policy; other
keys mean nothing.  A strategy is written by its exact name, or as the only key of
a table or an empty collection stands for it; an identity is a table with a name
and an address, or a list that begins with both.
-/

namespace Landing.Policy

open Toml (Value Entries)

/-- A truth value. -/
def boolOfToml? : Value → Option Bool
  | .bool b => some b
  | _ => none

/-- A text. -/
def stringOfToml? : Value → Option String
  | .string s => some s
  | _ => none

/-- A collection without content. -/
def isEmptyCollection : Value → Bool
  | .array [] => true
  | .table _ [] => true
  | _ => false

/-- A strategy: its name, or a table whose only key is the name and holds nothing. -/
def strategyOfToml? : Value → Option Strategy
  | .string s => Strategy.ofText? s
  | .table _ [(key, v)] => if isEmptyCollection v then Strategy.ofText? key else none
  | _ => none

/-- Strategies by project. -/
def strategiesOfToml? : Value → Option (Table ProjectName Strategy)
  | .table _ entries =>
    (entries.mapM fun e => (strategyOfToml? e.2).map fun s => (e.1, s)).map Table.ofList
  | _ => none

/-- A name and an address. -/
def signatureOfToml? : Value → Option Signature
  | .table _ entries => do
    let name ← (Entries.get? entries "name").bind stringOfToml?
    let email ← (Entries.get? entries "email").bind stringOfToml?
    some ⟨name, email⟩
  | .array (name :: email :: _) => do
    let name ← stringOfToml? name
    let email ← stringOfToml? email
    some ⟨name, email⟩
  | _ => none

/-- A setting that takes its standard value when it is left out. -/
def setting (entries : Entries) (key : String) (standard : α) (read : Value → Option α) :
    Option α :=
  match entries.get? key with
  | some v => read v
  | none => some standard

/-- The policy that the entries of a file give. -/
def ofToml? (entries : Entries) : Option Policy := do
  let wholeTopic ← setting entries "submit_whole_topic" standard.wholeTopic boolOfToml?
  let defaultStrategy ← setting entries "default_strategy" standard.defaultStrategy strategyOfToml?
  let projectStrategies ←
    setting entries "project_strategies" standard.projectStrategies strategiesOfToml?
  let serverIdent ← setting entries "server_ident" standard.serverIdent signatureOfToml?
  some { wholeTopic, defaultStrategy, projectStrategies, serverIdent }

/-- The policy that a text holds. -/
def ofText (text : String) : Except PolicyError Policy :=
  match (Toml.ofText? text).bind ofToml? with
  | some p => .ok p
  | none => .error (.parse "not a policy")

/-- The policy of a file at `path` with the given content, if there is one, overridden by the
environment. -/
def load (path : String) (content : Option String) (env : String → Option String) :
    Except PolicyError Policy :=
  match content with
  | none => .error (.io path "No such file or directory (os error 2)")
  | some text => (ofText text).bind (withEnvironment · env)

/-- The policy without a file. -/
def fromEnvironment (env : String → Option String) : Except PolicyError Policy :=
  standard.withEnvironment env

end Landing.Policy
