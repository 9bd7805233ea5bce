import Landing.Branch
import Landing.Commit
import Landing.Policy.Strategy

/-!
# Submission policy

Whether a submission takes whole topics, which strategy each project follows,
and who signs the merge commits.  A policy comes from a record or a policy file,
and environment variables then override it in a fixed order; the first unusable
value ends the reading.
-/

namespace Landing

/-- The rules that every submission follows. -/
structure Policy where
  /-- Take every open change with the same topic along. -/
  wholeTopic : Bool
  /-- The strategy of projects that are not listed. -/
  defaultStrategy : Strategy
  projectStrategies : Table ProjectName Strategy
  /-- The committer of merge commits. -/
  serverIdent : Signature
  deriving DecidableEq

/-- Why a policy cannot be read. -/
inductive PolicyError where
  /-- The file could not be read. -/
  | io (path : String) (detail : String)
  /-- The text is no policy. -/
  | parse (detail : String)
  /-- A setting has a value that means nothing. -/
  | invalidValue (key value : String)
  deriving DecidableEq

namespace PolicyError

/-- The error in words. -/
def message : PolicyError → String
  | io path detail => "failed to read config " ++ path ++ ": " ++ detail
  | parse detail => "invalid config: " ++ detail
  | invalidValue key value => "invalid value for " ++ key ++ ": " ++ value

/-- The errors behind this one, in words. -/
def causes : PolicyError → List String
  | io _ detail => [detail]
  | parse detail => [detail]
  | invalidValue .. => []

end PolicyError

/-- The strategy written as `s`, in any of the accepted spellings. -/
def Strategy.parse (s : String) : Except PolicyError Strategy :=
  match ofLooseText? s with
  | some strategy => .ok strategy
  | none => .error (.invalidValue "strategy" s)

namespace Policy

/-- The policy where nothing is set. -/
def standard : Policy where
  wholeTopic := false
  defaultStrategy := .mergeIfNecessary
  projectStrategies := .empty
  serverIdent := ⟨"changegate", "changegate@localhost"⟩

instance : Inhabited Policy := ⟨standard⟩

/-- The strategy that a project follows. -/
def strategyFor (p : Policy) (project : ProjectName) : Strategy :=
  (p.projectStrategies.get? project).getD p.defaultStrategy

/-- Set the strategy of one project. -/
def withProjectStrategy (p : Policy) (project : ProjectName) (s : Strategy) : Policy :=
  { p with projectStrategies := p.projectStrategies.insert project s }

/-! ### Environment -/

/-- The truth value written as `s`, in any case of letters. -/
def flag? (s : String) : Option Bool :=
  let s := s.toLower
  if s = "true" ∨ s = "1" ∨ s = "yes" then some true
  else if s = "false" ∨ s = "0" ∨ s = "no" then some false
  else none

/-- The variable that says whether whole topics are taken. -/
def wholeTopicVariable : String := "CHANGEGATE_SUBMIT_WHOLE_TOPIC"

/-- The variable with the default strategy. -/
def strategyVariable : String := "CHANGEGATE_STRATEGY"

/-- The variable with the name in merge commits. -/
def serverNameVariable : String := "CHANGEGATE_SERVER_NAME"

/-- The variable with the address in merge commits. -/
def serverEmailVariable : String := "CHANGEGATE_SERVER_EMAIL"

/-- Override the settings that the environment gives. -/
def withEnvironment (p : Policy) (env : String → Option String) : Except PolicyError Policy := do
  let p ← match env wholeTopicVariable with
    | none => pure p
    | some v =>
      match flag? v with
      | some b => pure { p with wholeTopic := b }
      | none => throw (.invalidValue wholeTopicVariable v)
  let p ← match env strategyVariable with
    | none => pure p
    | some v => do
      let s ← Strategy.parse v
      pure { p with defaultStrategy := s }
  let p := match env serverNameVariable with
    | some v => { p with serverIdent := { p.serverIdent with name := v } }
    | none => p
  let p := match env serverEmailVariable with
    | some v => { p with serverIdent := { p.serverIdent with email := v } }
    | none => p
  pure p

/-! ### Records -/

/-- A strategy in a record. -/
def strategyOfJson? (j : Json) : Option Strategy := j.name?.bind Strategy.ofText?

/-- The names of a policy's settings. -/
def fieldNames : List String :=
  ["submit_whole_topic", "default_strategy", "project_strategies", "server_ident"]

def toJson (p : Policy) : Json :=
  .object [
    ("submit_whole_topic", .bool p.wholeTopic),
    ("default_strategy", .string p.defaultStrategy.text),
    ("project_strategies",
      .object (p.projectStrategies.entries.map fun e => (e.1, .string e.2.text))),
    ("server_ident", p.serverIdent.toJson)]

/-- Read a policy; a setting that is left out is the standard one. -/
def ofJson? (j : Json) : Option Policy := do
  let r ← Json.Fields.ofJson? fieldNames j
  let wholeTopic ← r.optional "submit_whole_topic" standard.wholeTopic Json.bool?
  let defaultStrategy ← r.optional "default_strategy" standard.defaultStrategy strategyOfJson?
  let strategies ← r.optional "project_strategies" [] (Json.membersOf? strategyOfJson?)
  let serverIdent ← r.optional "server_ident" standard.serverIdent Signature.ofJson?
  some { wholeTopic, defaultStrategy, projectStrategies := Table.ofList strategies, serverIdent }

end Policy

end Landing
