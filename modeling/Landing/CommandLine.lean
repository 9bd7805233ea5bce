import Landing.CommandLine.Complaint
import Landing.CommandLine.Files
import Landing.CommandLine.Invocation
import Landing.CommandLine.Listing
import Landing.Policy.File
import Landing.Service
import Landing.Submission.Engine
import Landing.Verbosity
import Landing.World.Snapshot

/-!
# The command line

Three commands work on a saved world: one previews what submitting a change would
do, one submits it and saves the world, and one lists what the world holds.  The
policy is read first, then the world, and only then the command begins, so a
command that fails has written nothing.

Files are reached through `Files`, so the commands run against a disk and against
a folder in memory alike.
-/

namespace Landing.CommandLine

/-- How a run of the program ends. -/
structure Ending where
  exit : UInt32
  stdout : String
  stderr : String
  /-- What the command logged, oldest first. -/
  log : List LogRecord

/-- A step of a command: a result or a complaint, and in either case what was logged. -/
abbrev Task (m : Type → Type) (α : Type) := ExceptT Complaint (StateT (List LogRecord) m) α

variable {m : Type → Type} [Monad m]

/-- Pass on a result, or complain about the error in a given context. -/
def orComplain (context : String) (causes : ε → List String) (r : Except ε α) : Task m α :=
  ExceptT.mk (pure (r.mapError fun e => ⟨context, causes e⟩))

/-- Pass on a result, or complain about the failure. -/
def orFail (r : Except Failure α) : Task m α :=
  ExceptT.mk (pure (r.mapError fun f => ⟨f.message, f.causes⟩))

/-- The policy of an invocation. -/
def policyOf (files : Files m) (env : String → Option String) (config : Option String) :
    Task m Policy := do
  match config with
  | none =>
    orComplain "Invalid CHANGEGATE_* environment" (fun e : PolicyError => e.message :: e.causes)
      (Policy.fromEnvironment env)
  | some path =>
    let policy := match ← files.read path with
      | .ok text => Policy.load path (some text) env
      | .error detail => .error (.io path detail)
    orComplain ("Failed to load config " ++ path) (fun e => e.message :: e.causes) policy

/-- The world that a text holds. -/
def worldOf (text : String) : Except StoreError World :=
  match World.load? text with
  | some w => .ok w
  | none => .error (.serialization "not a saved world")

/-- Load the world. -/
def loadWorld (files : Files m) (path : String) : Task m World := do
  let world := match ← files.read path with
    | .ok text => worldOf text
    | .error detail => .error (.io detail)
  orComplain ("Failed to load state " ++ path) (fun e => e.message :: e.causes) world

/-- The account a command acts for. -/
def accountOf (w : World) (id : AccountId) : Task m Account :=
  match w.accounts.get? id with
  | some a => pure a
  | none => throw ⟨"Unknown account: " ++ toString id.toNat, []⟩

/-- Run a program against a world and give back the world that it leaves behind. -/
def execute (w : World) (p : Program (Except Failure α)) : Task m (α × World) := do
  let (result?, service) := (Service.start w 1).run p
  modify (· ++ service.log ++ [service.metrics.logRecord])
  match result? with
  | some result => pure (← orFail result, service.world)
  | none => throw ⟨"the history of the world does not end", []⟩

/-- Print tips as a record or as a listing. -/
def printTips (json : Bool) (change : ChangeId) (tips : Table Branch CommitId) : List String :=
  if json then [(tipRecord change tips).toIndentedText] else tipLines tips

/-- Show what submitting a change would do, or write it to an archive. -/
def preview (files : Files m) (json : Bool) (w : World) (policy : Policy) (change : ChangeId)
    (actor : Account) (format output : Option String) : Task m (List String) := do
  let (shown, _) ← execute w (Submission.previewAs policy w.reach change actor format)
  match shown with
  | .tips tips => pure (printTips json change tips)
  | .archive a =>
    let path := output.getD ("change-" ++ toString change.toNat ++ "." ++ a.format.text)
    let written ← files.write path (.archive a)
    orComplain ("Failed to write " ++ path) (fun detail => [detail]) written
    pure ["Wrote " ++ path ++ " (" ++ a.format.contentType ++ ", " ++
      toString a.octets.length ++ " bytes)"]

/-- Submit a change and save the world. -/
def submit (files : Files m) (json : Bool) (state : String) (w : World) (policy : Policy)
    (change : ChangeId) (actor : Account) : Task m (List String) := do
  let (outcome, after) ← execute w (Submission.submit policy w.reach change actor)
  let saved ← files.replace state (.text after.save)
  orComplain ("Failed to save state " ++ state)
    (fun detail => let e := StoreError.io detail; e.message :: e.causes) saved
  let merged := "Submitted changes " ++
    Text.join ", " (outcome.merged.map fun id => toString id.toNat)
  let tips := printTips json change outcome.tips
  pure (if json then tips else merged :: tips)

/-- Carry a command out and give the lines to print. -/
def carryOut (files : Files m) (env : String → Option String) (i : Invocation) :
    Task m (List String) := do
  let policy ← policyOf files env i.config
  let w ← loadWorld files i.state
  match i.command with
  | .preview change actor format output =>
    preview files i.json w policy change (← accountOf w actor) format output
  | .submit change actor =>
    submit files i.json i.state w policy change (← accountOf w actor)
  | .show => pure (worldLines w)

/-- How the program is called. -/
def usage : String :=
  "Usage: changegate [-v] [--json] [--state PATH] [--config PATH] COMMAND\n\n" ++
  "  preview CHANGE --as ACCOUNT [-f tar|tgz] [-o PATH]   show what submitting would do\n" ++
  "  submit CHANGE --as ACCOUNT                           submit a change, all or nothing\n" ++
  "  show                                                 list branches and changes\n"

/-- How a run ends that carries no command out. -/
def Halt.ending : Halt → Ending
  | usage => ⟨2, "", CommandLine.usage, []⟩
  | help => ⟨0, CommandLine.usage, "", []⟩
  | version => ⟨0, "changegate 0.1.0\n", "", []⟩

/-- Lines as a text. -/
def unlines (lines : List String) : String := String.join (lines.map (· ++ "\n"))

/-- How much an invocation wants to hear. -/
def Invocation.verbosity (i : Invocation) : Verbosity := if i.verbose then .debug else .info

/-- Run the program. -/
def run (files : Files m) (env : String → Option String) (words : List String) : m Ending := do
  match Invocation.ofWords env words with
  | .error halt => pure halt.ending
  | .ok i =>
    let (result, log) ← (carryOut files env i).run.run []
    let log := log.filter fun r => i.verbosity.admits r.level
    match result with
    | .ok lines => pure ⟨0, unlines lines, "", log⟩
    | .error complaint => pure ⟨1, "", complaint.text, log⟩

end Landing.CommandLine
