import Landing.Change
import Landing.Text.Numeral

/-!
# Invocations

How the words of a command line become a command with its settings.  Switches
that every command shares may stand before and after the command's name; what is
given after it wins.  A switch may be given once in each of the two places.

A word with a hyphen in front is never the value of the switch before it, and
after a word of two hyphens every word stands for itself.  Words are read from
left to right, and the first one that asks for help, or means nothing, ends the
reading.
-/

namespace Landing.CommandLine

/-- The commands by name. -/
inductive Verb where
  | preview
  | submit
  | show
  | help
  deriving DecidableEq

/-- The words with hyphens in front. -/
inductive Switch where
  | verbose
  | json
  | state
  | config
  | actor
  | format
  | output
  | help
  | version
  deriving DecidableEq

/-- Why a command line is not carried out. -/
inductive Halt where
  /-- The words mean nothing. -/
  | usage
  /-- Help was asked for. -/
  | help
  /-- The version was asked for. -/
  | version
  deriving DecidableEq

namespace Verb

def text : Verb → String
  | preview => "preview"
  | submit => "submit"
  | «show» => "show"
  | help => "help"

def ofText? : String → Option Verb
  | "preview" => some preview
  | "submit" => some submit
  | "show" => some «show»
  | "help" => some help
  | _ => none

end Verb

namespace Switch

/-- Every switch. -/
def all : List Switch :=
  [verbose, json, state, config, actor, format, output, help, version]

/-- The long name, which stands after two hyphens. -/
def name : Switch → String
  | verbose => "verbose"
  | json => "json"
  | state => "state"
  | config => "config"
  | actor => "as"
  | format => "format"
  | output => "output"
  | help => "help"
  | version => "version"

/-- The letter, which stands after one hyphen. -/
def letter? : Switch → Option Char
  | verbose => some 'v'
  | format => some 'f'
  | output => some 'o'
  | help => some 'h'
  | version => some 'V'
  | _ => none

/-- Whether a value belongs to the switch. -/
def takesValue : Switch → Bool
  | state | config | actor | format | output => true
  | _ => false

/-- Whether a switch may stand before the command (`none`) or after it. -/
def allowed : Option Verb → Switch → Bool
  | _, verbose | _, json | _, state | _, config | _, help => true
  | none, version => true
  | some .preview, actor | some .submit, actor => true
  | some .preview, format | some .preview, output => true
  | _, _ => false

/-- The switch with a long name. -/
def named? (verb : Option Verb) (n : String) : Option Switch :=
  all.find? fun s => allowed verb s && s.name == n

/-- The switch with a letter. -/
def lettered? (verb : Option Verb) (c : Char) : Option Switch :=
  all.find? fun s => allowed verb s && s.letter? == some c

end Switch

/-! ### Values -/

/-- A number below `2^32`, in decimal digits; a minus sign may stand before zero only. -/
def number? (s : String) : Option UInt32 :=
  let n? := match s.toList with
    | '-' :: ds => (Text.digitsOnly? ds).filter (· == 0)
    | _ => Text.natural? s
  n?.bind fun n => if n < UInt32.size then some (UInt32.ofNat n) else none

/-- A path is never empty. -/
def path? (s : String) : Option String := if s.isEmpty then none else some s

/-! ### Scanning words -/

/-- What was given on one side of the command's name. -/
structure Given where
  verbose : Bool
  json : Bool
  state : Option String
  config : Option String
  change : Option ChangeId
  actor : Option AccountId
  format : Option String
  output : Option String
  deriving DecidableEq

/-- A value where there was none before, if it can be read. -/
def fill (old : Option α) (new : Option α) : Except Halt (Option α) :=
  match old, new with
  | none, some a => .ok (some a)
  | _, _ => .error .usage

namespace Given

/-- Nothing was given. -/
def nothing : Given := ⟨false, false, none, none, none, none, none, none⟩

/-- Add a switch, which must not have been given before. -/
def add (g : Given) (s : Switch) (value : String) : Except Halt Given := do
  match s with
  | .verbose => if g.verbose then throw .usage else pure { g with verbose := true }
  | .json => if g.json then throw .usage else pure { g with json := true }
  | .state => pure { g with state := ← fill g.state (path? value) }
  | .config => pure { g with config := ← fill g.config (path? value) }
  | .actor => pure { g with actor := ← fill g.actor (number? value) }
  | .format => pure { g with format := ← fill g.format (some value) }
  | .output => pure { g with output := ← fill g.output (path? value) }
  | .help => throw .help
  | .version => throw .version

/-- Add a word that stands for itself: the number of the change. -/
def addWord (g : Given) (word : String) : Except Halt Given := do
  pure { g with change := ← fill g.change (number? word) }

end Given

/-- How far a scan of the words has come. -/
structure Scan where
  /-- The command, once its name was read. -/
  verb : Option Verb
  before : Given
  after : Given
  /-- A switch that waits for its value. -/
  waiting : Option Switch
  /-- Every further word stands for itself. -/
  plain : Bool
  deriving DecidableEq

namespace Scan

/-- Before the first word. -/
def start : Scan := ⟨none, .nothing, .nothing, none, false⟩

/-- Add a switch on the side of the command's name where the scan is. -/
def add (r : Scan) (s : Switch) (value : String) : Except Halt Scan := do
  match r.verb with
  | none => pure { r with before := ← r.before.add s value, waiting := none }
  | some _ => pure { r with after := ← r.after.add s value, waiting := none }

/-- Read a long switch after its hyphens, with a value after an equals sign. -/
def long (r : Scan) (word : List Char) : Except Halt Scan :=
  let name := String.ofList (word.takeWhile (· != '='))
  let value? := match word.dropWhile (· != '=') with
    | _ :: value => some (String.ofList value)
    | [] => none
  match Switch.named? r.verb name with
  | none => .error .usage
  | some s =>
    match s.takesValue, value? with
    | true, some value => r.add s value
    | true, none => .ok { r with waiting := some s }
    | false, none => r.add s ""
    | false, some _ => .error .usage

/-- Read letters after one hyphen; the first one that takes a value takes the rest as its value,
which an equals sign may precede. -/
def letters (r : Scan) : List Char → Except Halt Scan
  | [] => .ok r
  | c :: rest =>
    match Switch.lettered? r.verb c with
    | none => .error .usage
    | some s =>
      if s.takesValue then
        match rest with
        | [] => .ok { r with waiting := some s }
        | '=' :: value => r.add s (String.ofList value)
        | value => r.add s (String.ofList value)
      else do
        let r ← r.add s ""
        letters r rest

/-- Read a word that stands for itself. -/
def word (r : Scan) (w : String) : Except Halt Scan :=
  match r.verb with
  | none =>
    if r.plain then .error .usage
    else
      match Verb.ofText? w with
      | some verb => .ok { r with verb := some verb }
      | none => .error .usage
  | some .preview | some .submit => do pure { r with after := ← r.after.addWord w }
  | some .show | some .help => .error .usage

/-- Read the next word. -/
def next (r : Scan) (w : String) : Except Halt Scan :=
  if r.plain then r.word w
  else
    match r.waiting, w.toList with
    | some _, '-' :: _ :: _ => .error .usage
    | some s, _ => r.add s w
    | none, ['-', '-'] => .ok { r with plain := true }
    | none, '-' :: '-' :: cs => r.long cs
    | none, '-' :: c :: cs => r.letters (c :: cs)
    | none, _ => r.word w

/-- Read the words after a request for help: at most the name of one command. -/
def helpTopic : List String → Halt
  | [] => .help
  | [w] => if (Verb.ofText? w).isSome then .help else .usage
  | _ => .usage

/-- Read every word. -/
def all (r : Scan) : List String → Except Halt Scan
  | [] => if r.waiting.isSome then .error .usage else .ok r
  | w :: ws =>
    match r.next w with
    | .error halt => .error halt
    | .ok r => if r.verb = some .help then .error (helpTopic ws) else all r ws

end Scan

/-! ### Invocations -/

/-- A command with everything it needs. -/
inductive Command where
  | preview (change : ChangeId) (actor : AccountId) (format output : Option String)
  | submit (change : ChangeId) (actor : AccountId)
  | show
  deriving DecidableEq

/-- A command with its settings. -/
structure Invocation where
  verbose : Bool
  json : Bool
  /-- The path of the saved world. -/
  state : String
  /-- The path of the policy file. -/
  config : Option String
  command : Command
  deriving DecidableEq

namespace Invocation

/-- The variable with the path of the saved world. -/
def stateVariable : String := "CHANGEGATE_STATE"

/-- The variable with the path of the policy file. -/
def configVariable : String := "CHANGEGATE_CONFIG"

/-- Where the saved world is looked for. -/
def usualState : String := "changegate.json"

/-- A path that is given before or after the command, or else by the environment. A variable that
one of the two places has to fall back to must not be empty. -/
def pathSetting (before after fallback : Option String) : Except Halt (Option String) :=
  if (before.isNone || after.isNone) && fallback == some "" then .error .usage
  else .ok (after <|> before <|> fallback)

/-- The command, if nothing that it needs is missing. -/
def command? (verb : Verb) (g : Given) : Option Command :=
  match verb, g.change, g.actor with
  | .preview, some change, some actor => some (.preview change actor g.format g.output)
  | .submit, some change, some actor => some (.submit change actor)
  | .show, _, _ => some .show
  | _, _, _ => none

/-- The invocation that words and environment give. -/
def ofWords (env : String → Option String) (words : List String) : Except Halt Invocation := do
  let r ← Scan.start.all words
  match r.verb.bind (command? · r.after) with
  | none => throw .usage
  | some command =>
    let state ← pathSetting r.before.state r.after.state (env stateVariable)
    let config ← pathSetting r.before.config r.after.config (env configVariable)
    pure {
      verbose := r.before.verbose || r.after.verbose
      json := r.before.json || r.after.json
      state := state.getD usualState
      config
      command }

end Invocation

end Landing.CommandLine
