import Landing.CommandLine

/-!
# The program

Connects the command line to the disk, the environment and the terminal.
-/

namespace Landing.Main

open CommandLine (Files FileContent FileError Invocation Ending)

/-- The number of an error, which some calls give with its sign turned. -/
def errorNumber (code : UInt32) : UInt32 := min code (0 - code)

/-- The error of a number, if it has to do with what a path names. -/
def pathError? (code : UInt32) : Option FileError :=
  match errorNumber code with
  | 20 => some .notFolder
  | 21 => some .isFolder
  | 36 => some .nameTooLong
  | _ => none

/-- The system's words for an error. -/
def describe : IO.Error → String
  | .noFileOrDirectory .. => FileError.noSuchFile.message
  | .permissionDenied .. => "Permission denied (os error 13)"
  | e@(.inappropriateType _ code _) | e@(.invalidArgument _ code _) =>
    ((pathError? code).map FileError.message).getD e.toString
  | e => e.toString

/-- The result of an action, or the system's words for its error. -/
def attempt (action : IO α) : IO (Except String α) := do
  match ← action.toBaseIO with
  | .ok a => pure (.ok a)
  | .error e => pure (.error (describe e))

/-- The text of a file on the disk. -/
def readText (path : String) : IO (Except String String) := do
  match ← attempt (IO.FS.readBinFile path) with
  | .error detail => pure (.error detail)
  | .ok octets =>
    match String.fromUTF8? octets with
    | some text => pure (.ok text)
    | none => pure (.error FileError.notText.message)

/-- Write a file on the disk. -/
def writeFile (path : String) (content : FileContent) : IO (Except String Unit) :=
  attempt (IO.FS.writeBinFile path ⟨content.octets.toArray⟩)

/-- Write a neighbour of a file and let it take the file's place. -/
def replaceFile (path : String) (content : FileContent) : IO (Except String Unit) := do
  let neighbour := CommandLine.neighbour path
  match ← writeFile neighbour content with
  | .error detail => pure (.error detail)
  | .ok _ => attempt (IO.FS.rename neighbour path)

/-- The files of the disk. -/
def disk : Files IO := ⟨readText, writeFile, replaceFile⟩

/-- The variables that the program looks at. -/
def variableNames : List String :=
  [Invocation.stateVariable, Invocation.configVariable, Policy.wholeTopicVariable,
    Policy.strategyVariable, Policy.serverNameVariable, Policy.serverEmailVariable]

/-- The environment of the process. -/
def environment : IO (String → Option String) := do
  let values ← variableNames.mapM fun name => do pure (name, ← IO.getEnv name)
  pure fun name => (values.find? (·.1 == name)).bind (·.2)

/-- Print how a run ended. Log lines go to the error output unless they are switched off. -/
def report (o : CommandLine.Ending) : IO UInt32 := do
  unless (← IO.getEnv "CHANGEGATE_LOG") == some "off" do
    for r in o.log do
      (← IO.getStderr).putStrLn r.toJson.toText
  (← IO.getStdout).putStr o.stdout
  (← IO.getStderr).putStr o.stderr
  pure o.exit

end Landing.Main

/-- Run the program with the words of its command line. -/
def main (words : List String) : IO UInt32 := do
  let env ← Landing.Main.environment
  Landing.Main.report (← Landing.CommandLine.run Landing.Main.disk env words)
