/-
  Outcomes: what an invocation prints, the status it ends with and the disk it
  leaves.

  * `Invocation.settings`: the settings that hold.  What the environment says
    takes the place of what the file says, and that of the default.
  * `Invocation.run` does what is asked for.
  * `Outcome.of` runs a command line.
-/
import Apportion.Commands
import Apportion.Invocation.Arguments
import Apportion.Settings.Document
import Apportion.Settings.Environment

namespace Apportion

namespace Invocation

/-- The settings that hold: those of the file, or the default ones, with what the environment
    says. -/
def settings (i : Invocation) (e : Environment) (disk : Disk) : Except Failure Settings := do
  let base ← match i.settingsFile with
    | some path => Settings.load disk path
    | none => .ok {}
  let settings := base.under e
  settings.validate
  return settings

/-- Does what is asked for; the text to be printed. -/
def perform (settings : Settings) (disk : Disk) : Request → Except Failure String × Disk
  | .plan maxWorkers output inputs =>
    let (result, disk) := Commands.plan settings inputs
      (maxWorkers <|> settings.planning.maxWorkers)
      (output.getD settings.planning.outputDirectory) disk
    (result.map fun _ => "", disk)
  | .inspect split => Commands.inspect settings split disk
  | .describe output sources =>
    let (result, disk) := Commands.describe settings output sources disk
    (result.map fun _ => "", disk)

/-- Does what is asked for under the settings that hold. -/
def run (i : Invocation) (e : Environment) (disk : Disk) : Except Failure String × Disk :=
  match i.settings e disk with
  | .error failure => (.error failure, disk)
  | .ok settings => perform settings disk i.request

end Invocation

/-- How a command line ends. -/
structure Outcome where
  status : Nat
  /-- What is printed as the result. -/
  output : String
  /-- What is told about trouble. -/
  complaint : String
  disk : Disk

namespace Outcome

/-- The status of a failure. -/
def failureStatus : Failure → Nat
  | .sumOverflow => 101
  | _ => 1

/-- The status of a command line that breaks the rules. -/
def misuseStatus : Nat := 2

/-- How command lines are formed. -/
def usage : String :=
  "Usage: split-planner [--config PATH] [--log-level LEVEL] COMMAND\n\n" ++
  "Commands:\n" ++
  "  plan [--max-workers N] [--output PATH] INPUT...\n" ++
  "  inspect SPLIT\n" ++
  "  describe OUTPUT SOURCE...\n"

/-- How a command line ends on a disk, in an environment. -/
def of (e : Environment) (disk : Disk) (arguments : List String) : Outcome :=
  match Invocation.parse arguments with
  | .error .help => ⟨0, usage, "", disk⟩
  | .error .misuse => ⟨misuseStatus, "", usage, disk⟩
  | .ok invocation =>
    match invocation.run e disk with
    | (.ok output, disk) => ⟨0, output, "", disk⟩
    | (.error failure, disk) => ⟨failureStatus failure, "", failure.message ++ "\n", disk⟩

end Outcome

end Apportion
