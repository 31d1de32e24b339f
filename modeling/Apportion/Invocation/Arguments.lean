/-
  Invocations: what the arguments of a command line ask for.

  A command is named by the first argument that is no option.  Options have a
  value, attached (`--name=value`, `-nvalue`, `-n=value`) or in the argument
  behind them, which then may not look like an option.  They stand anywhere, each
  at most once in front of the command and once behind it, and what stands
  behind the command wins.  After `--` no argument is an option.  The command
  `help` may have the name of a command behind it, and nothing else.

  * `Draft.add` takes one argument in, one after the other.
  * `Invocation.parse` reads all arguments.
-/
import Apportion.Decimal.Numeral
import Apportion.Path
import Apportion.Text.Cut

namespace Apportion

/-- What a command line can ask for. -/
inductive Request where
  /-- Plan inputs and write the splits. -/
  | plan (maxWorkers : Option UInt32) (output : Option Path) (inputs : List String)
  /-- Print a split. -/
  | inspect (split : Path)
  /-- Write a file that describes sources. -/
  | describe (output : String) (sources : List String)
  deriving DecidableEq, Repr

/-- A request, and the file the settings are in. -/
structure Invocation where
  settingsFile : Option Path
  request : Request
  deriving DecidableEq, Repr

namespace Invocation

/-- Why arguments ask for nothing. -/
inductive Refusal where
  /-- They break the rules of the command line. -/
  | misuse
  /-- They ask for help. -/
  | help
  deriving DecidableEq, Repr

/-! ## Commands and options -/

/-- The commands. -/
inductive Command where
  | plan
  | inspect
  | describe
  | help
  deriving DecidableEq, Repr

namespace Command

/-- The command with a name. -/
def ofName? : String → Option Command
  | "plan" => some .plan
  | "inspect" => some .inspect
  | "describe" => some .describe
  | "help" => some .help
  | _ => none

/-- Whether a command takes one more argument that is no option, with a number of them in front
    of it. -/
def takes (former : Nat) (text : String) : Command → Bool
  | plan | describe => true
  | inspect => former = 0 && text ≠ ""
  | help => former = 0 && (ofName? text).isSome

end Command

/-- The options with a value. -/
inductive Switch where
  | settingsFile
  | logLevel
  | maxWorkers
  | output
  deriving DecidableEq, Repr

/-- The option with a long name. -/
def Switch.ofName? : String → Option Switch
  | "config" => some .settingsFile
  | "log-level" => some .logLevel
  | "max-workers" => some .maxWorkers
  | "output" => some .output
  | _ => none

/-- The option with a name of one letter. -/
def Switch.ofLetter? : Char → Option Switch
  | 'c' => some .settingsFile
  | 'm' => some .maxWorkers
  | 'o' => some .output
  | _ => none

/-- Whether an option may stand behind a command, or in front of all of them. -/
def Switch.isKnown (command : Option Command) : Switch → Bool
  | settingsFile | logLevel => true
  | maxWorkers | output => command = some .plan

/-! ## Values -/

/-- The values of the options on one side of the command. -/
structure Values where
  settingsFile : Option Path := none
  logLevel : Option String := none
  maxWorkers : Option UInt32 := none
  output : Option Path := none
  deriving DecidableEq, Repr

namespace Values

/-- A path that is not empty. -/
def path? (text : String) : Option Path := if text.isEmpty then none else some ⟨text⟩

/-- A number of workers in digits, with or without a sign. -/
def workers? (text : String) : Option UInt32 :=
  let n := match text.toList with
    | '-' :: digits => (Decimal.natural? digits).filter (· = 0)
    | cs => Decimal.unsigned? (2 ^ 32 - 1) cs
  n.map UInt32.ofNat

/-- The value of an option, which has none yet. -/
def once? {α : Type} (former new : Option α) : Option α := if former.isSome then none else new

/-- Values with one more. -/
def set? (v : Values) (text : String) : Switch → Option Values
  | .settingsFile =>
    (once? v.settingsFile (path? text)).map fun x => { v with settingsFile := some x }
  | .logLevel => (once? v.logLevel (some text)).map fun x => { v with logLevel := some x }
  | .maxWorkers => (once? v.maxWorkers (workers? text)).map fun x => { v with maxWorkers := some x }
  | .output => (once? v.output (path? text)).map fun x => { v with output := some x }

end Values

/-! ## Arguments -/

/-- Whether an argument looks like an option. -/
def isDashed : List Char → Bool
  | '-' :: _ :: _ => true
  | _ => false

/-- What an argument that looks like an option says: an option and the value attached to it, or
    that help is wanted. -/
def ofDashed? : List Char → Option (Option Switch × Option String)
  | '-' :: '-' :: cs =>
    let (name, value) := match Text.cutFirst? '=' cs with
      | some (name, value) => (String.ofList name, some (String.ofList value))
      | none => (String.ofList cs, none)
    if name = "help" ∧ value = none then some (none, none)
    else (Switch.ofName? name).map fun o => (some o, value)
  | '-' :: 'h' :: _ => some (none, none)
  | '-' :: letter :: cs =>
    let value := match cs with
      | [] => none
      | '=' :: value => some (String.ofList value)
      | value => some (String.ofList value)
    (Switch.ofLetter? letter).map fun o => (some o, value)
  | _ => none

/-- The arguments taken in so far. -/
structure Draft where
  /-- The command, once it is named. -/
  command : Option Command := none
  /-- The values of the options in front of the command. -/
  outer : Values := {}
  /-- The values of the options behind the command. -/
  inner : Values := {}
  /-- An option whose value comes next. -/
  pending : Option Switch := none
  /-- Whether `--` has ended the options. -/
  ended : Bool := false
  /-- The arguments behind the command that are no options, the last one first. -/
  operands : List String := []

namespace Draft

/-- Sets an option on the side of the command that is read. -/
def set (d : Draft) (o : Switch) (text : String) : Except Refusal Draft :=
  let set := match d.command with
    | none => (d.outer.set? text o).map fun outer => { d with outer, pending := none }
    | some _ => (d.inner.set? text o).map fun inner => { d with inner, pending := none }
  match set with
  | some d => .ok d
  | none => .error .misuse

/-- Takes an argument in that is no option. -/
def addOperand (d : Draft) (text : String) : Except Refusal Draft :=
  match d.command with
  | some command =>
    if command.takes d.operands.length text then .ok { d with operands := text :: d.operands }
    else .error .misuse
  | none =>
    if d.ended then .error .misuse
    else
      match Command.ofName? text with
      | some command => .ok { d with command := some command, ended := command = .help }
      | none => .error .misuse

/-- Takes an argument in that looks like an option. -/
def addDashed (d : Draft) (text : String) : Except Refusal Draft :=
  match ofDashed? text.toList with
  | none => .error .misuse
  | some (none, _) => .error .help
  | some (some o, value) =>
    if o.isKnown d.command then
      match value with
      | some value => d.set o value
      | none => .ok { d with pending := some o }
    else .error .misuse

/-- Takes an argument in. -/
def add (d : Draft) (text : String) : Except Refusal Draft :=
  if d.ended then d.addOperand text
  else
    match d.pending with
    | some o => if isDashed text.toList then .error .misuse else d.set o text
    | none =>
      if text = "--" then .ok { d with ended := true }
      else if isDashed text.toList then d.addDashed text
      else d.addOperand text

/-- The request that all arguments together make. -/
def request (d : Draft) : Except Refusal Request :=
  match d.pending, d.command, d.operands.reverse with
  | none, some .plan, input :: inputs =>
    .ok (.plan d.inner.maxWorkers d.inner.output (input :: inputs))
  | none, some .inspect, [split] => .ok (.inspect ⟨split⟩)
  | none, some .describe, output :: source :: sources => .ok (.describe output (source :: sources))
  | none, some .help, _ => .error .help
  | _, _, _ => .error .misuse

end Draft

/-- What the arguments of a command line ask for. -/
def parse (arguments : List String) : Except Refusal Invocation := do
  let d ← arguments.foldlM Draft.add {}
  let request ← d.request
  return ⟨d.inner.settingsFile <|> d.outer.settingsFile, request⟩

end Invocation

end Apportion
