import Collate.Command.Help

/-!
# Command lines

* `Command`        what is to be done;
* `Command.parse`  a list of arguments, if they make a command.

Options are written `--name value` or `--name=value` and given at most once.  A value that begins
with a hyphen, other than the hyphen alone, has to be written behind an equals sign, and no value is
empty.  A request for help counts as soon as it is reached, whatever stands behind it.
-/

namespace Collate

/-- what is to be done -/
inductive Command where
  | check (input : String) (config : Option String) (reportJson : Bool)
  | fix (input : String) (config : Option String) (write : Bool) (reportJson : Bool)
  | rules
  | help (topic : HelpTopic)
  deriving DecidableEq, Repr

namespace Command

structure Options where
  input : Option String := none
  config : Option String := none
  write : Bool := false
  reportJson : Bool := false
  help : Bool := false
  deriving DecidableEq, Repr

/-- the name of an option, and the value behind its equals sign -/
def splitOption (argument : String) : String × Option String :=
  let name := argument.toList.takeWhile (· != '=')
  match argument.toList.drop name.length with
  | _ :: value => (String.ofList name, some (String.ofList value))
  | [] => (argument, none)

/-- a text that can be the value of an option in an argument of its own -/
def isValue (argument : String) : Bool :=
  argument ≠ "" && (argument == "-" || argument.toList.head? != some '-')

/-- the value of an option, and the arguments behind it -/
def takeValue (inline : Option String) (rest : List String) : Option (String × List String) :=
  match inline, rest with
  | some value, rest => if value = "" then none else some (value, rest)
  | none, value :: rest => if isValue value then some (value, rest) else none
  | none, [] => none

/-- an argument that asks for help; of short options in one argument the first counts -/
def asksForHelp (argument : String) : Bool :=
  argument == "--help" || ['-', 'h'].isPrefixOf argument.toList

/-- the options in a list of arguments, in at most so many steps -/
def collect (canWrite : Bool) : Nat → List String → Options → Option Options
  | _, [], options => some options
  | 0, _ :: _, _ => none
  | fuel + 1, argument :: rest, options =>
    if asksForHelp argument then some { options with help := true }
    else
    match splitOption argument with
    | ("--", none) => if rest.isEmpty then some options else none
    | ("--input", inline) => do
      let (value, rest) ← takeValue inline rest
      if options.input.isSome then none
      else collect canWrite fuel rest { options with input := some value }
    | ("--config", inline) => do
      let (value, rest) ← takeValue inline rest
      if options.config.isSome then none
      else collect canWrite fuel rest { options with config := some value }
    | ("--write", none) =>
      if options.write || !canWrite then none
      else collect canWrite fuel rest { options with write := true }
    | ("--report-json", none) =>
      if options.reportJson then none
      else collect canWrite fuel rest { options with reportJson := true }
    | _ => none

/-- the command of a list of options, given what it makes of an input -/
def ofOptions (topic : HelpTopic) (make : Options → String → Command) (options : Options) :
    Option Command :=
  if options.help then some (.help topic) else options.input.map (make options)

def parse : List String → Option Command
  | "check" :: rest =>
    (collect false rest.length rest {}).bind
      (ofOptions .check (fun o input => .check input o.config o.reportJson))
  | "fix" :: rest =>
    (collect true rest.length rest {}).bind
      (ofOptions .fix (fun o input => .fix input o.config o.write o.reportJson))
  | ["rules"] | ["rules", "--"] => some .rules
  | "rules" :: argument :: _ => if asksForHelp argument then some (.help .rules) else none
  | ["help"] => some (.help .overview)
  | ["help", name] => (HelpTopic.named? name).map .help
  | argument :: _ => if asksForHelp argument then some (.help .overview) else none
  | [] => none

end Command

end Collate
