/-!
# Help texts

* `HelpTopic`        what help can be asked for;
* `HelpTopic.named?` the topic of a command's name;
* `HelpTopic.render` its text.

A text says what the command is for, how it is called, and what its parts mean, in columns.
-/

namespace Collate

inductive HelpTopic where
  | overview
  | check
  | fix
  | rules
  | help
  deriving DecidableEq, Repr

/-- a part of a command line and its meaning -/
structure HelpEntry where
  term : String
  meaning : String
  deriving DecidableEq, Repr

structure HelpSection where
  title : String
  entries : List HelpEntry
  deriving DecidableEq, Repr

namespace HelpSection

def width (s : HelpSection) : Nat :=
  s.entries.foldl (fun longest entry => max longest entry.term.length) 0

/-- an entry on a line of its own, its meaning in a column two blanks behind the longest term -/
def entryLine (width : Nat) (entry : HelpEntry) : String :=
  let gap := List.replicate (width + 2 - entry.term.length) ' '
  "  " ++ entry.term ++ String.ofList gap ++ entry.meaning ++ "\n"

def render (s : HelpSection) : String :=
  s.title ++ ":\n" ++ String.join (s.entries.map (entryLine s.width))

end HelpSection

namespace HelpTopic

def named? : String → Option HelpTopic
  | "check" => some check
  | "fix" => some fix
  | "rules" => some rules
  | "help" => some help
  | _ => none

def purpose : HelpTopic → String
  | overview => "Canonical ordering checks for Ruby sources."
  | check => "Report offenses without changing the file"
  | fix => "Apply every correction until the file is stable"
  | rules => "List the rules and their messages"
  | help => "Print this message or the help of the given subcommand(s)"

def usage : HelpTopic → String
  | overview => "canon <COMMAND>"
  | check => "canon check [OPTIONS] --input <INPUT>"
  | fix => "canon fix [OPTIONS] --input <INPUT>"
  | rules => "canon rules"
  | help => "canon help [COMMAND]..."

/-- the options, of which the last asks for help; all but that have no short form -/
def options (long : List String) : HelpSection :=
  ⟨"Options", long.map (fun term => ⟨"    " ++ term, ""⟩) ++ [⟨"-h, --help", "Print help"⟩]⟩

def commands : HelpSection :=
  ⟨"Commands",
    [⟨"check", check.purpose⟩, ⟨"fix", fix.purpose⟩, ⟨"rules", rules.purpose⟩,
      ⟨"help", help.purpose⟩]⟩

def sections : HelpTopic → List HelpSection
  | overview => [commands, options []]
  | check => [options ["--input <INPUT>", "--config <CONFIG>", "--report-json"]]
  | fix => [options ["--input <INPUT>", "--config <CONFIG>", "--write", "--report-json"]]
  | rules => [options []]
  | help => [⟨"Arguments", [⟨"[COMMAND]...", "Print help for the subcommand(s)"⟩]⟩]

def render (topic : HelpTopic) : String :=
  topic.purpose ++ "\n\nUsage: " ++ topic.usage ++ "\n"
    ++ String.join (topic.sections.map (fun s => "\n" ++ s.render))

end HelpTopic

end Collate
