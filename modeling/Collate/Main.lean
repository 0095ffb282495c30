import Collate.Command.Run

/-!
# The command line

The outer layer: it looks up the files that a command names, runs the command, writes what it wrote
and prints what it says.
-/

namespace Collate

def fileError : IO.Error → FileError
  | .noFileOrDirectory .. => .missing
  | .inappropriateType (some _) .. => .notFolder
  | .inappropriateType none .. => .folder
  | .invalidArgument .. => .nameTooLong
  | _ => .denied

def readText (path : String) : IO (Except FileError Text) := do
  try
    return (Content.ofBytes (← IO.FS.readBinFile path)).read
  catch error =>
    return .error (fileError error)

def Command.paths : Command → List String
  | .check input config _ => config.toList ++ [input]
  | .fix input config _ _ => config.toList ++ [input]
  | .rules | .help _ => []

def loadFiles (command : Command) : IO Files := do
  let texts ← command.paths.mapM (fun path => do return (path, ← readText path))
  return fun path => (texts.lookup path).getD (.error .missing)

def printOutcome (o : Outcome) : IO UInt32 := do
  IO.print o.stdout
  IO.eprint o.stderr
  return UInt32.ofNat o.exit

/-- run a command; a text that cannot be written is a failure of its own -/
def performCommand (command : Command) : IO UInt32 := do
  let o := command.run (← loadFiles command)
  let refused ←
    match o.written with
    | none => pure none
    | some (path, t) =>
      try
        IO.FS.writeFile path (String.ofList t)
        pure none
      catch error =>
        pure (some (fileError error))
  printOutcome (command.settle refused o)

end Collate

def main (arguments : List String) : IO UInt32 := do
  match Collate.Command.parse arguments with
  | some command => Collate.performCommand command
  | none => Collate.printOutcome Collate.Outcome.usage
