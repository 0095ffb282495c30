import Collate.Text.Basic

/-!
# Directories

The files that a command can see, by path.

* `Content`            a text, a file that is no text, or a folder;
* `Content.ofBytes`    the content of a file with these bytes;
* `Files`              the text under each path, or why there is none;
* `FilePlace`          where a path leads, once its dots are followed;
* `Directory.locate`   the place of a path;
* `Directory.read`     the files of a directory;
* `Directory.write`    the directory with a text under a path.

A path is followed step by step, and only a folder can be left: `sub/../a` and `a` are one place
when `sub` is a folder, and the former leads nowhere when it is not.  Of what lies outside the
directory only the folders above it are known.
-/

namespace Collate

/-- what stands under a path -/
inductive Content where
  | text (text : Text)
  /-- a file whose bytes are no text -/
  | binary
  | folder
  deriving DecidableEq, Repr

/-- the content of a file with these bytes -/
def Content.ofBytes (bytes : ByteArray) : Content :=
  match String.fromUTF8? bytes with
  | some s => .text s.toList
  | none => .binary

inductive FileError where
  | missing
  | folder
  | notFolder
  | nameTooLong
  | denied
  | notText
  deriving DecidableEq, Repr

def FileError.message : FileError → String
  | .missing => "No such file or directory (os error 2)"
  | .folder => "Is a directory (os error 21)"
  | .notFolder => "Not a directory (os error 20)"
  | .nameTooLong => "File name too long (os error 36)"
  | .denied => "Permission denied (os error 13)"
  | .notText => "stream did not contain valid UTF-8"

def Content.read : Content → Except FileError Text
  | .text t => .ok t
  | .binary => .error .notText
  | .folder => .error .folder

/-- the text under each path, or why there is none -/
abbrev Files := String → Except FileError Text

/-! ## paths -/

/-- the steps of a path: what stands between its slashes -/
def pathSteps (path : String) : List String :=
  (path.toList.splitOn '/').map String.ofList

/-- the bytes that a name has at most -/
def longestName : Nat := 255

/-- the bytes that a path has at most -/
def longestPath : Nat := 4095

/-- where a path leads -/
inductive FilePlace where
  /-- a folder that holds the directory, directly or not -/
  | above
  /-- what stands under these names, each in the folder before it -/
  | inside (names : List String)
  deriving DecidableEq, Repr

namespace FilePlace

def outer : FilePlace → FilePlace
  | above => above
  | inside [] => above
  | inside (name :: names) => inside (name :: names).dropLast

/-- the place of a name; in the folders above the directory none is known -/
def inner (name : String) : FilePlace → Option FilePlace
  | above => none
  | inside names => some (inside (names ++ [name]))

/-- One step of a path.  An empty step and a dot stay, and two dots go to the folder around. -/
def follow (place : FilePlace) (step : String) : Option FilePlace :=
  if step = "" ∨ step = "." then some place
  else if step = ".." then some place.outer
  else place.inner step

end FilePlace

/-- the place from which a path is followed -/
def pathStart (path : String) : FilePlace :=
  if path.toList.head? = some '/' then .above else .inside []

/-! ## directories -/

/-- files and folders by the names that lead to them -/
structure Directory where
  items : List (List String × Content)
  deriving DecidableEq, Repr

namespace Directory

/-- the directory that holds these contents under these paths, and the folders on the way -/
def ofList (contents : List (String × Content)) : Directory :=
  ⟨contents.filterMap (fun (path, content) =>
    match (pathSteps path).foldlM FilePlace.follow (pathStart path) with
    | some (.inside names) => some (names, content)
    | _ => none)⟩

/-- The content at a place.  The directory itself is a folder, and so is a place that others
continue. -/
def contentAt? (d : Directory) : FilePlace → Option Content
  | .above => some .folder
  | .inside names =>
    match d.items.lookup names with
    | some content => some content
    | none =>
      if names.isEmpty || d.items.any (fun item => names.isPrefixOf item.1) then
        some .folder
      else
        none

/-- one step of a path, which only a folder can be left by -/
def step (d : Directory) (place : FilePlace) (name : String) : Except FileError FilePlace :=
  match d.contentAt? place with
  | none => .error .missing
  | some .folder =>
    if longestName < name.utf8ByteSize then .error .nameTooLong
    else
      match place.follow name with
      | some next => .ok next
      | none => .error .missing
  | some _ => .error .notFolder

def locate (d : Directory) (path : String) : Except FileError FilePlace :=
  if path = "" then .error .missing
  else if longestPath < path.utf8ByteSize then .error .nameTooLong
  else (pathSteps path).foldlM d.step (pathStart path)

def find (d : Directory) (path : String) : Except FileError Content := do
  match d.contentAt? (← d.locate path) with
  | some content => return content
  | none => throw .missing

def read (d : Directory) : Files := fun path => do
  (← d.find path).read

/-- the directory with a text in the place of what a path held -/
def write (d : Directory) (path : String) (t : Text) : Directory :=
  match d.locate path with
  | .ok (.inside names) =>
    ⟨d.items.map (fun item => if item.1 = names then (names, .text t) else item)⟩
  | _ => d

end Directory

end Collate
