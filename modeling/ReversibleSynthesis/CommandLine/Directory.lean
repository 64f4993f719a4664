import ReversibleSynthesis.CommandLine.Program

namespace ReversibleSynthesis.CommandLine

structure File where
  path : List String
  text? : Option String
  deriving DecidableEq, Repr

structure Directory where
  files : List File
  deriving DecidableEq, Repr

inductive Place where
  | within (names : List String)
  | above
  | rooted (names : List String)
  deriving DecidableEq, Repr

namespace Place

def parent : Place → Place
  | .within [] => .above
  | .within names => .within names.dropLast
  | .above => .above
  | .rooted names => .rooted names.dropLast

def child (name : String) : Place → Place
  | .within names => .within (names ++ [name])
  | .above => .above
  | .rooted names => .rooted (names ++ [name])

end Place

inductive Entry where
  | file (f : File)
  | directory
  | null
  | vacant
  deriving DecidableEq, Repr

def maxNameSize : Nat := 255

def pathSizeLimit : Nat := 4096

def components (path : String) : List String := (path.splitOn "/").filter (· != "")

def systemDirectories : List String := ["bin", "dev", "etc", "proc", "tmp", "usr", "var"]

namespace Directory

def file? (d : Directory) (path : List String) : Option File := d.files.find? fun f => f.path == path

def isDirectory (d : Directory) (path : List String) : Bool :=
  d.files.any fun f => path.isPrefixOf f.path && path != f.path

def lookup (d : Directory) : Place → Entry
  | .within names =>
    match d.file? names with
    | some f => .file f
    | none => if d.isDirectory names then .directory else .vacant
  | .above => .vacant
  | .rooted [name] => if systemDirectories.contains name then .directory else .vacant
  | .rooted names => if names == ["dev", "null"] then .null else .vacant

def entry (d : Directory) (place : Place) (name : String) : Except FileError Entry :=
  if name == "." || name == ".." then .ok .directory
  else if maxNameSize < name.utf8ByteSize then .error .nameTooLong
  else .ok (d.lookup (place.child name))

def enter (d : Directory) (place : Place) (name : String) : Except FileError Place := do
  match ← d.entry place name with
  | .vacant => throw .notFound
  | .directory =>
    return if name == "." then place else if name == ".." then place.parent else place.child name
  | _ => throw .notDirectory

def walk (d : Directory) (path : String) : Except FileError (Place × String) := do
  if path == "" then throw .notFound
  if pathSizeLimit ≤ path.utf8ByteSize then throw .nameTooLong
  let start : Place := if path.startsWith "/" then .rooted [] else .within []
  match (components path).reverse with
  | [] => return (start, ".")
  | last :: before => return (← before.reverse.foldlM d.enter start, last)

def read (d : Directory) (path : String) : Except FileError String := do
  let (place, name) ← d.walk path
  match ← d.entry place name with
  | .directory => throw .isDirectory
  | .vacant => throw .notFound
  | .null => if path.endsWith "/" then throw .notDirectory else return ""
  | .file f =>
    if path.endsWith "/" then throw .notDirectory
    match f.text? with
    | some text => return text
    | none => throw .notText

def insert (d : Directory) (path : List String) (text : String) : Directory :=
  ⟨d.files.filter (fun f => f.path != path) ++ [⟨path, some text⟩]⟩

def write (d : Directory) (path text : String) : Except FileError Directory := do
  let (place, name) ← d.walk path
  if path.endsWith "/" then throw .isDirectory
  match ← d.entry place name with
  | .directory => throw .isDirectory
  | _ =>
    match place.child name with
    | .within names => return d.insert names text
    | _ => return d

def since (d before : Directory) : List File :=
  d.files.filter fun f => !before.files.contains f

end Directory

def runIn (d : Directory) (defaults : Defaults) (words : List String) : Outcome × Directory :=
  let p := plan ⟨defaults, d.read⟩ words
  match p.ending with
  | .write path text _ =>
    match d.write path text with
    | .ok after => (p.outcome fun _ => .ok (), after)
    | .error e => (p.outcome fun _ => .error e, d)
  | _ => (p.outcome fun _ => .ok (), d)

end ReversibleSynthesis.CommandLine
