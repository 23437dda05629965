import KeepRules.Text.Cut

/-! # File systems

A file system is a tree of directories with a working directory in it. `FileSystem.openFile`
follows a path name by name and says what is met first: a name that is too long, one that is
missing, or a file used as a directory. A directory can be opened, and only reading it fails. -/

set_option autoImplicit false

namespace KeepRules

/-- Why something cannot be opened or read. -/
inductive IoFault where
  | notFound | notDirectory | isDirectory | nameTooLong | embeddedNul | invalidUtf8
  | other (description : String)
  deriving DecidableEq

namespace IoFault

def message : IoFault → String
  | notFound => "No such file or directory (os error 2)"
  | notDirectory => "Not a directory (os error 20)"
  | isDirectory => "Is a directory (os error 21)"
  | nameTooLong => "File name too long (os error 36)"
  | embeddedNul => "file name contained an unexpected NUL byte"
  | invalidUtf8 => "stream did not contain valid UTF-8"
  | other description => description

end IoFault

/-- What an opened path gives. -/
inductive Content where
  | file (bytes : ByteArray)
  | directory

inductive Node where
  | file (bytes : ByteArray)
  | directory (entries : List (String × Node))

namespace Node

def content : Node → Content
  | file bytes => .file bytes
  | directory _ => .directory

def entry? : Node → String → Option Node
  | directory entries, name => entries.lookup name
  | file _, _ => none

/-- What the names lead to. -/
def at? (node : Node) : List String → Option Node
  | [] => some node
  | name :: names => (node.entry? name).bind fun n => n.at? names

/-- The entries of a directory with `name` leading to `node`. -/
def setEntry (name : String) (node : Node) : List (String × Node) → List (String × Node)
  | [] => [(name, node)]
  | e :: rest => if e.1 = name then (name, node) :: rest else e :: setEntry name node rest

/-- The tree with `node` put where the names lead, making the directories on the way. -/
def insert (tree : Node) (names : List String) (node : Node) : Node :=
  match names with
  | [] => node
  | name :: names =>
    let entries :=
      match tree with
      | directory entries => entries
      | file _ => []
    let below := (entries.lookup name).getD (directory [])
    directory (setEntry name (below.insert names node) entries)

end Node

structure FileSystem where
  root : Node
  /-- The working directory, as names from the root. -/
  directory : List String := []

namespace FileSystem

/-- In bytes. -/
def longestName : Nat := 255

/-- In bytes. -/
def longestPath : Nat := 4095

/-- Follows the names from a place in the tree, both given as names from the root. -/
def follow (root : Node) (here : List String) : List String → Except IoFault (List String)
  | [] => .ok here
  | name :: names =>
    match root.at? here with
    | some (.directory entries) =>
      if name = "." then follow root here names
      else if name = ".." then follow root here.dropLast names
      else if name.utf8ByteSize > longestName then .error .nameTooLong
      else if (entries.lookup name).isSome then follow root (here ++ [name]) names
      else .error .notFound
    | _ => .error .notDirectory

/-- A path taken apart. -/
structure Path where
  /-- Where it starts, as names from the root. -/
  start : List String
  names : List String
  /-- It ends in a slash. -/
  needsDirectory : Bool

/-- Absolute paths start at the root, others at the working directory. -/
def path (fs : FileSystem) (text : String) : Except IoFault Path := do
  let chars := text.toList
  if '\x00' ∈ chars then throw .embeddedNul
  if chars = [] then throw .notFound
  if text.utf8ByteSize > longestPath then throw .nameTooLong
  return {
    start := if chars.head? = some '/' then [] else fs.directory
    names := ((Text.split '/' chars).filter (· ≠ [])).map String.ofList
    needsDirectory := chars.getLast? == some '/' }

def openFile (fs : FileSystem) (text : String) : Except IoFault Content := do
  let path ← fs.path text
  let place ← follow fs.root path.start path.names
  match fs.root.at? place with
  | none => throw .notFound
  | some (.directory _) => return .directory
  | some (.file bytes) => if path.needsDirectory then throw .notDirectory else return .file bytes

/-- Writes a file into a directory that exists, over the file that was there before. -/
def writeFile (fs : FileSystem) (text : String) (bytes : ByteArray) :
    Except IoFault FileSystem := do
  let path ← fs.path text
  if path.needsDirectory then throw .isDirectory
  match path.names.getLast? with
  | none => throw .isDirectory
  | some name =>
    let parent ← follow fs.root path.start path.names.dropLast
    match fs.root.at? parent with
    | some (.directory entries) =>
      if name = "." ∨ name = ".." then throw .isDirectory
      if name.utf8ByteSize > longestName then throw .nameTooLong
      if let some (.directory _) := entries.lookup name then throw .isDirectory
      return { fs with root := fs.root.insert (parent ++ [name]) (.file bytes) }
    | _ => throw .notDirectory

end FileSystem

end KeepRules
