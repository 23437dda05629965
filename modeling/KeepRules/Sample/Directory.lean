import KeepRules.Configuration.Parser

/-! # Directories of configuration files

A directory that configuration files are written into and read from. Files may refer to it by the
property `config.dir`, the only one that they have. -/

set_option autoImplicit false

namespace KeepRules.Sample

structure Directory where
  files : FileSystem
  /-- The absolute path of the directory. -/
  path : String

namespace Directory

/-- An empty directory at a path given by its names. -/
def new (files : FileSystem) (names : List String) : Directory where
  files := { files with root := files.root.insert names (.directory []) }
  path := String.join (names.map ("/" ++ ·))

/-- The path of a file in the directory. An absolute name is its own path. -/
def pathOf (d : Directory) (name : String) : String :=
  if name.toList.head? = some '/' then name else d.path ++ "/" ++ name

/-- Writes a file, whose directory must exist. -/
def write (d : Directory) (name content : String) : Except IoFault Directory :=
  return { d with files := ← d.files.writeFile (d.pathOf name) content.toUTF8 }

/-- The content of a file that is a text. -/
def read (d : Directory) (name : String) : Except IoFault String := do
  match ← d.files.openFile (d.pathOf name) with
  | .directory => throw .isDirectory
  | .file bytes =>
    match String.fromUTF8? bytes with
    | some text => return text
    | none => throw .invalidUtf8

/-- Reads a configuration file of the directory. -/
def parse (d : Directory) (env : Environment) (settings : Settings) (name : String) :
    Except ParseError Configuration := do
  let host : Host :=
    { environment := env, directory := d.path, openFile := d.files.openFile }
  let source ← Source.ofFile host (d.pathOf name)
  let properties := ({} : Properties).set "config.dir" d.path
  Configuration.ofSource { properties := properties, host := host } settings source

end Directory

end KeepRules.Sample
