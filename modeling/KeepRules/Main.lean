import KeepRules.Trace

/-! # The command line

Runs `Trace.run` on the machine. The files that a run asks for are loaded one after the other: a
run that stops for want of a file is started again when that file has been loaded. -/

set_option autoImplicit false

namespace KeepRules.CommandLine

/-- Stands for a file that has not been loaded yet. -/
def notLoaded : IoFault := .other "not loaded"

/-- The number of a system error, which some calls report with its sign reversed. -/
def errorNumber (code : UInt32) : UInt32 := if code ≤ 0x7FFFFFFF then code else 0 - code

def faultOf (e : IO.Error) : IoFault :=
  match e with
  | .noFileOrDirectory .. => .notFound
  | .inappropriateType _ code _ =>
    if errorNumber code = 21 then .isDirectory
    else if errorNumber code = 20 then .notDirectory
    else .other (toString e)
  | e => .other (toString e)

def load (name : String) : IO (Except IoFault Content) := do
  if name.toList.contains '\x00' then return .error .embeddedNul
  try
    return .ok (.file (← IO.FS.readBinFile name))
  catch e =>
    match faultOf e with
    | .isDirectory => return .ok .directory
    | fault => return .error fault

/-- The entries of the process environment that are texts. -/
def environment : IO Environment := do
  let bytes ← IO.FS.readBinFile "/proc/self/environ"
  let entries := Text.chunks (· == 0) bytes.data.toList
  return ⟨entries.filterMap fun e => String.fromUTF8? ⟨(e.filter (· != 0)).toArray⟩⟩

abbrev Loaded := List (String × Except IoFault Content)

/-- The first file that a run asks for and that has not been loaded. -/
def wanted? (host : Host) (arguments : List String) : Option String :=
  let settings := Settings.ofEnvironment host.environment
  match Configuration.ofSource (.ofSettings host settings) settings (.ofArguments arguments) with
  | .error (.unreadable (.file name) fault) => if fault = notLoaded then some name else none
  | _ => none

partial def runLoading (env : Environment) (directory : String) (arguments : List String)
    (loaded : Loaded) : IO Trace.Report := do
  let host : Host :=
    { environment := env
      directory := directory
      openFile := fun name => (loaded.lookup name).getD (.error notLoaded) }
  match wanted? host arguments with
  | none => return Trace.run host arguments
  | some name => runLoading env directory arguments ((name, ← load name) :: loaded)

end KeepRules.CommandLine

def main (arguments : List String) : IO UInt32 := do
  let directory ← IO.currentDir
  let env ← KeepRules.CommandLine.environment
  let report ← KeepRules.CommandLine.runLoading env directory.toString arguments []
  IO.eprint report.errors
  IO.print report.output
  return report.exit
