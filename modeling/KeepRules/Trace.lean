import KeepRules.Configuration.RoundTrip
import KeepRules.Json.Model
import KeepRules.Log

/-! # Tracing a configuration

The command line: its arguments are read as a configuration, which is shown as JSON and as text.
Log lines and errors go to the error output. -/

set_option autoImplicit false

namespace KeepRules.Trace

/-- What a run leaves behind. -/
structure Report where
  exit : UInt32
  output : String
  errors : String

def usage : String := "Usage: cargo run --bin trace_config -- <configuration words...>"

def started (settings : Settings) (arguments : List String) : Log.Line where
  level := .info
  target := Log.commandTarget
  message := "Parsing " ++ toString arguments.length ++ " argument(s)"
  fields :=
    [("max_include_depth", toString settings.maxIncludeDepth),
     ("path_separator", settings.pathSeparator.toString)]

/-- Lines, each with its end. -/
def text (lines : List String) : String := String.join (lines.map (· ++ "\n"))

/-- The lines that pass the filter, in the order of events. -/
def logged (filter : Log.Filter) (lines : List Log.Line) : List String :=
  (lines.filter filter.passes).map Log.Line.render

/-- What is shown of a configuration. -/
def shown (settings : Settings) (config : Configuration) : String :=
  config.toJson.pretty ++ "\n\n" ++ config.print settings.pathSeparator

def run (host : Host) (arguments : List String) : Report :=
  if arguments = [] then { exit := 1, output := "", errors := text [usage] }
  else
    let settings := Settings.ofEnvironment host.environment
    let filter := Log.ofEnvironment host.environment
    let begun := started settings arguments
    let ctx := Context.ofSettings host settings
    match Cursor.ofReader (.ofSource (.ofArguments arguments) settings) with
    | .error e =>
      { exit := 1, output := "", errors := text (logged filter [begun] ++ [e.message]) }
    | .ok cursor =>
      match Configuration.run ctx {} cursor with
      | (_, .error e c) =>
        let lines := begun :: c.reader.trail.reverse.map Log.ofEvent
        { exit := 1, output := "", errors := text (logged filter lines ++ [e.message]) }
      | (config, .ok () c) =>
        let lines := begun :: c.reader.trail.reverse.map Log.ofEvent
        { exit := 0, output := shown settings config, errors := text (logged filter lines) }

end KeepRules.Trace
