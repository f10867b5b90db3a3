import LiveMarkup.CommandLine.Arguments
import LiveMarkup.Json.Reader
import LiveMarkup.Template.Basic

namespace LiveMarkup

/-- Why a file cannot be read. -/
inductive ReadError where
  | notFound
  | notDirectory
  | isDirectory
  | notText
  | other (text : String)

namespace ReadError

def message : ReadError → String
  | .notFound => "No such file or directory (os error 2)"
  | .notDirectory => "Not a directory (os error 20)"
  | .isDirectory => "Is a directory (os error 21)"
  | .notText => "stream did not contain valid UTF-8"
  | .other text => text

end ReadError

abbrev Files := String → Except ReadError String

structure CommandResult where
  code : Nat
  output : String
  errors : String
deriving DecidableEq

namespace CommandLine

def versionText : String := "shadowc 0.1.0"

def usageText : String :=
  "Usage: shadowc [--config JSON_FILE] [-v] <compile FILES... | render FILE [--data JSON_FILE] " ++
    "[--class NAME] | apply FILE --data JSON_FILE>"

def printed (text : String) : CommandResult := ⟨0, text ++ "\n", ""⟩

def failed (text : String) : CommandResult := ⟨1, "", "Error: " ++ text ++ "\n"⟩

def readFile (files : Files) (role path : String) : Except String String :=
  match files path with
  | .ok content => .ok content
  | .error e => .error ("reading " ++ role ++ " " ++ path ++ ": " ++ e.message)

def parseFailure (role path : String) : String :=
  "parsing " ++ role ++ " " ++ path ++ ": not a text of that form"

def loadConfig (files : Files) : Option String → Except String Config
  | none => .ok .standard
  | some path =>
    match readFile files "config" path with
    | .error e => .error e
    | .ok content =>
      match Config.read? content with
      | some config => .ok config
      | none => .error (parseFailure "config" path)

def loadData (files : Files) (path : String) : Except String Json :=
  match readFile files "data" path with
  | .error e => .error e
  | .ok content =>
    match Json.read? content with
    | some data => .ok data
    | none => .error (parseFailure "data" path)

def loadTemplate (files : Files) (config : Config) (path : String) : Except String Template :=
  match readFile files "template" path with
  | .error e => .error e
  | .ok text => .ok (.new text { config with sourceUrl := path } .standard)

def reportFile (files : Files) (config : Config) (path : String) : CompileReport :=
  match files path with
  | .ok text => .ofText path text config
  | .error e => ⟨path, .error ("reading template: " ++ e.message)⟩

/-- One line for each file. The code says whether all of them compiled. -/
def compile (files : Files) (config : Config) (paths : List String) : CommandResult :=
  let reports := paths.map (reportFile files config)
  let lines := reports.map fun r => r.toJson.print ++ "\n"
  ⟨if reports.all CompileReport.ok then 0 else 1, String.join lines, ""⟩

def render (files : Files) (config : Config) (path : String) (data className : Option String) :
    Except String String :=
  match data.mapM (loadData files) with
  | .error e => .error e
  | .ok data =>
    match loadTemplate files config path with
    | .error e => .error e
    | .ok t =>
      match t.render className data with
      | .ok html => .ok html
      | .error e => .error ("instantiating " ++ path ++ ": " ++ e.message)

def apply (files : Files) (config : Config) (path data : String) : Except String String :=
  match loadData files data with
  | .error e => .error e
  | .ok data =>
    match loadTemplate files config path with
    | .error e => .error e
    | .ok t => .ok (t.apply data)

def ofResult : Except String String → CommandResult
  | .ok text => printed text
  | .error e => failed e

def runTask (files : Files) (config : Config) : Task → CommandResult
  | .compile paths => compile files config paths
  | .render path data className => ofResult (render files config path data className)
  | .apply path data => ofResult (apply files config path data)

def run (files : Files) (args : List String) : CommandResult :=
  match Arguments.parse args with
  | .error .usage => ⟨2, "", usageText ++ "\n"⟩
  | .error .help => printed usageText
  | .error .version => printed versionText
  | .ok invocation =>
    match loadConfig files invocation.config with
    | .error e => failed e
    | .ok config => runTask files config invocation.task

/-- The files that the program may read for its arguments. -/
def filesNeeded (args : List String) : List String :=
  match Arguments.parse args with
  | .error _ => []
  | .ok ⟨config, task⟩ =>
    config.toList ++
      match task with
      | .compile paths => paths
      | .render path data _ => path :: data.toList
      | .apply path data => [path, data]

end CommandLine

end LiveMarkup
